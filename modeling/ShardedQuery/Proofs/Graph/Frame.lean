import ShardedQuery.Graph.Build
import ShardedQuery.Graph.Edit

/-!
# What edits leave alone

An edit of a graph touches the expressions of few nodes: links, liveness and kept types can change
everywhere, expressions only where the edit says so. `Graph.SameExprs g h` holds when no expression
changed at all, which is so for links and for the removal of nodes. `Graph.Keeps C g h` holds when
`h` has grown out of `g` and every expression of the class `C` still stands where it stood. Both
compose, so that what a sequence of edits leaves alone is read off its steps.
-/

namespace ShardedQuery

open List

variable {block c v id : NodeId} {g h : Graph} {f : Expr → Expr} {e : FromEntry} {cs : List NodeId}
  {s : TableScan} {b : Block}

/-- A conjunction of conditions. -/
def Expr.isConjunction : Expr → Bool
  | .call .and _ => true
  | _ => false

theorem Expr.exists_of_isConjunction {e : Expr} (h : e.isConjunction) :
    ∃ args, e = .call .and args := by
  unfold isConjunction at h
  split at h
  · next args => exact ⟨args, rfl⟩
  · cases h

namespace Graph

/-! ## Nodes after a single write -/

theorem size_modify (g : Graph) (id : NodeId) (f : Node → Node) :
    (g.modify id f).size = g.size := by
  simp [modify, size]

/-- A write at one node is read there, if the node exists, and nowhere else. -/
theorem node_modify (g : Graph) (id j : NodeId) (f : Node → Node) :
    (g.modify id f).node j = if j = id ∧ j < g.size then f (g.node j) else g.node j := by
  simp only [modify, node, size, Array.getD_eq_getD_getElem?, Array.getElem?_modify]
  by_cases hj : id = j
  · subst hj
    by_cases hs : id < g.nodes.size
    · simp [hs]
    · simp [hs]
  · have hj' : ¬ (j = id ∧ j < g.nodes.size) := fun h => hj h.1.symm
    simp [hj, hj']

theorem expr_modifyExpr (g : Graph) (id j : NodeId) (f : Expr → Expr) :
    (g.modifyExpr id f).expr j = if j = id ∧ j < g.size then f (g.expr j) else g.expr j := by
  simp only [modifyExpr, expr, node_modify]
  split <;> rfl

/-- A node that is not there reads as the empty literal. -/
theorem expr_of_size_le (h : g.size ≤ id) : g.expr id = .literal .empty := by
  have hnone : g.nodes[id]? = none := Array.getElem?_eq_none h
  simp [expr, node, Array.getD_eq_getD_getElem?, hnone, Node.absent]

theorem lt_size_of_expr (h : g.expr id ≠ .literal .empty) : id < g.size :=
  Nat.lt_of_not_le fun hge => h (expr_of_size_le hge)

theorem block?_eq_some : g.block? id = some b ↔ g.expr id = .block b := by
  unfold block?
  split <;> simp_all

theorem lt_size_of_block? (hb : g.block? block = some b) : block < g.size :=
  lt_size_of_expr (by rw [block?_eq_some.1 hb]; simp)

theorem lt_size_of_var {x : Variable} (hx : g.expr v = .var x) : v < g.size :=
  lt_size_of_expr (by rw [hx]; simp)

theorem children_of_block? (hb : g.block? block = some b) :
    g.children block = (Expr.block b).children := by
  rw [children, block?_eq_some.1 hb]

theorem expr_modifyBlock_of_ne {f : Block → Block} (hv : v ≠ block) :
    (g.modifyBlock block f).expr v = g.expr v := by
  rw [modifyBlock, expr_modifyExpr, if_neg fun h => hv h.1]

theorem block?_modifyBlock (hb : g.block? block = some b) (f : Block → Block) :
    (g.modifyBlock block f).block? block = some (f b) := by
  rw [block?_eq_some, modifyBlock, expr_modifyExpr, if_pos ⟨rfl, lt_size_of_block? hb⟩,
    block?_eq_some.1 hb]

theorem mem_children_of_mem_entries (he : e ∈ b.entries) : e.domain ∈ (Expr.block b).children := by
  simp only [Expr.children, append_assoc]
  exact mem_append_left _ (mem_map_of_mem he)

theorem domain_mem_children {p : NodeId} (hb : g.block? p = some b) (he : e ∈ b.entries) :
    e.domain ∈ g.children p := by
  rw [children_of_block? hb]
  exact mem_children_of_mem_entries he

theorem scan?_eq_some : g.scan? id = some s ↔ g.expr id = .scan s := by
  unfold scan?
  split <;> simp_all

theorem scan?_eq_none : g.scan? v = none ↔ (g.expr v).isScan = false := by
  unfold scan?
  split <;> simp_all [Expr.isScan]

theorem isScan_of_block? (hb : g.block? v = some b) : (g.expr v).isScan = false := by
  rw [block?_eq_some.1 hb]
  rfl

theorem lt_size_of_scan? (hs : g.scan? v = some s) : v < g.size :=
  lt_size_of_expr (by rw [scan?_eq_some.1 hs]; simp)

theorem var?_eq_some {v : Variable} : g.var? id = some v ↔ g.expr id = .var v := by
  unfold var?
  split <;> simp_all

/-! ## Edits that change no expression -/

/-- The two graphs have the same nodes with the same expressions. -/
structure SameExprs (g h : Graph) : Prop where
  size_eq : h.size = g.size
  expr_eq : ∀ id, h.expr id = g.expr id

namespace SameExprs

theorem refl (g : Graph) : SameExprs g g := ⟨rfl, fun _ => rfl⟩

theorem trans {k : Graph} (h₁ : SameExprs g h) (h₂ : SameExprs h k) : SameExprs g k :=
  ⟨h₂.size_eq.trans h₁.size_eq, fun id => (h₂.expr_eq id).trans (h₁.expr_eq id)⟩

theorem symm (hs : SameExprs g h) : SameExprs h g :=
  ⟨hs.size_eq.symm, fun id => (hs.expr_eq id).symm⟩

theorem children_eq (hs : SameExprs g h) (v : NodeId) : h.children v = g.children v := by
  rw [children, hs.expr_eq, children]

theorem modify (g : Graph) (id : NodeId) {f : Node → Node} (hf : ∀ n, (f n).expr = n.expr) :
    SameExprs g (g.modify id f) := by
  refine ⟨g.size_modify id f, fun j => ?_⟩
  simp only [expr, node_modify]
  split
  · exact hf _
  · rfl

theorem foldl {α : Type} {step : Graph → α → Graph} (hstep : ∀ g x, SameExprs g (step g x)) :
    ∀ (xs : List α) (g : Graph), SameExprs g (xs.foldl step g)
  | [], g => refl g
  | x :: xs, g => (hstep g x).trans (foldl hstep xs (step g x))

theorem link (g : Graph) (parent child : NodeId) : SameExprs g (g.link parent child) :=
  modify g child fun _ => rfl

theorem unlink (g : Graph) (parent child : NodeId) : SameExprs g (g.unlink parent child) :=
  modify g child fun _ => rfl

theorem bury (g : Graph) (id : NodeId) : SameExprs g (g.bury id) :=
  modify g id fun _ => rfl

theorem kill (g : Graph) (id : NodeId) : SameExprs g (g.kill id) :=
  modify g id fun _ => rfl

theorem detach (g : Graph) (id : NodeId) : SameExprs g (g.detach id) :=
  modify g id fun _ => rfl

theorem release (id : NodeId) :
    ∀ (cs : List NodeId) (g : Graph), SameExprs g (g.release id cs).2
  | [], g => refl g
  | c :: cs, g => by
    have hrest := (unlink g id c).trans (release id cs (g.unlink id c))
    simp only [Graph.release]
    split <;> exact hrest

/-- Removing nodes marks them dead and takes them out of parent lists; no expression changes. -/
theorem sweep : ∀ (n : Nat) (work : List NodeId) (g : Graph), SameExprs g (sweep n work g)
  | 0, _, g => refl g
  | _ + 1, [], g => refl g
  | n + 1, id :: work, g => by
    simp only [Graph.sweep]
    split
    · have hrel := (kill g id).trans (release id (g.children id) _)
      have hvars := hrel.trans (foldl bury (g.expr id).declared _)
      exact hvars.trans (sweep n _ _)
    · exact sweep n work g

theorem destroy (g : Graph) (id : NodeId) : SameExprs g (g.destroy id) :=
  sweep _ _ g

theorem destroyIfUnused (g : Graph) (id : NodeId) : SameExprs g (g.destroyIfUnused id) := by
  unfold Graph.destroyIfUnused
  split
  · exact destroy g id
  · exact refl g

end SameExprs

/-! ## Edits that keep a class of expressions -/

/-- Every expression of a class stands in the second graph where it stands in the first, and no
node of the first graph has come into the class. -/
structure Keeps (C : Expr → Prop) (g h : Graph) : Prop where
  size_le : g.size ≤ h.size
  expr_eq : ∀ id, id < g.size → C (g.expr id) → h.expr id = g.expr id
  of_expr : ∀ id, id < g.size → C (h.expr id) → C (g.expr id)

namespace Keeps

variable {C : Expr → Prop} {k : Graph}

theorem refl (C : Expr → Prop) (g : Graph) : Keeps C g g :=
  ⟨Nat.le_refl _, fun _ _ _ => rfl, fun _ _ hC => hC⟩

theorem trans (h₁ : Keeps C g h) (h₂ : Keeps C h k) : Keeps C g k := by
  have hlt : ∀ id, id < g.size → id < h.size := fun _ hid => Nat.lt_of_lt_of_le hid h₁.size_le
  refine ⟨Nat.le_trans h₁.size_le h₂.size_le, fun id hid hC => ?_,
    fun id hid hC => h₁.of_expr id hid (h₂.of_expr id (hlt id hid) hC)⟩
  have he := h₁.expr_eq id hid hC
  rw [h₂.expr_eq id (hlt id hid) (he ▸ hC), he]

theorem mono {C' : Expr → Prop} (hC : ∀ e, C' e → C e) (h₁ : Keeps C g h) : Keeps C' g h := by
  refine ⟨h₁.size_le, fun id hid he => h₁.expr_eq id hid (hC _ he), fun id hid he => ?_⟩
  rwa [← h₁.expr_eq id hid (h₁.of_expr id hid (hC _ he))]

theorem foldl {α : Type} {step : Graph → α → Graph} (hstep : ∀ g x, Keeps C g (step g x)) :
    ∀ (xs : List α) (g : Graph), Keeps C g (xs.foldl step g)
  | [], g => refl C g
  | x :: xs, g => (hstep g x).trans (foldl hstep xs (step g x))

/-- A change of expressions at one node that leaves the class alone. -/
theorem modifyExpr (g : Graph) (id : NodeId) (hf : ∀ e, f e = e ∨ (¬ C e ∧ ¬ C (f e))) :
    Keeps C g (g.modifyExpr id f) := by
  have hcases : ∀ j, (g.modifyExpr id f).expr j = g.expr j ∨
      (¬ C (g.expr j) ∧ ¬ C ((g.modifyExpr id f).expr j)) := by
    intro j
    rw [expr_modifyExpr]
    split
    · exact hf (g.expr j)
    · exact .inl rfl
  refine ⟨Nat.le_of_eq (size_modify ..).symm, fun j _ hC => ?_, fun j _ hC => ?_⟩
  · exact (hcases j).resolve_right fun h => h.1 hC
  · rwa [← (hcases j).resolve_right fun h => h.2 hC]

theorem modifyBlock (g : Graph) (id : NodeId) (f : Block → Block)
    (hC : ∀ e, C e → e.isBlock = false) : Keeps C g (g.modifyBlock id f) := by
  refine modifyExpr g id ?_
  intro e
  cases e with
  | block b => exact .inr ⟨fun h => Bool.noConfusion (hC _ h), fun h => Bool.noConfusion (hC _ h)⟩
  | _ => exact .inl rfl

theorem modifyScan (g : Graph) (id : NodeId) (f : TableScan → TableScan)
    (hC : ∀ e, C e → e.isScan = false) : Keeps C g (g.modifyScan id f) := by
  refine modifyExpr g id ?_
  intro e
  cases e with
  | scan s => exact .inr ⟨fun h => Bool.noConfusion (hC _ h), fun h => Bool.noConfusion (hC _ h)⟩
  | _ => exact .inl rfl

end Keeps

theorem SameExprs.keeps (hs : SameExprs g h) (C : Expr → Prop) : Keeps C g h :=
  ⟨Nat.le_of_eq hs.size_eq.symm, fun id _ _ => hs.expr_eq id, fun id _ hC => hs.expr_eq id ▸ hC⟩

/-! ## Adding nodes -/

section
variable (g : Graph) (e : Expr)

/-- To add a node pushes it, after links that leave expressions alone. -/
theorem exists_add : ∃ h, SameExprs g h ∧
    (g.add e).2 = { h with nodes := h.nodes.push { expr := e } } :=
  ⟨_, SameExprs.foldl (fun g' c => SameExprs.link g' g.size c) e.children g, rfl⟩

theorem size_add : (g.add e).2.size = g.size + 1 := by
  obtain ⟨h, hs, he⟩ := exists_add g e
  rw [he, ← hs.size_eq]
  simp [size]

theorem expr_add_eq (v : NodeId) :
    (g.add e).2.expr v = if v = g.size then e else g.expr v := by
  obtain ⟨h, hs, he⟩ := exists_add g e
  have hsize : h.nodes.size = g.size := hs.size_eq
  rw [he, ← hs.expr_eq v, ← hsize]
  simp only [expr, node, Array.getD_eq_getD_getElem?, Array.getElem?_push]
  split <;> rfl

theorem expr_add_self : (g.add e).2.expr g.size = e := by
  rw [expr_add_eq, if_pos rfl]

/-- A new node changes no other. -/
theorem Keeps.add (C : Expr → Prop) : Keeps C g (g.add e).2 := by
  have hsame {id : NodeId} (hid : id < g.size) : (g.add e).2.expr id = g.expr id := by
    rw [expr_add_eq, if_neg (Nat.ne_of_lt hid)]
  exact ⟨by rw [size_add]; omega, fun id hid _ => hsame hid, fun id hid hC => hsame hid ▸ hC⟩

end

/-! ## Conditions -/

/-- The parts of a condition: those of a conjunction, else the condition itself. -/
def parts (g : Graph) (c : NodeId) : List NodeId :=
  match g.expr c with
  | .call .and args => args
  | _ => [c]

theorem parts_congr (he : h.expr c = g.expr c) : h.parts c = g.parts c := by
  unfold parts
  rw [he]

/-- Any other condition is its own only part. -/
theorem parts_of_not_conjunction (hc : (g.expr c).isConjunction = false) : g.parts c = [c] := by
  unfold parts
  split
  · next h => simp [h, Expr.isConjunction] at hc
  · rfl

/-- A change of blocks or scans is no change of conditions. -/
theorem parts_modifyExpr (g : Graph) (id c : NodeId)
    (hf : ∀ e, f e = e ∨ (e.isConjunction = false ∧ (f e).isConjunction = false)) :
    (g.modifyExpr id f).parts c = g.parts c := by
  by_cases hc : c = id ∧ c < g.size
  · have he : (g.modifyExpr id f).expr c = f (g.expr c) := by rw [expr_modifyExpr, if_pos hc]
    rcases hf (g.expr c) with hsame | ⟨hold, hnew⟩
    · exact parts_congr (he.trans hsame)
    · rw [parts_of_not_conjunction hold, parts_of_not_conjunction (he ▸ hnew)]
  · exact parts_congr (by rw [expr_modifyExpr, if_neg hc])

theorem parts_modifyBlock (g : Graph) (id c : NodeId) (f : Block → Block) :
    (g.modifyBlock id f).parts c = g.parts c := by
  refine parts_modifyExpr g id c ?_
  intro e
  cases e with
  | block b => exact .inr ⟨rfl, rfl⟩
  | _ => exact .inl rfl

theorem parts_modifyScan (g : Graph) (id c : NodeId) (f : TableScan → TableScan) :
    (g.modifyScan id f).parts c = g.parts c := by
  refine parts_modifyExpr g id c ?_
  intro e
  cases e with
  | scan s => exact .inr ⟨rfl, rfl⟩
  | _ => exact .inl rfl

/-- Two or more conjuncts need a new node to hold them. -/
theorem addCondition_cases (g : Graph) (cs : List NodeId) :
    (cs.length < 2 ∧ (g.addCondition cs).2 = g ∧ (g.addCondition cs).1.toList = cs) ∨
      (2 ≤ cs.length ∧ g.addCondition cs = (some g.size, (g.add (.call .and cs)).2)) := by
  rcases cs with _ | ⟨c, _ | ⟨d, cs⟩⟩
  · exact .inl ⟨Nat.zero_lt_two, rfl, rfl⟩
  · exact .inl ⟨Nat.one_lt_two, rfl, rfl⟩
  · exact .inr ⟨by simp, rfl⟩

theorem Keeps.addCondition (C : Expr → Prop) (g : Graph) (cs : List NodeId) :
    Keeps C g (g.addCondition cs).2 := by
  rcases addCondition_cases g cs with ⟨-, h, -⟩ | ⟨-, h⟩
  · rw [h]
    exact refl C g
  · rw [h]
    exact add g _ C

theorem addCondition_spec (hid : (g.addCondition cs).1 = some id) :
    cs = [id] ∨ (id = g.size ∧ id < (g.addCondition cs).2.size ∧
      (g.addCondition cs).2.expr id = .call .and cs) := by
  rcases addCondition_cases g cs with ⟨-, -, h⟩ | ⟨-, h⟩
  · exact .inl (by rw [← h, hid, Option.toList_some])
  · rw [h] at hid ⊢
    cases hid
    exact .inr ⟨rfl, size_add g _ ▸ Nat.lt_succ_self _, expr_add_self g _⟩

/-- Conditions put together have just these conditions as their parts, in every graph that has not
changed the parts of the new node. A single condition must not be a conjunction: that would be read
as its own parts. -/
theorem parts_addCondition
    (hnew : ∀ id, (g.addCondition cs).1 = some id → h.parts id = (g.addCondition cs).2.parts id)
    (hcs : ∀ c, cs = [c] → (g.expr c).isConjunction = false) :
    (g.addCondition cs).1.elim [] h.parts = cs := by
  rcases cs with _ | ⟨c, _ | ⟨d, cs⟩⟩
  · rfl
  · exact (hnew c rfl).trans (parts_of_not_conjunction (hcs c rfl))
  · refine (hnew g.size rfl).trans ?_
    have hself : (g.addCondition (c :: d :: cs)).2.expr g.size = .call .and (c :: d :: cs) :=
      expr_add_self g _
    simp [parts, hself]

/-! ## WHERE clauses -/

/-- The conjuncts are the parts of the condition. -/
theorem conjuncts_eq_parts (g : Graph) (block : NodeId) :
    g.conjuncts block = ((g.block? block).bind (·.condition)).elim [] g.parts := by
  unfold conjuncts parts
  cases (g.block? block).bind (·.condition) <;> rfl

theorem conjuncts_congr
    (hcond : (h.block? block).bind (·.condition) = (g.block? block).bind (·.condition))
    (hparts : ∀ c, (g.block? block).bind (·.condition) = some c → h.parts c = g.parts c) :
    h.conjuncts block = g.conjuncts block := by
  rw [conjuncts_eq_parts, conjuncts_eq_parts, hcond]
  cases hc : (g.block? block).bind (·.condition) with
  | none => rfl
  | some c => exact hparts c hc

/-- A conjunction that is taken apart keeps no arguments. -/
theorem expr_dissolve {call : NodeId} {args : List NodeId} (hcall : g.expr call = .call .and args)
    (v : NodeId) : (g.dissolve call args).expr v = if v = call then .call .and [] else g.expr v := by
  have hsame := SameExprs.foldl (fun g a => SameExprs.unlink g call a) args g
  have hlt : call < g.size := lt_size_of_expr (by rw [hcall]; simp)
  unfold dissolve
  rw [(SameExprs.destroy _ call).expr_eq, setExpr, expr_modifyExpr, hsame.expr_eq, hsame.size_eq]
  by_cases hv : v = call <;> simp [hv, hlt]

theorem size_dissolve (g : Graph) (call : NodeId) (args : List NodeId) :
    (g.dissolve call args).size = g.size := by
  unfold dissolve
  rw [(SameExprs.destroy _ call).size_eq, setExpr, modifyExpr, size_modify]
  exact (SameExprs.foldl (fun g a => SameExprs.unlink g call a) args g).size_eq

/-- The WHERE clause of a block is a conjunction. It is taken apart when the clause is rewritten. -/
def TakesApart (g : Graph) (block w : NodeId) : Prop :=
  (g.block? block).bind (·.condition) = some w ∧ (g.expr w).isConjunction

instance (g : Graph) (block w : NodeId) : Decidable (g.TakesApart block w) :=
  inferInstanceAs (Decidable (_ ∧ _))

theorem TakesApart.iff_eq {w : NodeId} (hw : g.TakesApart block w) : g.TakesApart block v ↔ v = w :=
  ⟨fun hv => Option.some.inj (hv.1.symm.trans hw.1), fun h => h ▸ hw⟩

theorem not_takesApart_self (hb : g.block? block = some b) : ¬ g.TakesApart block block := by
  rintro ⟨-, hconj⟩
  rw [block?_eq_some.1 hb] at hconj
  cases hconj

/-- The steps by which the WHERE clause of a block goes. -/
theorem withoutCondition_cases (g : Graph) (block : NodeId) :
    ((∀ w, ¬ g.TakesApart block w) ∧
      (((g.block? block).bind (·.condition) = none ∧ g.withoutCondition block = g) ∨
        ∃ old, (g.block? block).bind (·.condition) = some old ∧
          g.withoutCondition block = g.unlink block old)) ∨
    ∃ old args, g.TakesApart block old ∧ (g.unlink block old).expr old = .call .and args ∧
      g.withoutCondition block = (g.unlink block old).dissolve old args := by
  unfold withoutCondition TakesApart
  cases hcond : (g.block? block).bind (·.condition) with
  | none => exact .inl ⟨fun w hw => (by cases hw.1), .inl ⟨rfl, rfl⟩⟩
  | some old =>
    have hexpr := (SameExprs.unlink g block old).expr_eq old
    simp only
    split
    · next args hargs =>
      exact .inr ⟨old, args, ⟨rfl, by rw [← hexpr, hargs]; rfl⟩, hargs, rfl⟩
    · next hnot =>
      refine .inl ⟨fun w ⟨hw, hconj⟩ => ?_, .inr ⟨old, rfl, rfl⟩⟩
      cases hw
      obtain ⟨args, hargs⟩ := Expr.exists_of_isConjunction hconj
      exact hnot args (hexpr.trans hargs)

theorem size_withoutCondition (g : Graph) (block : NodeId) :
    (g.withoutCondition block).size = g.size := by
  rcases g.withoutCondition_cases block with ⟨-, ⟨-, h⟩ | ⟨old, -, h⟩⟩ | ⟨old, args, -, -, h⟩
  · rw [h]
  · rw [h, (SameExprs.unlink g block old).size_eq]
  · rw [h, size_dissolve, (SameExprs.unlink g block old).size_eq]

/-- Only the old condition is taken apart. -/
theorem expr_withoutCondition (g : Graph) (block v : NodeId) : (g.withoutCondition block).expr v =
    if g.TakesApart block v then .call .and [] else g.expr v := by
  rcases g.withoutCondition_cases block with
    ⟨hnot, ⟨-, h⟩ | ⟨old, -, h⟩⟩ | ⟨old, args, hold, hcall, h⟩
  · rw [h, if_neg (hnot v)]
  · rw [h, if_neg (hnot v), (SameExprs.unlink g block old).expr_eq]
  · rw [h, expr_dissolve hcall, (SameExprs.unlink g block old).expr_eq]
    simp only [hold.iff_eq]

section
variable (g : Graph) (block : NodeId) (cs : List NodeId)

theorem sameExprs_linkedCondition :
    SameExprs (g.withCondition block cs) (g.linkedCondition block cs) :=
  SameExprs.foldl (fun k c => SameExprs.link k block c) _ _

/-- What is removed in the end keeps its expression. -/
theorem sameExprs_setConjuncts :
    SameExprs (g.reconditioned block cs) (g.setConjuncts block cs) := by
  refine SameExprs.foldl (fun g c => ?_) (g.conjuncts block) _
  split
  · exact .refl g
  · exact .destroyIfUnused g c

theorem size_withCondition : (g.withCondition block cs).size =
    if 2 ≤ cs.length then g.size + 1 else g.size := by
  rcases addCondition_cases (g.withoutCondition block) cs with ⟨h2, h, -⟩ | ⟨h2, h⟩
  · rw [withCondition, h, size_withoutCondition, if_neg (Nat.not_le.2 h2)]
  · rw [withCondition, h, size_add, size_withoutCondition, if_pos h2]

theorem size_le_withCondition : g.size ≤ (g.withCondition block cs).size := by
  rw [size_withCondition]
  split
  · exact Nat.le_succ _
  · exact Nat.le_refl _

/-- The node of a new clause uses the conjuncts, and leaves every node alone but, if it is a
conjunction, the old clause. -/
theorem expr_withCondition (v : NodeId) : (g.withCondition block cs).expr v =
    if v = g.size ∧ 2 ≤ cs.length then .call .and cs
    else if g.TakesApart block v then .call .and [] else g.expr v := by
  rcases addCondition_cases (g.withoutCondition block) cs with ⟨h2, h, -⟩ | ⟨h2, h⟩
  · rw [if_neg fun hv => Nat.not_le.2 h2 hv.2, withCondition, h, expr_withoutCondition]
  · rw [withCondition, h, expr_add_eq, expr_withoutCondition, size_withoutCondition]
    simp only [h2, and_true]

theorem expr_withCondition_of_lt (hlt : id < g.size) : (g.withCondition block cs).expr id =
    if g.TakesApart block id then .call .and [] else g.expr id := by
  rw [expr_withCondition, if_neg fun h => Nat.ne_of_lt hlt h.1]

/-- Whatever is neither a block nor a conjunction outlives a new WHERE clause. -/
theorem Keeps.setConjuncts : Keeps (fun e => e.isBlock = false ∧ e.isConjunction = false) g
      (g.setConjuncts block cs) := by
  have hwith : Keeps (fun e => e.isBlock = false ∧ e.isConjunction = false) g
      (g.withCondition block cs) := by
    refine ⟨size_le_withCondition g block cs, fun id hlt hC => ?_, fun id hlt hC => ?_⟩
    · rw [expr_withCondition_of_lt g block cs hlt, if_neg fun h => by simp [h.2] at hC]
    · rw [expr_withCondition_of_lt g block cs hlt] at hC
      split at hC
      · cases hC.2
      · exact hC
  exact ((hwith.trans ((g.sameExprs_linkedCondition block cs).keeps _)).trans
    (modifyBlock _ block _ fun _ h => h.1)).trans ((g.sameExprs_setConjuncts block cs).keeps _)

theorem parts_setConjuncts (hlt : c < g.size) (hc : ¬ g.TakesApart block c) :
    (g.setConjuncts block cs).parts c = g.parts c := by
  rw [parts_congr ((g.sameExprs_setConjuncts block cs).expr_eq c), reconditioned, parts_modifyBlock]
  refine parts_congr (((g.sameExprs_linkedCondition block cs).expr_eq c).trans ?_)
  rw [expr_withCondition_of_lt g block cs hlt, if_neg hc]

end

section
variable (hb : g.block? block = some b) (cs : List NodeId)
include hb

theorem block?_linkedCondition : (g.linkedCondition block cs).block? block = some b := by
  rw [block?_eq_some, (g.sameExprs_linkedCondition block cs).expr_eq,
    expr_withCondition_of_lt g block cs (lt_size_of_block? hb), if_neg (not_takesApart_self hb),
    block?_eq_some.1 hb]

theorem block?_reconditioned : (g.reconditioned block cs).block? block =
    some { b with condition := g.newCondition block cs } :=
  block?_modifyBlock (block?_linkedCondition hb cs) _

/-- The block gets the new condition and keeps the rest. -/
theorem block?_setConjuncts : (g.setConjuncts block cs).block? block =
    some { b with condition := g.newCondition block cs } := by
  rw [block?_eq_some, (g.sameExprs_setConjuncts block cs).expr_eq,
    block?_eq_some.1 (block?_reconditioned hb cs)]

/-- The conjuncts become those that are given. -/
theorem conjuncts_setConjuncts (hcs : ∀ c, cs = [c] → (g.expr c).isConjunction = false) :
    (g.setConjuncts block cs).conjuncts block = cs := by
  rw [conjuncts_eq_parts, block?_setConjuncts hb cs]
  refine parts_addCondition (fun id _ => ?_) fun c hc => ?_
  · rw [parts_congr ((g.sameExprs_setConjuncts block cs).expr_eq id), reconditioned, parts_modifyBlock]
    exact parts_congr ((g.sameExprs_linkedCondition block cs).expr_eq id)
  · rw [expr_withoutCondition, if_neg fun h => absurd h.2 (by simp [hcs c hc])]
    exact hcs c hc

end

end Graph

end ShardedQuery
