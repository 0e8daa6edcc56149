import ShardedQuery.Access.Selection
import ShardedQuery.Proofs.Access.Entries
import ShardedQuery.Proofs.Graph.Names
import ShardedQuery.Proofs.Graph.Rows

/-!
# What an access path leaves in place

Putting an analysis to work edits one block and one scan, takes the old WHERE clause apart and adds
constants and conjunctions. `Rewrites` says what this leaves of a graph. It is shown once, step
by step, and what becomes of names, rows, types and the root is read off it.
-/

namespace ShardedQuery

open ShardedQuery.Graph

variable {block scan : NodeId} {e : Expr} {g : Graph}

/-- What a rewrite makes of an expression: a conjunction may be taken apart. The block at hand may
change but for its fields, and the scan at hand but for its table. -/
inductive Expr.Rewritten (atBlock atScan : Prop) : Expr → Expr → Prop
  | same (e : Expr) : Rewritten atBlock atScan e e
  | dissolved (args : List NodeId) : Rewritten atBlock atScan (.call .and args) (.call .and [])
  | block {b b' : Block} (hat : atBlock) (hselect : b'.select = b.select) :
    Rewritten atBlock atScan (.block b) (.block b')
  | scan {s s' : TableScan} (hat : atScan) (htable : s'.table = s.table)
    (htype : s'.rowType = s.rowType) : Rewritten atBlock atScan (.scan s) (.scan s')

namespace Expr.Rewritten

variable {p q : Prop} {e' e'' : Expr}

theorem trans (h₁ : Rewritten p q e e') (h₂ : Rewritten p q e' e'') : Rewritten p q e e'' := by
  cases h₁ with
  | same => exact h₂
  | dissolved args => cases h₂ <;> exact .dissolved args
  | block hat hselect =>
    cases h₂ with
    | same => exact .block hat hselect
    | block _ hselect' => exact .block hat (hselect'.trans hselect)
  | scan hat htable htype =>
    cases h₂ with
    | same => exact .scan hat htable htype
    | scan _ htable' htype' => exact .scan hat (htable'.trans htable) (htype'.trans htype)

variable (h : Rewritten p q e e')
include h

theorem givesRows_eq : e'.givesRows = e.givesRows := by
  cases h <;> rfl

theorem table?_eq : e'.table? = e.table? := by
  cases h with
  | scan _ htable htype => rw [Expr.table?, Expr.table?, htable, htype]
  | _ => rfl

theorem fieldNames_eq : e'.fieldNames = e.fieldNames := by
  cases h with
  | block _ hselect => rw [fieldNames, fieldNames, hselect]
  | _ => rfl

/-- What is not at hand stays, or is a conjunction that is taken apart. -/
theorem eq_or (hb : ¬ (p ∧ e.isBlock)) (hs : ¬ (q ∧ e.isScan)) :
    e' = e ∨ (e.isConjunction ∧ e' = .call .and []) := by
  cases h with
  | same => exact .inl rfl
  | dissolved args => exact .inr ⟨rfl, rfl⟩
  | block hat => exact absurd ⟨hat, rfl⟩ hb
  | scan hat => exact absurd ⟨hat, rfl⟩ hs

end Expr.Rewritten

namespace Graph

variable {h k : Graph}

/-- `h` comes from `g` by edits of a block and a scan. Conjunctions may be taken apart, and nodes that
are added give no rows. -/
structure Rewrites (block scan : NodeId) (g h : Graph) : Prop where
  size_le : g.size ≤ h.size
  root_eq : h.root = g.root
  type_eq : ∀ v, v < g.size → h.type? v = g.type? v
  old : ∀ v, v < g.size → Expr.Rewritten (v = block) (v = scan) (g.expr v) (h.expr v)
  new : ∀ v, g.size ≤ v → (h.expr v).givesRows = false

theorem SameExprs.rewrites (hs : SameExprs g h) (hroot : h.root = g.root)
    (htype : ∀ v, h.type? v = g.type? v) : Rewrites block scan g h where
  size_le := hs.size_eq.symm.le
  root_eq := hroot
  type_eq v _ := htype v
  old v _ := hs.expr_eq v ▸ .same _
  new v hv := by rw [expr_of_size_le (hs.size_eq ▸ hv)]; rfl

namespace Rewrites

theorem refl (g : Graph) : Rewrites block scan g g := (SameExprs.refl g).rewrites rfl fun _ => rfl

theorem trans (h₁ : Rewrites block scan g h) (h₂ : Rewrites block scan h k) :
    Rewrites block scan g k where
  size_le := h₁.size_le.trans h₂.size_le
  root_eq := h₂.root_eq.trans h₁.root_eq
  type_eq v hv := (h₂.type_eq v (hv.trans_le h₁.size_le)).trans (h₁.type_eq v hv)
  old v hv := (h₁.old v hv).trans (h₂.old v (hv.trans_le h₁.size_le))
  new v hv := by
    rcases Nat.lt_or_ge v h.size with hlt | hge
    · rw [(h₂.old v hlt).givesRows_eq, h₁.new v hv]
    · exact h₂.new v hge

theorem foldl {α : Type} {step : Graph → α → Graph}
    (hstep : ∀ g x, Rewrites block scan g (step g x)) (xs : List α) (g : Graph) :
    Rewrites block scan g (xs.foldl step g) :=
  List.foldlRecOn (motive := fun k => Rewrites block scan g k) xs step (refl g)
    fun k hk x _ => hk.trans (hstep k x)

theorem modifyExpr {id : NodeId} {f : Expr → Expr}
    (hf : Expr.Rewritten (id = block) (id = scan) (g.expr id) (f (g.expr id))) :
    Rewrites block scan g (g.modifyExpr id f) where
  size_le := Nat.le_of_eq (size_modify ..).symm
  root_eq := rfl
  type_eq _ _ := type?_modifyExpr ..
  old v _ := by
    rw [expr_modifyExpr]
    split
    · next h => exact h.1 ▸ hf
    · exact .same _
  new v hv := by
    rw [expr_modifyExpr, if_neg fun h => not_lt.2 hv h.2, expr_of_size_le hv]
    rfl

theorem modifyBlock {f : Block → Block} (hf : ∀ b, (f b).select = b.select) :
    Rewrites block scan g (g.modifyBlock block f) := by
  refine modifyExpr ?_
  cases g.expr block with
  | block b => exact .block rfl (hf b)
  | _ => exact .same _

theorem modifyScan {f : TableScan → TableScan}
    (hf : ∀ s, (f s).table = s.table ∧ (f s).rowType = s.rowType) :
    Rewrites block scan g (g.modifyScan scan f) := by
  refine modifyExpr ?_
  cases g.expr scan with
  | scan s => exact .scan rfl (hf s).1 (hf s).2
  | _ => exact .same _

theorem link (p c : NodeId) : Rewrites block scan g (g.link p c) :=
  (SameExprs.link g p c).rewrites rfl fun _ => type?_link p c

theorem unlink (p c : NodeId) : Rewrites block scan g (g.unlink p c) :=
  (SameExprs.unlink g p c).rewrites rfl fun _ => type?_unlink p c

theorem removes (hr : Removes g h) : Rewrites block scan g h :=
  hr.toSameExprs.rewrites hr.root_eq hr.type_eq

theorem add (he : e.givesRows = false) : Rewrites block scan g (g.add e).2 where
  size_le := by rw [size_add]; exact Nat.le_succ _
  root_eq := root_add e
  type_eq _ _ := type?_add e
  old v hv := by rw [expr_add_of_lt e hv]; exact .same _
  new v hv := by
    rw [expr_add_eq]
    split
    · exact he
    · rw [expr_of_size_le hv]
      rfl

theorem addCondition (cs : List NodeId) : Rewrites block scan g (g.addCondition cs).2 := by
  unfold Graph.addCondition
  split
  · exact refl g
  · exact refl g
  · exact add rfl

theorem keyNodes {key : String} : ∀ (ks : List KeySource) (g : Graph),
    Rewrites block scan g (KeySource.nodes key g ks).2
  | [], g => refl g
  | .predicate _ :: ks, g => keyNodes ks g
  | .mapKey :: ks, _ => (add rfl).trans (keyNodes ks _)

theorem dissolve {call : NodeId} {args : List NodeId} (hcall : g.expr call = .call .and args) :
    Rewrites block scan g (g.dissolve call args) where
  size_le := Nat.le_of_eq (size_dissolve ..).symm
  root_eq := root_dissolve call args
  type_eq v _ := type?_dissolve hcall v
  old v _ := by
    rw [expr_dissolve hcall]
    split
    · next hv => exact hv ▸ hcall ▸ .dissolved args
    · exact .same _
  new v hv := by
    rw [expr_dissolve hcall]
    split
    · rfl
    · rw [expr_of_size_le hv]
      rfl

theorem withoutCondition : Rewrites block scan g (g.withoutCondition block) := by
  unfold Graph.withoutCondition
  split
  · exact refl g
  · dsimp only
    split
    · next hcall => exact (unlink ..).trans (dissolve hcall)
    · exact unlink ..

theorem setConjuncts (cs : List NodeId) : Rewrites block scan g (g.setConjuncts block cs) := by
  rw [Graph.setConjuncts]
  refine ((withoutCondition.trans (addCondition cs)).trans (foldl (fun k c => link block c) _ _)).trans
    ((modifyBlock fun _ => by rfl).trans (foldl (fun k c => ?_) _ _))
  split
  · exact refl k
  · exact removes (.destroyIfUnused c)

theorem dropEntry (pos : Nat) (e : FromEntry) :
    Rewrites block scan g (g.dropEntry block pos e) :=
  ((modifyBlock fun _ => by rfl).trans (unlink block e.domain)).trans
    (removes ((Removes.destroyIfUnused _).trans (.destroy _)))

theorem dropUnused (absorbed : List NodeId) :
    Rewrites block scan g (g.dropUnused block absorbed) := by
  refine foldl (fun k x => ?_) _ g
  unfold dropTurn
  split
  · exact dropEntry x.2 x.1
  · exact refl k

theorem dropSort : Rewrites block scan g (Selection.dropSort g block) :=
  (modifyBlock fun _ => by rfl).trans (foldl (fun k (x : SortKey) =>
    (unlink (g := k) block x.expr).trans (removes (.destroyIfUnused x.expr))) _ _)

theorem sortByIndex (reverse : Bool) :
    Rewrites block scan g (Selection.sortByIndex g block scan reverse) :=
  (modifyBlock fun _ => by rfl).trans (modifyScan fun _ => by exact ⟨rfl, rfl⟩)

/-! ## What can be read off -/

variable (hr : Rewrites block scan g h)
include hr

theorem keepsNames (E : NodeId → Prop) : KeepsNames E g h := by
  have hcases (v : NodeId) : (h.expr v).table? = (g.expr v).table? ∧
      (h.expr v).fieldNames = (g.expr v).fieldNames := by
    rcases Nat.lt_or_ge v g.size with hlt | hge
    · exact ⟨(hr.old v hlt).table?_eq, (hr.old v hlt).fieldNames_eq⟩
    · have hnew := hr.new v hge
      rw [expr_of_size_le hge]
      cases he : h.expr v <;> rw [he] at hnew <;> first | exact ⟨rfl, rfl⟩ | cases hnew
  exact ⟨hr.size_le, fun v => (hcases v).1, fun v _ => (hcases v).2⟩

/-- Other nodes that give rows stay as they are. -/
theorem expr_eq_of_givesRows {v : NodeId} (hrows : (h.expr v).givesRows)
    (hb : ¬ (v = block ∧ (h.expr v).isBlock)) (hs : ¬ (v = scan ∧ (h.expr v).isScan)) :
    h.expr v = g.expr v := by
  have hlt : v < g.size := Nat.lt_of_not_le fun hge => by
    rw [hr.new v hge] at hrows
    cases hrows
  have hold := hr.old v hlt
  revert hrows hb hs hold
  generalize h.expr v = e', g.expr v = e
  rintro hrows hb hs (_ | args | hat | hat)
  · rfl
  · cases hrows
  · exact absurd ⟨hat, rfl⟩ hb
  · exact absurd ⟨hat, rfl⟩ hs

theorem rowsFrom : RowsFrom block (fun v => v = block ∨ v = scan) g h := by
  intro v hv hrows
  have heq := hr.expr_eq_of_givesRows hrows (fun h => hv (.inl h.1)) fun h => hv (.inr h.1)
  exact ⟨_, .id, heq.trans (g.expr v).mapChildren_id.symm⟩

end Rewrites

end Graph

/-! ## Putting an analysis to work -/

namespace Analysis

variable (a : Analysis) (g : Graph) (t : Table) (site : Site)

theorem rewrites_grownGraph : Rewrites block scan g (a.grownGraph g) :=
  (Rewrites.keyNodes a.bounds.keys g).trans (.addCondition a.filterConjuncts)

/-- Once the new nodes are there, only the block, the scan and the old WHERE clause change. -/
theorem rewrites_remainingGraph :
    Rewrites site.block scan (a.grownGraph g) (a.remainingGraph g t site scan) :=
  ((Rewrites.modifyScan fun _ => by exact ⟨rfl, rfl⟩).trans
    (.foldl (fun _ c => .link scan c) _ _)).trans (.setConjuncts _)

theorem rewrites_apply :
    Rewrites site.block scan (a.grownGraph g) (a.apply g t site scan) :=
  (a.rewrites_remainingGraph g t site).trans
    (.dropUnused a.absorbed)

end Analysis

/-- Whatever becomes of its order, only the block and its scan are edited. -/
theorem Selection.rewrites_carryOut (rowVar : NodeId) (a : Analysis) (t : Table) (sort : SortUse) :
    Rewrites block scan (a.grownGraph g)
      (carryOut g block (.access t ⟨block, rowVar⟩ scan a sort)) := by
  have happly : Rewrites block scan (a.grownGraph g) (a.apply g t ⟨block, rowVar⟩ scan) :=
    a.rewrites_apply g t ⟨block, rowVar⟩
  cases sort with
  | keep => exact happly
  | drop =>
    rw [carryOut]
    exact happly.trans .dropSort
  | byIndex reverse =>
    rw [carryOut]
    exact happly.trans (.sortByIndex reverse)

end ShardedQuery
