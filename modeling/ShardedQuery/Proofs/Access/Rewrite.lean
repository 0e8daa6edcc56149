import Mathlib.Data.List.Forall2
import ShardedQuery.Access.Apply
import ShardedQuery.Proofs.Graph.Frame

/-!
# What a rewritten block looks like

`Analysis.apply` in terms of what can be read afterwards. The scan has the keys, the range and the
filter of the analysis, the WHERE clause has the conjuncts that remain, and every node that is
neither a block nor a scan nor a conjunction still holds what it held. `Analysis.applied` says all
this at once; nothing else opens the definition of `apply`.
-/

namespace ShardedQuery

open ShardedQuery.Graph List

variable {g h : Graph} {c scan : NodeId} {b : Block} {site : Site} {s : TableScan}

/-- What the rewriting of a block and its scan leaves alone. -/
def Expr.IsSteady (e : Expr) : Prop :=
  e.isBlock = false ∧ e.isScan = false ∧ e.isConjunction = false

theorem Graph.Keeps.expr_of_eq (hk : g.Keeps Expr.IsSteady h) {id : NodeId} {e : Expr}
    (he : g.expr id = e) (hne : e ≠ .literal .empty) (hsteady : e.IsSteady) : h.expr id = e := by
  subst he
  exact hk.expr_eq id (lt_size_of_expr hne) hsteady

theorem exists_of_forall₂ {α β : Type} {R : α → β → Prop} {as : List α} {bs : List β}
    (h : Forall₂ R as bs) {b : β} (hb : b ∈ bs) : ∃ a ∈ as, R a b := by
  induction h with
  | nil => cases hb
  | cons hab _ ih =>
    rcases mem_cons.1 hb with rfl | hb
    · exact ⟨_, .head _, hab⟩
    · obtain ⟨a, ha, hab⟩ := ih hb
      exact ⟨a, .tail _ ha, hab⟩

namespace Graph

/-- The conditions a scan checks on index entries. -/
def filterConjuncts (g : Graph) (scan : NodeId) : List NodeId :=
  ((g.scan? scan).bind (·.filter)).elim [] g.parts

/-! ## Key nodes -/

section
variable {key : String}

/-- The node stands for an equality key: it is the operand of a predicate, or the constant key of a
map. -/
def IsKey (g : Graph) (key : String) : KeySource → NodeId → Prop
  | .predicate p, id => id = p.operand
  | .mapKey, id => g.expr id = .literal (.string key)

theorem IsKey.keep {C : Expr → Prop} (hk : Keeps C g h) (hC : ∀ v, C (.literal v)) {k : KeySource}
    {id : NodeId} (hid : g.IsKey key k id) : h.IsKey key k id := by
  cases k with
  | predicate p => exact hid
  | mapKey =>
    have he : g.expr id = .literal (.string key) := hid
    have hlt : id < g.size := lt_size_of_expr (by simp [he])
    show h.expr id = _
    rw [hk.expr_eq id hlt (he ▸ hC _), he]

theorem Keeps.keyNodes (C : Expr → Prop) :
    ∀ (ks : List KeySource) (g : Graph), Keeps C g (KeySource.nodes key g ks).2
  | [], g => refl C g
  | .predicate _ :: ks, g => keyNodes C ks g
  | .mapKey :: ks, g => (add g (.literal (.string key)) C).trans (keyNodes C ks _)

theorem isKey_nodes : ∀ (ks : List KeySource) (g : Graph),
    Forall₂ ((KeySource.nodes key g ks).2.IsKey key) ks (KeySource.nodes key g ks).1
  | [], _ => .nil
  | .predicate p :: ks, g => .cons rfl (isKey_nodes ks g)
  | .mapKey :: ks, g => by
    refine .cons ?_ (isKey_nodes ks _)
    have hnew : (g.addLiteral (.string key)).2.IsKey key .mapKey g.size := expr_add_self g _
    exact hnew.keep (Keeps.keyNodes (fun _ => True) ks _) fun _ => trivial

end

/-! ## WHERE clauses that stay -/

/-- The blocks of two graphs have the same WHERE clauses, and conditions have the same parts. -/
structure SameClauses (g h : Graph) : Prop where
  parts_eq : ∀ c, h.parts c = g.parts c
  condition_eq : ∀ block,
    (h.block? block).bind (·.condition) = (g.block? block).bind (·.condition)

namespace SameClauses

theorem refl (g : Graph) : SameClauses g g := ⟨fun _ => rfl, fun _ => rfl⟩

theorem trans {k : Graph} (h₁ : SameClauses g h) (h₂ : SameClauses h k) : SameClauses g k :=
  ⟨fun c => (h₂.parts_eq c).trans (h₁.parts_eq c),
    fun block => (h₂.condition_eq block).trans (h₁.condition_eq block)⟩

theorem conjuncts_eq (hs : SameClauses g h) (block : NodeId) :
    h.conjuncts block = g.conjuncts block :=
  conjuncts_congr (hs.condition_eq block) fun c _ => hs.parts_eq c

theorem of_sameExprs (hs : SameExprs g h) : SameClauses g h :=
  ⟨fun c => parts_congr (hs.expr_eq c), fun block => by unfold block?; rw [hs.expr_eq]⟩

/-- A change of a block that leaves the WHERE clause alone. -/
theorem modifyBlock (g : Graph) (id : NodeId) {f : Block → Block}
    (hf : ∀ b, (f b).condition = b.condition) : SameClauses g (g.modifyBlock id f) := by
  refine ⟨fun c => parts_modifyBlock g id c f, fun block => ?_⟩
  unfold block? Graph.modifyBlock
  rw [expr_modifyExpr]
  by_cases h : block = id ∧ block < g.size
  · rw [if_pos h]
    cases g.expr block with
    | block b => exact hf b
    | _ => rfl
  · rw [if_neg h]

theorem modifyScan (g : Graph) (id : NodeId) (f : TableScan → TableScan) :
    SameClauses g (g.modifyScan id f) := by
  refine ⟨fun c => parts_modifyScan g id c f, fun block => ?_⟩
  unfold block? Graph.modifyScan
  rw [expr_modifyExpr]
  by_cases h : block = id ∧ block < g.size
  · rw [if_pos h]
    cases g.expr block <;> rfl
  · rw [if_neg h]

theorem foldl {α : Type} {step : Graph → α → Graph} (hstep : ∀ g x, SameClauses g (step g x)) :
    ∀ (xs : List α) (g : Graph), SameClauses g (xs.foldl step g)
  | [], g => refl g
  | x :: xs, g => (hstep g x).trans (foldl hstep xs (step g x))

end SameClauses

/-! ## The scan -/

section
variable (g : Graph) (scan : NodeId) (a : Analysis) (t : Table) (keys : List NodeId)
  (filter : Option NodeId)

theorem sameExprs_setAccess :
    SameExprs (g.modifyScan scan (·.accessed a t keys filter))
      (g.setAccess scan a t keys filter) :=
  SameExprs.foldl (fun g c => SameExprs.link g scan c) _ _

theorem Keeps.setAccess :
    Keeps (fun e => e.isScan = false) g (g.setAccess scan a t keys filter) :=
  (modifyScan g scan _ fun _ h => h).trans
    ((sameExprs_setAccess g scan a t keys filter).keeps _)

theorem SameClauses.setAccess : SameClauses g (g.setAccess scan a t keys filter) :=
  (modifyScan g scan _).trans (of_sameExprs (sameExprs_setAccess g scan a t keys filter))

theorem isConjunction_setAccess (c : NodeId) :
    ((g.setAccess scan a t keys filter).expr c).isConjunction = (g.expr c).isConjunction := by
  rw [(sameExprs_setAccess g scan a t keys filter).expr_eq, modifyScan, expr_modifyExpr]
  by_cases h : c = scan ∧ c < g.size
  · rw [if_pos h]
    cases g.expr c <;> rfl
  · rw [if_neg h]

end

theorem scan?_setAccess (hs : g.scan? scan = some s) (a : Analysis) (t : Table) (keys : List NodeId)
    (filter : Option NodeId) :
    (g.setAccess scan a t keys filter).scan? scan = some (s.accessed a t keys filter) := by
  have he := scan?_eq_some.1 hs
  have hlt : scan < g.size := lt_size_of_expr (by simp [he])
  rw [scan?_eq_some, (sameExprs_setAccess g scan a t keys filter).expr_eq, modifyScan,
    expr_modifyExpr, if_pos ⟨rfl, hlt⟩, he]

/-! ## FROM entries -/

theorem sameExprs_dropEntry (g : Graph) (block : NodeId) (pos : Nat) (e : FromEntry) :
    SameExprs (g.modifyBlock block fun b => { b with entries := b.entries.eraseIdx pos })
      (g.dropEntry block pos e) :=
  ((SameExprs.unlink _ block e.domain).trans (SameExprs.destroyIfUnused _ e.domain)).trans
    (SameExprs.destroy _ e.var)

theorem SameClauses.dropEntry (g : Graph) (block : NodeId) (pos : Nat) (e : FromEntry) :
    SameClauses g (g.dropEntry block pos e) := by
  have hblock := modifyBlock g block
    (f := fun b => { b with entries := b.entries.eraseIdx pos }) fun _ => rfl
  exact hblock.trans (of_sameExprs (sameExprs_dropEntry g block pos e))

theorem SameClauses.dropUnused (g : Graph) (block : NodeId) (absorbed : List NodeId) :
    SameClauses g (g.dropUnused block absorbed) := by
  refine foldl (fun g x => ?_) _ g
  unfold dropTurn
  split
  · exact dropEntry g block x.2 x.1
  · exact refl g

theorem Keeps.dropEntry (g : Graph) (block : NodeId) (pos : Nat) (e : FromEntry) :
    Keeps (fun e => e.isBlock = false) g (g.dropEntry block pos e) :=
  (modifyBlock g block _ fun _ h => h).trans ((sameExprs_dropEntry g block pos e).keeps _)

theorem Keeps.dropUnused (g : Graph) (block : NodeId) (absorbed : List NodeId) :
    Keeps (fun e => e.isBlock = false) g (g.dropUnused block absorbed) := by
  refine foldl (fun g x => ?_) _ g
  unfold dropTurn
  split
  · exact dropEntry g block x.2 x.1
  · exact refl _ g

end Graph

/-! ## The rewritten block -/

/-- The block and the scan that an analysis is applied to. -/
structure Site.Scans (site : Site) (g : Graph) (scan : NodeId) : Prop where
  isBlock : (g.block? site.block).isSome
  isScan : (g.scan? scan).isSome
  /-- The WHERE clause is a node of the graph. -/
  condition_lt : ∀ c ∈ (g.block? site.block).bind (·.condition), c < g.size

/-- No conjunct of the WHERE clause is a conjunction itself. -/
def Site.IsFlat (site : Site) (g : Graph) : Prop :=
  ∀ c ∈ g.conjuncts site.block, c < g.size ∧ (g.expr c).isConjunction = false

instance (site : Site) (g : Graph) : Decidable (site.IsFlat g) :=
  inferInstanceAs (Decidable (∀ c ∈ g.conjuncts site.block, _))

/-- What can be read in the graph `h` that comes of applying an analysis in `g`. -/
structure Analysis.Applied (a : Analysis) (g : Graph) (site : Site) (scan : NodeId) (h : Graph) :
    Prop where
  keeps : g.Keeps Expr.IsSteady h
  /-- The scan has the keys and the range of the analysis. -/
  access : ∃ s, h.scan? scan = some s ∧ Forall₂ (h.IsKey (a.mapKey.getD "")) a.bounds.keys s.keys ∧
    s.range = a.bounds.range.map (·.toFieldRange)
  /-- The scan filters by the conditions of the analysis; a single one must not be read as a
  conjunction. -/
  filter : (∀ c, a.filterConjuncts = [c] → c < g.size ∧ (g.expr c).isConjunction = false) →
    h.filterConjuncts scan = a.filterConjuncts
  /-- The WHERE clause has the conjuncts that remain. -/
  conjuncts : (∀ c, a.remaining g site = [c] → c < g.size ∧ (g.expr c).isConjunction = false) →
    h.conjuncts site.block = a.remaining g site

namespace Analysis.Applied

variable {a : Analysis}

theorem mem_filter (happ : a.Applied g site scan h) (hc : c ∈ a.filterConjuncts)
    (hlt : c < g.size) (hnc : (g.expr c).isConjunction = false) :
    c ∈ h.filterConjuncts scan := by
  rw [happ.filter fun d hd => ?_]
  · exact hc
  · rw [hd] at hc
    cases mem_singleton.1 hc
    exact ⟨hlt, hnc⟩

theorem mem_conjuncts (happ : a.Applied g site scan h) (hc : c ∈ a.remaining g site)
    (hlt : c < g.size) (hnc : (g.expr c).isConjunction = false) : c ∈ h.conjuncts site.block := by
  rw [happ.conjuncts fun d hd => ?_]
  · exact hc
  · rw [hd] at hc
    cases mem_singleton.1 hc
    exact ⟨hlt, hnc⟩

theorem conjuncts_eq (happ : a.Applied g site scan h) (hflat : site.IsFlat g) :
    h.conjuncts site.block = a.remaining g site :=
  happ.conjuncts fun c hc =>
    hflat c (List.mem_filter.1 (hc ▸ List.mem_singleton_self c : c ∈ a.remaining g site)).1

end Analysis.Applied

namespace Analysis

theorem keeps_keyedGraph (a : Analysis) (g : Graph) : g.Keeps (fun _ => True) (a.keyedGraph g) :=
  .keyNodes _ a.bounds.keys g

theorem keeps_grownGraph (a : Analysis) (g : Graph) : g.Keeps (fun _ => True) (a.grownGraph g) :=
  (a.keeps_keyedGraph g).trans (.addCondition _ _ a.filterConjuncts)

theorem keeps_accessGraph (a : Analysis) (g : Graph) (t : Table) (scan : NodeId) :
    g.Keeps (fun e => e.isScan = false) (a.accessGraph g t scan) :=
  ((a.keeps_grownGraph g).mono fun _ _ => trivial).trans (.setAccess _ scan a t _ _)

theorem keeps_apply_accessGraph (a : Analysis) (g : Graph) (t : Table) (site : Site)
    (scan : NodeId) :
    (a.accessGraph g t scan).Keeps (fun e => e.isBlock = false ∧ e.isConjunction = false)
      (a.apply g t site scan) := by
  exact (Keeps.setConjuncts _ _ _).trans
    ((Keeps.dropUnused _ _ _).mono fun _ h => h.1)

section
variable (a : Analysis) (t : Table)

theorem block?_accessGraph (scan : NodeId) {v : NodeId} (hb : g.block? v = some b) :
    (a.accessGraph g t scan).block? v = some b := by
  have hexpr := block?_eq_some.1 hb
  rw [block?_eq_some, (a.keeps_accessGraph g t scan).expr_eq v
    (lt_size_of_block? hb) (by rw [hexpr]; rfl), hexpr]

theorem block?_remainingGraph (scan : NodeId) (hb : g.block? site.block = some b) :
    (a.remainingGraph g t site scan).block? site.block =
      some { b with
        condition := (a.accessGraph g t scan).newCondition site.block
          (a.remaining (a.accessGraph g t scan) site) } :=
  block?_setConjuncts (a.block?_accessGraph t scan hb) _

theorem condition_accessGraph (hsite : site.Scans g scan) :
    ((a.accessGraph g t scan).block? site.block).bind (·.condition) =
      (g.block? site.block).bind (·.condition) := by
  obtain ⟨b, hb⟩ := Option.isSome_iff_exists.1 hsite.isBlock
  have he := block?_eq_some.1 hb
  have hlt : site.block < g.size := lt_size_of_expr (by simp [he])
  refine ((SameClauses.setAccess _ scan a t _ _).condition_eq _).trans ?_
  unfold block?
  rw [(a.keeps_grownGraph g).expr_eq _ hlt trivial]

theorem conjuncts_accessGraph (hsite : site.Scans g scan) :
    (a.accessGraph g t scan).conjuncts site.block = g.conjuncts site.block := by
  refine conjuncts_congr (a.condition_accessGraph t hsite) ?_
  intro c hc
  refine ((SameClauses.setAccess _ scan a t _ _).parts_eq c).trans ?_
  exact parts_congr ((a.keeps_grownGraph g).expr_eq c (hsite.condition_lt c hc) trivial)

theorem remaining_accessGraph (hsite : site.Scans g scan) :
    a.remaining (a.accessGraph g t scan) site = a.remaining g site := by
  simp only [remaining, a.conjuncts_accessGraph t hsite]

theorem isConjunction_accessGraph (scan : NodeId) (hc : c < g.size) :
    ((a.accessGraph g t scan).expr c).isConjunction = (g.expr c).isConjunction := by
  refine (isConjunction_setAccess _ scan a t _ _ c).trans ?_
  rw [(a.keeps_grownGraph g).expr_eq c hc trivial]

/-- The scan keeps its keys, its range and its filter while the block changes. -/
theorem scan?_apply (hs : g.scan? scan = some s) :
    (a.apply g t site scan).scan? scan = some (s.accessed a t
      (a.keyNodes g).1 ((a.keyedGraph g).addCondition a.filterConjuncts).1) := by
  have he := scan?_eq_some.1 hs
  have hlt : scan < g.size := lt_size_of_expr (by simp [he])
  have hs' : (a.grownGraph g).scan? scan = some s :=
    scan?_eq_some.2 (by rw [(a.keeps_grownGraph g).expr_eq _ hlt trivial, he])
  have he' := scan?_eq_some.1 (scan?_setAccess hs' a t
    (a.keyNodes g).1 ((a.keyedGraph g).addCondition a.filterConjuncts).1)
  have hrest := a.keeps_apply_accessGraph g t site scan
  refine scan?_eq_some.2 ((hrest.expr_eq scan ?_ ?_).trans he')
  · exact Nat.lt_of_lt_of_le hlt (a.keeps_accessGraph g t scan).size_le
  · rw [accessGraph, he']
    exact ⟨rfl, rfl⟩

/-- The nodes of the equality keys stand for them in the end. -/
theorem isKey_apply (site : Site) (scan : NodeId) :
    Forall₂ ((a.apply g t site scan).IsKey (a.mapKey.getD "")) a.bounds.keys
      (a.keyNodes g).1 := by
  refine (isKey_nodes a.bounds.keys g).imp ?_
  intro k id hk
  have hgrown : (a.keyedGraph g).Keeps (fun _ => True) (a.grownGraph g) := .addCondition _ _ _
  have haccess : (a.keyedGraph g).Keeps (fun e => e.isScan = false) (a.accessGraph g t scan) :=
    (hgrown.mono fun _ _ => trivial).trans (.setAccess _ scan a t _ _)
  exact (hk.keep haccess fun _ => rfl).keep (a.keeps_apply_accessGraph g t site scan)
    fun _ => ⟨rfl, rfl⟩

/-- The scan filters by the conditions of the analysis. -/
theorem filterConjuncts_apply (hsite : site.Scans g scan)
    (hflat : ∀ c, a.filterConjuncts = [c] → c < g.size ∧ (g.expr c).isConjunction = false) :
    (a.apply g t site scan).filterConjuncts scan = a.filterConjuncts := by
  obtain ⟨s, hs⟩ := Option.isSome_iff_exists.1 hsite.isScan
  unfold Graph.filterConjuncts
  rw [a.scan?_apply t hs]
  refine parts_addCondition (fun id hid => ?_) fun c hc => ?_
  · rw [apply, remainingGraph, (SameClauses.dropUnused _ _ _).parts_eq, parts_setConjuncts]
    · exact (SameClauses.setAccess _ scan a t _ _).parts_eq id
    · rcases addCondition_spec hid with hc | ⟨-, hlt, -⟩
      · exact Nat.lt_of_lt_of_le (hflat id hc).1 (a.keeps_accessGraph g t scan).size_le
      · exact Nat.lt_of_lt_of_le hlt (Keeps.setAccess _ scan a t _ _).size_le
    · rcases addCondition_spec hid with hc | ⟨rfl, -, -⟩
      · rintro ⟨-, hconj⟩
        rw [a.isConjunction_accessGraph t scan (hflat id hc).1, (hflat id hc).2] at hconj
        cases hconj
      · rintro ⟨hcond, -⟩
        rw [a.condition_accessGraph t hsite] at hcond
        exact Nat.not_lt.2 (a.keeps_keyedGraph g).size_le (hsite.condition_lt _ hcond)
  · obtain ⟨hlt, hnc⟩ := hflat c hc
    rwa [(a.keeps_keyedGraph g).expr_eq c hlt trivial]

theorem conjuncts_apply (hsite : site.Scans g scan)
    (hflat : ∀ c, a.remaining g site = [c] → c < g.size ∧ (g.expr c).isConjunction = false) :
    (a.apply g t site scan).conjuncts site.block = a.remaining g site := by
  obtain ⟨b, hb⟩ := Option.isSome_iff_exists.1 hsite.isBlock
  rw [apply, remainingGraph, (SameClauses.dropUnused _ _ _).conjuncts_eq,
    a.remaining_accessGraph t hsite]
  refine conjuncts_setConjuncts (a.block?_accessGraph t scan hb) _ ?_
  intro c hc
  obtain ⟨hlt, hnc⟩ := hflat c hc
  exact (a.isConjunction_accessGraph t scan hlt).trans hnc

/-- Applying an analysis does what the analysis says. -/
theorem applied (hsite : site.Scans g scan) : a.Applied g site scan (a.apply g t site scan) where
  keeps := ((keeps_accessGraph a g t scan).mono fun _ h => h.2.1).trans
    ((a.keeps_apply_accessGraph g t site scan).mono fun _ h => ⟨h.1, h.2.2⟩)
  access := by
    obtain ⟨s, hs⟩ := Option.isSome_iff_exists.1 hsite.isScan
    exact ⟨_, a.scan?_apply t hs, a.isKey_apply t site scan, rfl⟩
  filter := a.filterConjuncts_apply t hsite
  conjuncts := a.conjuncts_apply t hsite

end

end Analysis

/-! ## In place -/

theorem Work.ask_bind {α β : Type} {f : Graph → Except CompileError α} {x : α} (h : f g = .ok x)
    (k : α → Work β) : (Work.ask f >>= k) g = k x g := by
  simp only [bind, Work.ask, h]

/-- The nodes of the keys are found, since a key of a map is chosen where there is to be one. -/
theorem KeySource.growAll_eq {key : Option String} {ks : List KeySource}
    (hkey : KeySource.mapKey ∈ ks → key.isSome) (g : Graph) :
    growAll key ks g = ((nodes (key.getD "") g ks).2, .ok (nodes (key.getD "") g ks).1) := by
  induction ks generalizing g with
  | nil => rfl
  | cons k ks ih =>
    have hrest := ih fun h => hkey (.tail _ h)
    cases k with
    | predicate p => simp only [growAll, grow, nodes, node, bind, pure, hrest]
    | mapKey =>
      obtain ⟨key, rfl⟩ := Option.isSome_iff_exists.1 (hkey (.head _))
      simp only [growAll, grow, nodes, node, bind, pure, Work.grow, hrest, Option.getD_some]

/-- In a block that scans a table, and with a key of a map if one is to bound the scan, nothing goes
wrong on the way. -/
theorem Analysis.applyInPlace_eq {a : Analysis} (hb : g.block? site.block = some b)
    (hdomain : b.firstDomain? = some scan) (hs : g.scan? scan = some s)
    (hkey : KeySource.mapKey ∈ a.bounds.keys → a.mapKey.isSome) (t : Table) :
    a.applyInPlace t site g = (a.apply g t site scan, .ok ()) := by
  have hscan : g.scanOf site.block = .ok scan := by simp [scanOf, hb, hdomain, hs]
  have hcheck : (a.grownGraph g).checkScan scan = .ok () := by
    have hs' : (a.grownGraph g).scan? scan = some s := by
      rw [scan?_eq_some] at hs ⊢
      rw [(a.keeps_grownGraph g).expr_eq _ (lt_size_of_expr (by simp [hs])) trivial, hs]
    rw [checkScan, hs']
    rfl
  rw [applyInPlace, Work.ask_bind hscan]
  simp only [bind, KeySource.growAll_eq hkey]
  change (Work.ask (·.checkScan scan) >>= _) (a.grownGraph g) = _
  rw [Work.ask_bind hcheck]
  rfl

end ShardedQuery
