import ShardedQuery.Proofs.Matching.Levels

/-!
# Matching and the scopes of context variables

Below a path step its context variables are in scope. `Graph.Renames` says that two expressions are
equal up to the choice of these variables: a reference in one stands where the other has a reference
to the variable at the same place of its scope, which is that of the corresponding step.

Matching compares context variables by their kind. So it takes the element of an inner filter for
the element of an outer one (`Graph.alike_crossedFilters`). Where every reference means the nearest
variable of its kind (`Graph.NamesNearest`) the kind tells the place, and what matches is equal up
to renaming (`Graph.alike_renames`).
-/

namespace ShardedQuery

open Relation List

variable {σ τ : List NodeId} {a b : NodeId} {k : VarKind} {g : Graph}

namespace Expr

/-- The slots that do not see the context variables of the expression: of a path step, the input. -/
def outerSlots : Expr → List NodeId
  | slice input _ _ _ | filter input _ _ | mapFilter _ input _ _ => [input]
  | e => e.children

/-- The slots that see the context variables of the expression. -/
def innerSlots : Expr → List NodeId
  | slice _ low high _ => low.toList ++ high.toList
  | filter _ condition _ | mapFilter _ _ condition _ => condition.toList
  | _ => []

/-- What a boundary knows about merging. -/
def merging? : Expr → Option (List Nat × List SortSpec × List Nat)
  | receive r => some (r.sortPositions, r.sortSpecs, r.keyPositions)
  | _ => none

theorem children_eq_slots (e : Expr) : e.children = e.outerSlots ++ e.innerSlots := by
  cases e <;> simp [children, outerSlots, innerSlots]

theorem length_outerSlots_form (e : Expr) : e.form.outerSlots.length = e.outerSlots.length := by
  cases e with
  | slice | filter | mapFilter | receive => rfl
  | scan s =>
    cases h : s.range <;>
      simp [form, outerSlots, mapChildren, children, FieldRange.ends, Option.toList_map, h,
        Nat.add_assoc]
  | _ => simp [form, outerSlots, mapChildren, Block.mapSlots, children, Option.toList_map]

end Expr

namespace Graph

/-! ## Equality up to renaming -/

/-- The kind of the variable at a node. -/
def kind? (g : Graph) (id : NodeId) : Option VarKind :=
  match g.expr id with
  | .var v => some v.kind
  | _ => none

/-- What matching passes over: the kinds of the variables that a step declares, and what a boundary
knows about merging. -/
def details (g : Graph) (id : NodeId) :
    List (Option VarKind) × Option (List Nat × List SortSpec × List Nat) :=
  ((g.expr id).context.map g.kind?, (g.expr id).merging?)

/-- Two expressions are equal up to the choice of context variables and the order of map entries.
The lists are the context variables in scope, those of the innermost step first. -/
inductive Renames (g : Graph) : List NodeId → List NodeId → NodeId → NodeId → Prop
  /-- References to context variables at one place of the two scopes. -/
  | bound {σ τ : List NodeId} {x y : NodeId} {k : VarKind} {i : Nat} (hx : g.kind? x = some k)
      (hy : g.kind? y = some k) (hcontext : k.isContext) (hi : σ.idxOf? x = some i)
      (hj : τ.idxOf? y = some i) : Renames g σ τ x y
  /-- A variable that is not bound by a step stands for itself. -/
  | fixed {σ τ : List NodeId} {x : NodeId} {k : VarKind} (hx : g.kind? x = some k)
      (hfree : k.isContext → x ∉ σ ∧ x ∉ τ) : Renames g σ τ x x
  | external {σ τ : List NodeId} {x y : NodeId} {number : Nat} {s t : SeqType}
      (hx : g.kind? x = some (.external number s)) (hy : g.kind? y = some (.external number t)) :
      Renames g σ τ x y
  | literal {σ τ : List NodeId} {a b : NodeId} {v w : Value} (ha : g.expr a = .literal v)
      (hb : g.expr b = .literal w) (h : v == w) (htype : v.itemType = w.itemType) :
      Renames g σ τ a b
  | map {σ τ as bs : List NodeId} {a b : NodeId} {es fs fs' : List (NodeId × NodeId)}
      (ha : g.expr a = .map as) (hb : g.expr b = .map bs) (has : entriesOf? as = some es)
      (hbs : entriesOf? bs = some fs) (hperm : fs'.Perm fs) (hlength : es.length = fs'.length)
      (hkeys : ∀ p ∈ es.zip fs', Renames g σ τ p.1.1 p.2.1)
      (hvalues : ∀ p ∈ es.zip fs', Renames g σ τ p.1.2 p.2.2) : Renames g σ τ a b
  /-- All other expressions are the same but for their slots and their context variables, which are
  of the same kinds. -/
  | node {σ τ : List NodeId} {a b : NodeId} (hvar : ¬ (g.expr a).isVar)
      (hform : (g.expr a).form = (g.expr b).form) (hdetails : g.details a = g.details b)
      (houter : ∀ p ∈ (g.expr a).outerSlots.zip (g.expr b).outerSlots, Renames g σ τ p.1 p.2)
      (hinner : ∀ p ∈ (g.expr a).innerSlots.zip (g.expr b).innerSlots,
        Renames g ((g.expr a).context ++ σ) ((g.expr b).context ++ τ) p.1 p.2) : Renames g σ τ a b

/-! ## References to the nearest variable -/

/-- Every reference to a context variable means the nearest variable of its kind that is in scope.
-/
inductive NamesNearest (g : Graph) : List NodeId → NodeId → Prop
  | context {σ : List NodeId} {x : NodeId} {k : VarKind} (hx : g.kind? x = some k)
      (hcontext : k.isContext) (hnearest : σ.find? (g.kind? · = some k) = some x) :
      NamesNearest g σ x
  | node {σ : List NodeId} {a : NodeId} (ha : ∀ k, g.kind? a = some k → ¬ k.isContext)
      (houter : ∀ c ∈ (g.expr a).outerSlots, NamesNearest g σ c)
      (hinner : ∀ c ∈ (g.expr a).innerSlots, NamesNearest g ((g.expr a).context ++ σ) c) :
      NamesNearest g σ a

section
variable {c : NodeId}

theorem expr_of_kind? (h : g.kind? a = some k) :
    ∃ v : Variable, g.expr a = .var v ∧ v.kind = k := by
  unfold kind? at h
  split at h
  · next v hv => exact ⟨v, hv, Option.some.inj h⟩
  · cases h

theorem kind?_of_expr {v : Variable} (h : g.expr a = .var v) : g.kind? a = some v.kind := by
  rw [kind?, h]

theorem exists_kind?_of_isVar (h : (g.expr a).isVar) : ∃ k, g.kind? a = some k := by
  cases he : g.expr a with
  | var v => exact ⟨v.kind, kind?_of_expr he⟩
  | _ =>
    rw [he] at h
    cases h

theorem NamesNearest.outer (h : g.NamesNearest σ a) (hc : c ∈ (g.expr a).outerSlots) :
    g.NamesNearest σ c := by
  cases h with
  | context hx =>
    obtain ⟨v, hv, -⟩ := expr_of_kind? hx
    rw [hv] at hc
    cases hc
  | node _ houter => exact houter c hc

theorem NamesNearest.inner (h : g.NamesNearest σ a) (hc : c ∈ (g.expr a).innerSlots) :
    g.NamesNearest ((g.expr a).context ++ σ) c := by
  cases h with
  | context hx =>
    obtain ⟨v, hv, -⟩ := expr_of_kind? hx
    rw [hv] at hc
    cases hc
  | node _ _ hinner => exact hinner c hc

theorem NamesNearest.find? (h : g.NamesNearest σ a) (ha : g.kind? a = some k)
    (hcontext : k.isContext) : σ.find? (g.kind? · = some k) = some a := by
  cases h with
  | context hx _ hnearest =>
    cases hx.symm.trans ha
    exact hnearest
  | node hnot => exact absurd hcontext (hnot k ha)

/-- The nearest variables of one kind stand at one place, if the scopes have the same kinds. -/
theorem exists_idxOf? {k : Option VarKind} (hkinds : σ.map g.kind? = τ.map g.kind?)
    (ha : σ.find? (g.kind? · = k) = some a) (hb : τ.find? (g.kind? · = k) = some b) :
    ∃ i, σ.idxOf? a = some i ∧ τ.idxOf? b = some i := by
  induction σ generalizing τ with
  | nil => cases ha
  | cons x σ ih =>
    cases τ with
    | nil => cases hb
    | cons y τ =>
      obtain ⟨hhead, htail⟩ := List.cons.inj hkinds
      rw [find?_cons] at ha hb
      by_cases hx : g.kind? x = k
      · have hy : g.kind? y = k := hhead.symm.trans hx
        simp only [hx, hy, decide_true, Option.some.injEq] at ha hb
        exact ⟨0, by simp [idxOf?_cons, ha], by simp [idxOf?_cons, hb]⟩
      · have hy : ¬ g.kind? y = k := fun hy => hx (hhead.trans hy)
        simp only [hx, hy, decide_false] at ha hb
        obtain ⟨i, hi, hj⟩ := ih htail ha hb
        have hka : g.kind? a = k := by simpa using find?_some ha
        have hkb : g.kind? b = k := by simpa using find?_some hb
        have hxa : x ≠ a := fun heq => hx (heq ▸ hka)
        have hyb : y ≠ b := fun heq => hy (heq ▸ hkb)
        exact ⟨i + 1, by simp [idxOf?_cons, hxa, hi], by simp [idxOf?_cons, hyb, hj]⟩

theorem mem_children_of_outer (h : c ∈ (g.expr a).outerSlots) : c ∈ g.children a := by
  rw [children, Expr.children_eq_slots]
  exact mem_append_left _ h

theorem mem_children_of_inner (h : c ∈ (g.expr a).innerSlots) : c ∈ g.children a := by
  rw [children, Expr.children_eq_slots]
  exact mem_append_right _ h

end

/-! ## Soundness -/

/-- Nodes below `a` and `b` that match agree in what matching passes over. -/
def SharesDetails (g : Graph) (a b : NodeId) : Prop :=
  ∀ u v, ReflTransGen g.IsChild a u → ReflTransGen g.IsChild b v →
    g.alike u v → g.details u = g.details v

theorem SharesDetails.child (h : g.SharesDetails a b) {c d : NodeId} (hc : c ∈ g.children a)
    (hd : d ∈ g.children b) : g.SharesDetails c d :=
  fun u v hu hv => h u v (.head hc hu) (.head hd hv)

/-- Slots of one node, or of nodes of one form, are equal up to renaming if the slots that match
are. -/
theorem renames_of_slots (hvar : ¬ (g.expr a).isVar) (hform : (g.expr a).form = (g.expr b).form)
    (hdetails : g.details a = g.details b)
    (hslots : Forall₂ (fun c d => g.alike c d) (g.expr a).children (g.expr b).children)
    (houter : ∀ c ∈ (g.expr a).outerSlots, ∀ d ∈ (g.expr b).outerSlots, g.alike c d →
      g.Renames σ τ c d)
    (hinner : ∀ c ∈ (g.expr a).innerSlots, ∀ d ∈ (g.expr b).innerSlots, g.alike c d →
      g.Renames ((g.expr a).context ++ σ) ((g.expr b).context ++ τ) c d) :
    g.Renames σ τ a b := by
  have hlength : (g.expr a).outerSlots.length = (g.expr b).outerSlots.length := by
    rw [← Expr.length_outerSlots_form, hform, Expr.length_outerSlots_form]
  rw [Expr.children_eq_slots, Expr.children_eq_slots, forall₂_append_iff hlength] at hslots
  refine .node hvar hform hdetails (fun p hp => ?_) (fun p hp => ?_)
  · obtain ⟨hc, hd⟩ := of_mem_zip hp
    exact houter _ hc _ hd (forall₂_zip hslots.1 hp)
  · obtain ⟨hc, hd⟩ := of_mem_zip hp
    exact hinner _ hc _ hd (forall₂_zip hslots.2 hp)

/-- A variable matches itself, a context variable those of its kind, and an external variable those
of its number. -/
theorem kind?_of_matched {same : NodeId → NodeId → Prop} (ha : g.kind? a = some k)
    (h : Matched same (g.expr a) (g.expr b)) :
    (k.isContext ∧ g.kind? b = some k) ∨
      ∃ number s t, k = .external number s ∧ g.kind? b = some (.external number t) := by
  obtain ⟨v, hv, rfl⟩ := expr_of_kind? ha
  rw [hv] at h
  generalize hw : g.expr b = e at h
  cases h with
  | var h =>
    rw [kind?_of_expr hw]
    rcases matchVars_iff.1 h with ⟨hcontext, heq⟩ | ⟨number, s, t, hs, ht⟩
    · exact .inl ⟨hcontext, congrArg some heq.symm⟩
    · exact .inr ⟨number, s, t, hs, congrArg some ht⟩
  | form hby => cases hby

/-- What matches in scopes with the same kinds of variables is equal up to renaming. -/
theorem renames_of_alike (hacyclic : g.AcyclicBelow a) (hkinds : σ.map g.kind? = τ.map g.kind?)
    (ha : g.NamesNearest σ a) (hb : g.NamesNearest τ b) (hshares : g.SharesDetails a b)
    (h : g.alike a b) : g.Renames σ τ a b := by
  induction ha generalizing τ b with
  | @context σ x k hx hcontext hnearest =>
    have hy : g.kind? b = some k := by
      rcases hacyclic.matched h with rfl | hmatched
      · exact hx
      · rcases kind?_of_matched hx hmatched with ⟨-, hy⟩ | ⟨number, s, t, rfl, -⟩
        · exact hy
        · cases hcontext
    -- The kind tells the place: both are the nearest of their kind.
    obtain ⟨i, hi, hj⟩ := exists_idxOf? hkinds hnearest (hb.find? hy hcontext)
    exact .bound hx hy hcontext hi hj
  | @node σ a hnot _ _ ihouter ihinner =>
    have hdetails := hshares a b .refl .refl h
    have houter (c) (hc : c ∈ (g.expr a).outerSlots) (d) (hd : d ∈ (g.expr b).outerSlots)
        (hcd : g.alike c d) : g.Renames σ τ c d :=
      ihouter c hc (hacyclic.child (mem_children_of_outer hc)) hkinds (hb.outer hd)
        (hshares.child (mem_children_of_outer hc) (mem_children_of_outer hd)) hcd
    have hinner (c) (hc : c ∈ (g.expr a).innerSlots) (d) (hd : d ∈ (g.expr b).innerSlots)
        (hcd : g.alike c d) :
        g.Renames ((g.expr a).context ++ σ) ((g.expr b).context ++ τ) c d := by
      refine ihinner c hc (hacyclic.child (mem_children_of_inner hc)) ?_ (hb.inner hd)
        (hshares.child (mem_children_of_inner hc) (mem_children_of_inner hd)) hcd
      have hcontext : (g.expr a).context.map g.kind? = (g.expr b).context.map g.kind? :=
        congrArg Prod.fst hdetails
      rw [map_append, map_append, hkinds, hcontext]
    by_cases hvar : (g.expr a).isVar
    · obtain ⟨k, hk⟩ := exists_kind?_of_isVar hvar
      rcases hacyclic.matched h with rfl | hmatched
      · exact .fixed hk fun hcontext => absurd hcontext (hnot k hk)
      · rcases kind?_of_matched hk hmatched with ⟨hcontext, -⟩ | ⟨number, s, t, rfl, hy⟩
        · exact absurd hcontext (hnot k hk)
        · exact .external hk hy
    rcases hacyclic.matched h with rfl | hmatched
    · exact renames_of_slots hvar rfl rfl (forall₂_same.2 fun c _ => alike_self g c) houter
        hinner
    generalize he : g.expr a = e at hmatched
    generalize hf : g.expr b = f at hmatched
    cases hmatched with
    | var =>
      rw [he] at hvar
      exact absurd rfl hvar
    | literal hvalue htype => exact .literal he hf hvalue htype
    | map has hbs hpaired =>
      obtain ⟨fs', hperm, hall⟩ := hpaired
      rw [he, hf] at houter
      refine .map he hf has hbs hperm hall.length_eq (fun p hp => ?_) (fun p hp => ?_)
      all_goals
        obtain ⟨hc, hd⟩ := of_mem_zip hp
        have hc := mem_of_entriesOf? has hc
        have hd := mem_of_entriesOf? hbs (hperm.mem_iff.1 hd)
        have hcd := forall₂_zip hall hp
      · exact houter _ hc.1 _ hd.1 hcd.1
      · exact houter _ hc.2 _ hd.2 hcd.2
    | form _ hform hslots =>
      subst he hf
      exact renames_of_slots hvar hform hdetails hslots houter hinner

/-! ## Reading a renaming back -/

/-- Context variables that correspond stand at one place of their scopes. -/
theorem Renames.idxOf?_eq (h : g.Renames σ τ a b) (ha : g.kind? a = some k) (hcontext : k.isContext) :
    σ.idxOf? a = τ.idxOf? b := by
  obtain ⟨v, hv, rfl⟩ := expr_of_kind? ha
  cases h with
  | bound _ _ _ hi hj => rw [hi, hj]
  | fixed hx hfree =>
    cases hx.symm.trans ha
    rw [idxOf?_eq_none_iff.2 (hfree hcontext).1, idxOf?_eq_none_iff.2 (hfree hcontext).2]
  | external hx =>
    rw [← Option.some.inj (hx.symm.trans ha)] at hcontext
    cases hcontext
  | literal ha => cases ha.symm.trans hv
  | map ha => cases ha.symm.trans hv
  | node hvar =>
    rw [hv] at hvar
    exact absurd rfl hvar

/-- The slots of expressions that correspond do. -/
theorem Renames.slots (h : g.Renames σ τ a b) (ha : (g.expr a).matchesByForm) :
    (∀ p ∈ (g.expr a).outerSlots.zip (g.expr b).outerSlots, g.Renames σ τ p.1 p.2) ∧
    ∀ p ∈ (g.expr a).innerSlots.zip (g.expr b).innerSlots,
      g.Renames ((g.expr a).context ++ σ) ((g.expr b).context ++ τ) p.1 p.2 := by
  have hnot {k : VarKind} (hk : g.kind? a = some k) : False := by
    obtain ⟨v, hv, -⟩ := expr_of_kind? hk
    rw [hv] at ha
    cases ha
  cases h with
  | bound hx => exact (hnot hx).elim
  | fixed hx => exact (hnot hx).elim
  | external hx => exact (hnot hx).elim
  | literal he =>
    rw [he] at ha
    cases ha
  | map he =>
    rw [he] at ha
    cases ha
  | node _ _ _ houter hinner => exact ⟨houter, hinner⟩

/-- Checks the references at most `n` levels deep. -/
def namesNearestWithin (g : Graph) : Nat → List NodeId → NodeId → Bool
  | 0, _, _ => false
  | n + 1, σ, a =>
    (match g.kind? a with
      | some k => !k.isContext || σ.find? (g.kind? · = some k) = some a
      | none => true) &&
    (g.expr a).outerSlots.all (g.namesNearestWithin n σ) &&
    (g.expr a).innerSlots.all (g.namesNearestWithin n ((g.expr a).context ++ σ))

theorem namesNearest_of_within {n : Nat} (h : g.namesNearestWithin n σ a) : g.NamesNearest σ a := by
  induction n generalizing σ a with
  | zero => cases h
  | succ n ih =>
    rw [namesNearestWithin, Bool.and_eq_true, Bool.and_eq_true, all_eq_true,
      all_eq_true] at h
    obtain ⟨⟨href, houter⟩, hinner⟩ := h
    by_cases hcontext : ∃ k, g.kind? a = some k ∧ k.isContext
    · obtain ⟨k, hk, hcontext⟩ := hcontext
      refine .context hk hcontext ?_
      simpa [hk, hcontext] using href
    · exact .node (fun k hk hk' => hcontext ⟨k, hk, hk'⟩) (fun c hc => ih (houter c hc))
        (fun c hc => ih (hinner c hc))

/-! ## The main statement -/

/-- If every reference to a context variable means the nearest variable of its kind, nodes that
match are equal up to a renaming of the context variables that the steps below them declare, and up
to the order of map entries. The variables in the outer scope stay what they are. -/
theorem alike_renames {g : Graph} {outer : List NodeId} {a b : NodeId}
    (hacyclic : g.AcyclicBelow a) (ha : g.NamesNearest outer a) (hb : g.NamesNearest outer b)
    (hshares : g.SharesDetails a b) (h : g.alike a b) : g.Renames outer outer a b :=
  renames_of_alike hacyclic rfl ha hb hshares h

/-- `rows[e: e.cells[c: c > 5] =any 7]` twice, with variables of their own; if `crossed`, the second
one has `e > 5` in place of `c > 5`. -/
def nestedFilters (crossed : Bool) : Graph :=
  let (rows, g) := ({} : Graph).addVar "rows" (.external 0 ⟨.any, .one⟩)
  let (_, g) := addNested false rows g
  (addNested crossed rows g).2
where
  addNested (crossed : Bool) (rows : NodeId) (g : Graph) : NodeId × Graph :=
    let (e, g) := g.addVar "$element" .element
    let (cells, g) := g.addField e "cells"
    let (c, g) := g.addVar "$element" .element
    let (five, g) := g.addLiteral (.integer 5)
    let (test, g) := g.addCall (.compare .gt false) [if crossed then e else c, five]
    let (large, g) := g.addDeclaring (.filter cells (some test) [c]) none
    let (seven, g) := g.addLiteral (.integer 7)
    let (found, g) := g.addCall (.compare .eq true) [large, seven]
    g.addDeclaring (.filter rows (some found) [e]) none

/-- The elements of the two inner filters correspond. -/
theorem alike_renames_nestedFilters :
    (nestedFilters false).AcyclicBelow 9 ∧ (nestedFilters false).NamesNearest [] 9 ∧
    (nestedFilters false).NamesNearest [] 18 ∧ (nestedFilters false).SharesDetails 9 18 ∧
    (nestedFilters false).alike 9 18 ∧ (nestedFilters false).Renames [] [] 9 18 := by
  have hacyclic := acyclicBelow_of_lt (g := nestedFilters false) (by decide +kernel) 9
  have hnearest : (nestedFilters false).NamesNearest [] 9 :=
    namesNearest_of_within (n := 8) (by decide +kernel)
  have hnearest' : (nestedFilters false).NamesNearest [] 18 :=
    namesNearest_of_within (n := 8) (by decide +kernel)
  have hholds : (nestedFilters false).HoldsSlots (List.range 19) := by
    unfold HoldsSlots
    decide +kernel
  have hdetails : ∀ u ∈ List.range 19, ∀ v ∈ List.range 19, (nestedFilters false).alike u v →
      (nestedFilters false).details u = (nestedFilters false).details v := by decide +kernel
  have hshares : (nestedFilters false).SharesDetails 9 18 := fun u v hu hv =>
    hdetails u (hholds.reach (by decide) hu) v (hholds.reach (by decide) hv)
  have halike : (nestedFilters false).alike 9 18 := by decide +kernel
  exact ⟨hacyclic, hnearest, hnearest', hshares, halike,
    alike_renames hacyclic hnearest hnearest' hshares halike⟩

/-- Matching does not see which of the two elements the inner filter of the second expression
compares. -/
theorem alike_crossedFilters :
    (∀ v, (nestedFilters true).AcyclicBelow v) ∧ (nestedFilters true).alike 9 18 ∧
    ¬ (nestedFilters true).Renames [] [] 9 18 := by
  refine ⟨acyclicBelow_of_lt (by decide +kernel), by decide +kernel, fun h => ?_⟩
  have hfound := (h.slots (by decide +kernel)).2 (8, 17) (by decide +kernel)
  have hlarge := (hfound.slots (by decide +kernel)).1 (6, 15) (by decide +kernel)
  have htest := (hlarge.slots (by decide +kernel)).2 (5, 14) (by decide +kernel)
  have hvars := (htest.slots (by decide +kernel)).1 (3, 10) (by decide +kernel)
  have hplace := hvars.idxOf?_eq (k := .element) (by decide +kernel) rfl
  revert hplace
  decide +kernel

end Graph

end ShardedQuery
