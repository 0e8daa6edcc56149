import ShardedQuery.Proofs.Access.Choice
import ShardedQuery.Proofs.Access.Entries
import ShardedQuery.Proofs.Layout.Script

/-!
# Comparisons of unnested items

What a rewritten block asks of the items of a variable that unnests a path of the row. Comparisons
of the variable leave the WHERE clause if they are implied, or if the scan absorbs the variable.
`passesTests_iff_droppedTests` compares the two clauses item by item. What was dropped follows from
what is left, apart from the comparisons that are lost (`Analysis.Loses`) and the equalities that
collapsed bounds stand for (`passesTests_iff_losses`). Some are lost: `letsThrough_unnested` has a
block for each way.
-/

namespace ShardedQuery

open List Analysis

variable {input scan u : NodeId} {g : Graph} {p : Predicate} {v : Variable} {path : AccessPath}
  {a : Analysis} {t : Table} {e : Expr} {q : QueryPath} {site : Site} {w : Weights}

/-! ## Paths of a variable -/

/-- The node a path step starts from. -/
def Expr.pathInput? : Expr → Option NodeId
  | .field input _ | .slice input _ _ _ | .filter input _ _ | .mapFilter _ input _ _ => some input
  | _ => none

theorem Expr.mem_children_of_pathInput? (h : e.pathInput? = some input) : input ∈ e.children := by
  cases e <;> cases h <;> simp [children]

namespace Graph

/-- The node is a path of a variable: it is the variable, or a step from a path of it. -/
inductive IsPathOf (g : Graph) (u : NodeId) : NodeId → Prop where
  | start : IsPathOf g u u
  | step {id input : NodeId} (h : (g.expr id).pathInput? = some input)
      (hinput : IsPathOf g u input) : IsPathOf g u id

/-- The condition compares a path of a variable with a constant, either way round. -/
def IsTestOf (g : Graph) (u c : NodeId) : Prop :=
  ∃ op any a b w, (g.expr c = .call (.compare op any) [a, b] ∨
    g.expr c = .call (.compare op any) [b, a]) ∧ g.IsPathOf u a ∧ g.expr b = .literal w

/-- An item meets a condition, where `items` gives what paths select from it. -/
abbrev passes (g : Graph) (items : NodeId → List Value) (c : NodeId) : Bool :=
  g.meets (fun id => (items id).map .ofValue) c

/-- An item of a variable meets every comparison of the variable with a constant in the WHERE
clause of a block, where `items` gives what the paths of the variable select from it. -/
def PassesTests (g : Graph) (block u : NodeId) (items : NodeId → List Value) : Prop :=
  ∀ c ∈ g.conjuncts block, g.IsTestOf u c → g.passes items c

/-- The block has `u` among its FROM variables, after the one of the first entry. -/
def HasFurther (g : Graph) (block u : NodeId) : Prop :=
  ∃ b, g.block? block = some b ∧ ∃ e ∈ b.entries.tail, e.var = u

/-- Every node that a node uses exists. -/
def IsClosed (g : Graph) : Prop := ∀ id < g.size, ∀ c ∈ g.children id, c < g.size

instance (g : Graph) : Decidable g.IsClosed :=
  inferInstanceAs (Decidable (∀ id < g.size, ∀ c ∈ g.children id, c < g.size))

section
variable {rowVar id : NodeId}

theorem navigation?_eq_none : g.navigation? id = none ↔ (g.expr id).pathInput? = none := by
  unfold navigation? Expr.pathInput?
  cases g.expr id with
  | filter => dsimp only; split <;> simp
  | mapFilter part => cases part <;> simp
  | _ => simp

theorem pathInput?_of_navigation? {s : QueryStep} (h : g.navigation? id = some (s, input)) :
    (g.expr id).pathInput? = some input := by
  unfold navigation? at h
  unfold Expr.pathInput?
  split at h <;> simp_all
  split at h <;> simp_all

theorem pathInput?_of_var? (h : g.var? id = some v) : (g.expr id).pathInput? = none := by
  rw [var?_eq_some.1 h]
  rfl

/-- Going up a chain of steps ends at a node that the start is a path of. -/
theorem isPathOf_climb : ∀ (n : Nat) (id : NodeId) (steps : List Navigation),
    g.IsPathOf (g.climb n id steps).1 id
  | 0, _, _ => .start
  | n + 1, id, steps => by
    unfold climb
    split
    · exact .start
    · next step input hnav =>
      exact .step (pathInput?_of_navigation? hnav) (isPathOf_climb n input _)

/-- Going up a path of a variable ends at the variable, or at a step on the way. -/
theorem climb_of_isPathOf (hu : (g.expr u).pathInput? = none) :
    ∀ (n : Nat) {id : NodeId} (steps : List Navigation), g.IsPathOf u id →
      (g.climb n id steps).1 = u ∨ (g.expr (g.climb n id steps).1).pathInput? ≠ none
  | 0, id, steps, h => by
    cases h with
    | start => exact .inl rfl
    | step hid _ => exact .inr (by simp [climb, hid])
  | n + 1, id, steps, h => by
    unfold climb
    split
    · next hnav =>
      rw [navigation?_eq_none] at hnav
      cases h with
      | start => exact .inl rfl
      | step hid _ => cases hid.symm.trans hnav
    · next step input hnav =>
      have hinput := pathInput?_of_navigation? hnav
      cases h with
      | start => cases hu.symm.trans hinput
      | step hid hpath =>
        cases hid.symm.trans hinput
        exact climb_of_isPathOf hu n _ hpath

/-- A path from the row to a path of a variable goes through this variable. -/
theorem unnested_of_isPathOf (hvar : g.var? u = some v) (hne : u ≠ rowVar) (hpath : g.IsPathOf u id)
    (hq : g.queryPath? rowVar id = some q) : q.unnested = some u := by
  have hbase := climb_of_isPathOf (pathInput?_of_var? hvar) (g.size + 1) [] hpath
  unfold queryPath? at hq
  simp only [Option.bind_eq_bind, Option.bind_eq_some_iff] at hq
  obtain ⟨row, hrow, hq⟩ := hq
  split at hq
  · next hrowVar =>
    rw [hrowVar] at hbase
    rcases hbase with rfl | hstep
    · exact absurd rfl hne
    · exact absurd (pathInput?_of_var? hrow) hstep
  · obtain ⟨v', hv', hq⟩ := Option.bind_eq_some_iff.1 hq
    have hu : (g.climb (g.size + 1) id []).1 = u :=
      hbase.resolve_right fun hstep => hstep (pathInput?_of_var? hv')
    split at hq
    · obtain ⟨domain, -, hq⟩ := Option.bind_eq_some_iff.1 hq
      split at hq
      · cases hq
        rw [← hu]
      · cases hq
    · cases hq

/-- A path from the row through a variable is a path of the variable. -/
theorem isPathOf_of_unnested (hq : g.queryPath? rowVar id = some q) (hu : q.unnested = some u) :
    g.IsPathOf u id := by
  unfold queryPath? at hq
  simp only [Option.bind_eq_bind, Option.bind_eq_some_iff] at hq
  obtain ⟨row, -, hq⟩ := hq
  split at hq
  · cases hq
    cases hu
  · obtain ⟨v', -, hq⟩ := Option.bind_eq_some_iff.1 hq
    split at hq
    · obtain ⟨domain, -, hq⟩ := Option.bind_eq_some_iff.1 hq
      split at hq
      · cases hq
        cases hu
        exact isPathOf_climb _ _ _
      · cases hq
    · cases hq

end

/-! ### In a rewritten graph -/

section
variable {h : Graph} {id c : NodeId} (hk : g.Keeps Expr.IsSteady h) (hclosed : g.IsClosed)
include hk

theorem Keeps.expr_eq_or (hid : id < g.size) :
    h.expr id = g.expr id ∨ (¬ (g.expr id).IsSteady ∧ ¬ (h.expr id).IsSteady) := by
  by_cases hsteady : (g.expr id).IsSteady
  · exact .inl (hk.expr_eq id hid hsteady)
  · exact .inr ⟨hsteady, fun h => hsteady (hk.of_expr id hid h)⟩

theorem Keeps.expr_eq_iff (he : e.IsSteady) (hid : id < g.size) :
    h.expr id = e ↔ g.expr id = e := by
  rcases hk.expr_eq_or hid with heq | ⟨hg, hh⟩
  · rw [heq]
  · exact ⟨fun h => absurd (h ▸ he) hh, fun h => absurd (h ▸ he) hg⟩

/-- Paths lead where they led. -/
theorem Keeps.pathInput?_eq (hid : id < g.size) :
    (h.expr id).pathInput? = (g.expr id).pathInput? := by
  have hnone : ∀ e : Expr, ¬ e.IsSteady → e.pathInput? = none := by
    intro e he
    cases e with
    | block | scan | call => rfl
    | _ => exact absurd ⟨rfl, rfl, rfl⟩ he
  rcases hk.expr_eq_or hid with heq | ⟨hg, hh⟩
  · rw [heq]
  · rw [hnone _ hg, hnone _ hh]

include hclosed

/-- The paths of a variable are the same in the rewritten graph. -/
theorem Keeps.isPathOf_iff (hid : id < g.size) : h.IsPathOf u id ↔ g.IsPathOf u id := by
  constructor
  · intro hpath
    induction hpath with
    | start => exact .start
    | step hinput _ ih =>
      rw [hk.pathInput?_eq hid] at hinput
      exact .step hinput (ih (hclosed _ hid _ (Expr.mem_children_of_pathInput? hinput)))
  · intro hpath
    induction hpath with
    | start => exact .start
    | step hinput _ ih =>
      refine .step ((hk.pathInput?_eq hid).trans hinput) (ih ?_)
      exact hclosed _ hid _ (Expr.mem_children_of_pathInput? hinput)

/-- The comparisons of a variable with constants are the same in the rewritten graph. -/
theorem Keeps.isTestOf_iff (hc : c < g.size) : h.IsTestOf u c ↔ g.IsTestOf u c := by
  have hargs : ∀ {op any a b}, g.expr c = .call (.compare op any) [a, b] →
      a < g.size ∧ b < g.size := by
    intro op any a b he
    exact ⟨hclosed c hc a (by simp [children, he, Expr.children]),
      hclosed c hc b (by simp [children, he, Expr.children])⟩
  unfold IsTestOf
  simp only [hk.expr_eq_iff (e := .call (.compare _ _) _) ⟨rfl, rfl, rfl⟩ hc]
  refine exists_congr fun op => exists_congr fun any => exists_congr fun a => exists_congr fun b =>
    exists_congr fun w => and_congr_right fun he => ?_
  have hlt : a < g.size ∧ b < g.size := by
    rcases he with he | he
    · exact hargs he
    · exact (hargs he).symm
  rw [hk.isPathOf_iff hclosed hlt.1,
    hk.expr_eq_iff (e := .literal _) ⟨rfl, rfl, rfl⟩ hlt.2]

/-- A comparison of a variable with a constant asks in the rewritten graph what it asked. -/
theorem Keeps.meets_test (hvar : g.var? u = some v) (htest : g.IsTestOf u c)
    (items : NodeId → List Standing) : h.meets items c = g.meets items c := by
  obtain ⟨op, any, a, b, w, he, hpath, hlit⟩ := htest
  have hsteady : (g.expr c).IsSteady := by
    rcases he with he | he <;> rw [he] <;> exact ⟨rfl, rfl, rfl⟩
  have hlt : c < g.size := by
    rcases he with he | he <;> exact lt_size_of_expr (by simp [he])
  have hpsteady : (g.expr a).IsSteady := by
    cases hpath with
    | start => rw [var?_eq_some.1 hvar]; exact ⟨rfl, rfl, rfl⟩
    | step hinput _ =>
      cases hexpr : g.expr a with
      | block | scan | call => rw [hexpr] at hinput; cases hinput
      | _ => exact ⟨rfl, rfl, rfl⟩
  have hlsteady : (g.expr b).IsSteady := by
    rw [hlit]
    exact ⟨rfl, rfl, rfl⟩
  refine meets_congr (hk.expr_eq c hlt hsteady) fun x hx =>
    ⟨hk.expr_eq x (hclosed c hlt x hx) ?_, rfl⟩
  rcases he with he | he <;> simp only [children, he, Expr.children, mem_cons,
    not_mem_nil, or_false] at hx <;> rcases hx with rfl | rfl <;> assumption

end

end Graph

/-! ## Predicates on a variable -/

section
variable {rowVar c : NodeId} (hvar : g.var? u = some v) (hne : u ≠ rowVar)
include hvar hne

/-- Index entries do not hold what the paths of another variable select. -/
theorem evaluableWithin_of_isPathOf (hkind : v.kind = .row) :
    ∀ (n : Nat) {id : NodeId}, g.IsPathOf u id →
      evaluableWithin g t path rowVar n id = false
  | 0, _, _ => rfl
  | n + 1, id, hpath => by
    unfold evaluableWithin
    cases hq : g.queryPath? rowVar id with
    | some q => simp [Graph.unnested_of_isPathOf hvar hne hpath hq]
    | none =>
      cases hpath with
      | start => simp [Graph.var?_eq_some.1 hvar, hkind]
      | @step _ input hinput hpath =>
        have hrest := evaluableWithin_of_isPathOf hkind n hpath
        have hall : (g.expr id).children.all
            (evaluableWithin g t path rowVar n) = false := by
          rw [all_eq_false]
          exact ⟨input, Expr.mem_children_of_pathInput? hinput, by simp [hrest]⟩
        cases hexpr : g.expr id <;> rw [hexpr] at hinput hall <;>
          first | exact hall | cases hinput

/-- A comparison of another variable cannot be evaluated on index entries. -/
theorem not_isEvaluable_of_isTestOf (hkind : v.kind = .row) (htest : g.IsTestOf u c) :
    ¬ isEvaluable g t path rowVar c := by
  intro heval
  obtain ⟨op, any, a, b, w, he, hpath, -⟩ := htest
  have harg : evaluableWithin g t path rowVar g.size a := by
    rcases he with he | he
    · exact evaluableWithin_of_isEvaluable he heval a (by simp)
    · exact evaluableWithin_of_isEvaluable he heval a (by simp)
  rw [evaluableWithin_of_isPathOf hvar hne hkind _ hpath] at harg
  cases harg

/-- The predicates read from the comparisons of a variable with constants. -/
theorem Predicate.IsReadAt.isTestOf_iff {left : NodeId} (h : p.IsReadAt g path rowVar left) :
    g.IsTestOf u p.conjunct ↔ p.unnested = some u ∧ p.value.isSome := by
  obtain ⟨q, m, others, hq, hunnested, -⟩ := h.query
  constructor
  · rintro ⟨op, any, a, b, w, he, hpath, hlit⟩
    obtain ⟨-, rfl, rfl⟩ := h.sides he hlit
    rw [← hunnested, h.value, Graph.constant?_eq_some.2 hlit]
    exact ⟨Graph.unnested_of_isPathOf hvar hne hpath hq, rfl⟩
  · rintro ⟨hu, hvalue⟩
    obtain ⟨w, hw⟩ := Option.isSome_iff_exists.1 hvalue
    rw [h.value] at hw
    obtain ⟨op, hc⟩ := h.conjunct
    refine ⟨op, p.any, left, p.operand, w, ?_, Graph.isPathOf_of_unnested hq (hunnested.trans hu),
      Graph.constant?_eq_some.1 hw⟩
    exact hc.imp And.left And.left

end

/-! ## What is dropped -/

/-- The block scans a table, and `u` is a further FROM variable. The graph has no loose ends and
the WHERE clause is flat. -/
structure Site.Unnests (site : Site) (g : Graph) (scan u : NodeId) : Prop
    extends site.Scans g scan where
  closed : g.IsClosed
  flat : site.IsFlat g
  isRow : ∃ v, g.var? u = some v ∧ v.kind = .row
  ne_rowVar : u ≠ site.rowVar

/-- The comparisons of a variable with constants that leave the WHERE clause. -/
def Analysis.droppedTests (a : Analysis) (u : NodeId) : List Predicate :=
  a.predicates.filter fun p => p.unnested = some u && p.value.isSome && a.takes p

theorem Analysis.mem_droppedTests :
    p ∈ a.droppedTests u ↔
      p ∈ a.predicates ∧ p.unnested = some u ∧ p.value.isSome ∧ a.takes p := by
  simp [droppedTests, and_assoc]

section
variable (hblock : site.Unnests g scan u)
include hblock

/-- The rewritten block asks of an item what is left of the comparisons of the block. -/
theorem passesTests_apply_iff (a : Analysis) (t : Table) (items : NodeId → List Value) :
    (a.apply g t site scan).PassesTests site.block u items ↔
      ∀ c ∈ a.remaining g site, g.IsTestOf u c →
        g.passes items c := by
  obtain ⟨v, hvar, -⟩ := hblock.isRow
  have happ := a.applied t hblock.toScans
  unfold Graph.PassesTests
  rw [happ.conjuncts_eq hblock.flat]
  refine forall₂_congr ?_
  intro c hc
  have hlt := (hblock.flat c (mem_remaining.1 hc).1).1
  rw [happ.keeps.isTestOf_iff hblock.closed hlt]
  refine forall_congr' ?_
  intro htest
  rw [Graph.passes, happ.keeps.meets_test hblock.closed hvar htest]

variable (hfound : a.IsFound g t w site path)
include hfound

/-- The predicates of an analysis that come from comparisons of a variable with constants. -/
theorem isTestOf_conjunct_iff (hp : p ∈ a.predicates) :
    g.IsTestOf u p.conjunct ↔ p.unnested = some u ∧ p.value.isSome := by
  obtain ⟨v, hvar, -⟩ := hblock.isRow
  obtain ⟨p₀, left, hpp, -, hread⟩ := hfound.exists_isReadAt hp
  rw [hpp.conjunct_eq, hpp.unnested_eq, hpp.value_eq, hread.isTestOf_iff hvar hblock.ne_rowVar]

/-- An item meets the comparisons of the block exactly if it meets those of the rewritten block and
those that were dropped. -/
theorem passesTests_iff_droppedTests (items : NodeId → List Value) :
    g.PassesTests site.block u items ↔
      (a.apply g t site scan).PassesTests site.block u items ∧
        ∀ p ∈ a.droppedTests u, g.passes items p.conjunct := by
  obtain ⟨v, hvar, hkind⟩ := hblock.isRow
  rw [passesTests_apply_iff hblock]
  constructor
  · refine fun hpass => ⟨fun c hc => hpass c (mem_remaining.1 hc).1, fun p hp => ?_⟩
    obtain ⟨hp, hu, hvalue, -⟩ := mem_droppedTests.1 hp
    exact hpass _ (hfound.conjunct_mem hp) ((isTestOf_conjunct_iff hblock hfound hp).2 ⟨hu, hvalue⟩)
  · rintro ⟨hremaining, hdropped⟩ c hc htest
    by_cases hconsumed : c ∈ a.consumed
    · rcases mem_consumed.1 hconsumed with ⟨p, hp, htakes, rfl⟩ | hidx
      · obtain ⟨hu, hvalue⟩ := (isTestOf_conjunct_iff hblock hfound hp).1 htest
        exact hdropped p (mem_droppedTests.2 ⟨hp, hu, hvalue, htakes⟩)
      · exact absurd (hfound.mem_indexFilters.1 hidx).2.2.2
          (not_isEvaluable_of_isTestOf hvar hblock.ne_rowVar hkind htest)
    · exact hremaining c (mem_remaining.2 ⟨hc, hconsumed⟩) htest

end

/-! ## What is lost -/

/-- The predicates on a subject are settled by themselves: no key of a map implies one of them, and no
predicate on other items competes with one. -/
def Subject.IsAlone (ps : List Predicate) (s : Subject) : Prop :=
  (∀ p ∈ ps, p.subject = s → p.status ≠ .implied) ∧
    ∀ p ∈ ps, ∀ q ∈ ps, competes p q → p.subject = s ∨ q.subject = s → p.subject = q.subject

instance (ps : List Predicate) (s : Subject) : Decidable (s.IsAlone ps) :=
  inferInstanceAs (Decidable (_ ∧ _))

namespace Analysis

/-- The predicates that come from comparisons of a variable with constants. -/
def testsOf (a : Analysis) (u : NodeId) : List Predicate :=
  a.predicates.filter fun p => p.unnested = some u && p.value.isSome

theorem mem_testsOf :
    p ∈ a.testsOf u ↔ p ∈ a.predicates ∧ p.unnested = some u ∧ p.value.isSome := by
  simp [testsOf]

/-- Why a comparison of a variable that stays may be missed in the rewritten block. -/
inductive Loses (a : Analysis) (ps : List Predicate) (p : Predicate) : Prop
  /-- The scan absorbs the variable, and takes the comparison over. -/
  | absorbed (htakes : a.takes p) (hopen : p.status ≠ .implied)
  /-- The comparison is implied, and predicates on other items had a part in that. -/
  | rivalled (himplied : p.status = .implied) (hrival : ¬ p.subject.IsAlone ps)
  /-- The comparison stands twice in the WHERE clause, and is implied the second time. -/
  | repeated (q : Predicate) (hq : q ∈ a.predicates) (hsame : q.conjunct = p.conjunct)
      (himplied : q.status = .implied) (hopen : p.status ≠ .implied)

instance (a : Analysis) (ps : List Predicate) (p : Predicate) : Decidable (a.Loses ps p) :=
  decidable_of_iff
    ((a.takes p ∧ p.status ≠ .implied) ∨ (p.status = .implied ∧ ¬ p.subject.IsAlone ps) ∨
      (∃ q ∈ a.predicates, q.conjunct = p.conjunct ∧ q.status = .implied ∧ p.status ≠ .implied))
    ⟨fun h => by
      obtain ⟨htakes, hopen⟩ | ⟨himplied, hrival⟩ | ⟨q, hq, hsame, himplied, hopen⟩ := h
      · exact .absorbed htakes hopen
      · exact .rivalled himplied hrival
      · exact .repeated q hq hsame himplied hopen,
    fun h => by
      cases h with
      | absorbed htakes hopen => exact .inl ⟨htakes, hopen⟩
      | rivalled himplied hrival => exact .inr (.inl ⟨himplied, hrival⟩)
      | repeated q hq hsame himplied hopen => exact .inr (.inr ⟨q, hq, hsame, himplied, hopen⟩)⟩

/-- The comparison was settled as an equality by itself, but is written otherwise. -/
def Collapses (g : Graph) (ps : List Predicate) (p : Predicate) : Prop :=
  p.status ≠ .implied ∧ p.isCollapsed g ∧ p.subject.IsAlone ps

instance (g : Graph) (ps : List Predicate) (p : Predicate) : Decidable (Collapses g ps p) :=
  inferInstanceAs (Decidable (_ ∧ _))

end Analysis

/-- What the paths of a variable select from one of its items, and what the index fields hold of
it. A path that meets a field without restriction selects what the field holds. -/
structure Selects (g : Graph) (path : AccessPath) (rowVar u : NodeId) (items : NodeId → List Value)
    (content : Nat → Option String → List Value) : Prop where
  agrees : ∀ id q pos m, g.queryPath? rowVar id = some q → q.unnested = some u →
    (pos, m) ∈ path.meetings q → m.widened = false → items id = content pos m.mapKey
  scalar : ∀ pos key, path.fansOutAt pos = false → (content pos key).length ≤ 1
  /-- No double is compared, which could be rounded. -/
  exact : ∀ pos key, ∀ x ∈ content pos key, ∀ d, x ≠ .double d

/-- The expression is a double constant. -/
def Expr.isDouble : Expr → Bool
  | .literal (.double _) => true
  | _ => false

/-- The variable is compared with no double, which could be rounded. -/
def Graph.TestsExactly (g : Graph) (block u : NodeId) : Prop :=
  ∀ c ∈ g.conjuncts block, g.IsTestOf u c → ∀ b ∈ g.children c, (g.expr b).isDouble = false

/-- The subject is what unrestricted paths of the variable select, and its predicates are settled by
themselves. -/
def Subject.IsOwn (u : NodeId) (ps : List Predicate) (s : Subject) : Prop :=
  s.unnested = some u ∧ s.widened = false ∧ s.IsAlone ps

/-- The standing of what the index fields hold. -/
def fieldItems (content : Nat → Option String → List Value) (s : Subject) : List Standing :=
  (content s.position s.mapKey).map .ofValue

section
variable {ps : List Predicate} {items : NodeId → List Value}
  {content : Nat → Option String → List Value}

/-- The constants that a variable is compared with are exact. -/
theorem Graph.TestsExactly.isExact (hexact : g.TestsExactly site.block u)
    (hblock : site.Unnests g scan u) (hps : readPredicates g path site = .ok ps) :
    ∀ p ∈ ps, p.unnested = some u → p.IsExact := by
  obtain ⟨v, hvar, -⟩ := hblock.isRow
  intro p hp hu w hw
  obtain ⟨hc, left, hread⟩ := isReadAt_of_mem hps hp
  obtain ⟨hatomic, hnull⟩ := hread.atomic w hw
  have htest := (hread.isTestOf_iff hvar hblock.ne_rowVar).2 ⟨hu, Option.isSome_of_eq_some hw⟩
  have hlit := Graph.constant?_eq_some.1 (hread.value ▸ hw)
  have hchild : p.operand ∈ g.children p.conjunct := by
    obtain ⟨op, ⟨he, -⟩ | ⟨he, -⟩⟩ := hread.conjunct <;> simp [Graph.children, he, Expr.children]
  refine Value.isExact_of_isAtomic hatomic hnull ?_
  rintro x rfl
  have hdouble := hexact _ hc htest _ hchild
  rw [hlit] at hdouble
  cases hdouble

section
variable (hsel : Selects g path site.rowVar u items content)
  (hps : readPredicates g path site = .ok ps)
include hsel

/-- A predicate on unrestricted paths of a variable is met by what the index field holds exactly if
its conjunct is met. -/
theorem Selects.isMet_iff (hps : readPredicates g path site = .ok ps) (hp : p ∈ ps)
    (hu : p.unnested = some u) (hw : p.widened = false) (hvalue : p.value.isSome) :
    p.IsMet (fieldItems content p.subject) ↔
      g.passes items p.conjunct := by
  obtain ⟨-, left, hread⟩ := isReadAt_of_mem hps hp
  obtain ⟨q, m, others, hq, hunnested, hmeet, hkey, hwidened, -⟩ := hread.query
  obtain ⟨x, hx⟩ := Option.isSome_iff_exists.1 hvalue
  have hitems := hsel.agrees left q p.position m hq (hunnested.trans hu)
    (hmeet ▸ (.head _)) (hwidened.trans hw)
  rw [← hread.isMet_iff hx, hitems, hkey]
  rfl

/-- Predicates that are settled by themselves are settled by what the index fields hold. -/
theorem Selects.aligned (w : Weights) (hexact : ∀ p ∈ ps, p.unnested = some u → p.IsExact) :
    Aligned path.fansOutAt (Subject.IsOwn u (contenders w path ps)) (fieldItems content)
      (contenders w path ps) where
  coherent s _ r hr := by
    obtain ⟨x, hx, rfl⟩ := mem_map.1 hr
    exact Standing.isCoherent_ofValue (hsel.exact _ _ x hx)
  scalar s _ hf := by
    rw [fieldItems, length_map]
    exact hsel.scalar _ _ hf
  exact k hk hown := by
    obtain ⟨p, hp, heq⟩ := exists_of_mem_contenders hk
    rw [heq] at hown ⊢
    exact hexact p hp hown.1
  rivals p hp q hq hcomp hown := by
    refine rivals_of_subject_eq (fieldItems content) ?_ hown
    rcases hown with hown | hown
    · exact hown.2.2.2 p hp q hq hcomp (.inl rfl)
    · exact hown.2.2.2 p hp q hq hcomp (.inr rfl)

end

section
variable (hblock : site.Unnests g scan u) (hfound : a.IsFound g t w site path)
  (hexact : g.TestsExactly site.block u) (hps : readPredicates g path site = .ok ps)
  (hsel : Selects g path site.rowVar u items content)
include hblock hfound

/-- An item that meets the comparisons of the block meets each of them. -/
theorem meets_testsOf (hpass : g.PassesTests site.block u items) (hp : p ∈ a.testsOf u) :
    g.passes items p.conjunct := by
  obtain ⟨hp, htest⟩ := mem_testsOf.1 hp
  exact hpass _ (hfound.conjunct_mem hp) ((isTestOf_conjunct_iff hblock hfound hp).2 htest)

include hexact hps hsel

/-- An item that meets the comparisons of the block meets each predicate that is settled by itself,
with the operator it was settled with. -/
theorem isMet_of_passesTests (hpass : g.PassesTests site.block u items) :
    ∀ p ∈ a.predicates, p.subject.IsOwn u (contenders w path ps) →
      p.IsMet (fieldItems content p.subject) := by
  obtain ⟨v, hvar, -⟩ := hblock.isRow
  obtain ⟨ps', rs, hps', hrun, -, hqs⟩ := hfound.exists_settled
  cases hps.symm.trans hps'
  have hread : AllMet (Subject.IsOwn u (contenders w path ps)) (fieldItems content)
      (contenders w path ps) := by
    intro k hk hown x hx
    obtain ⟨p, hp, heq⟩ := exists_of_mem_contenders hk
    rw [heq] at hown hx ⊢
    have hvalue : p.value.isSome := Option.isSome_of_eq_some hx
    obtain ⟨hc, left, hread⟩ := isReadAt_of_mem hps hp
    have htest := (hread.isTestOf_iff hvar hblock.ne_rowVar).2 ⟨hown.1, hvalue⟩
    exact (hsel.isMet_iff hps hp hown.1 hown.2.1 hvalue).2 (hpass _ hc htest) x hx
  have hall := allMet_of_run hrun (hsel.aligned w (hexact.isExact hblock hps)) hread
  rw [hqs]
  intro p hp hown
  obtain ⟨r, hr, rfl⟩ := mem_map.1 hp
  have hrelease := r.restates_release path (chooseMapKey w path ps).1 a.bounds
  rw [hrelease.subject_eq] at hown ⊢
  exact (r.isMet_release _ _ _ _).2 (hall r hr hown)

section
variable (hpass : (a.apply g t site scan).PassesTests site.block u items)
  (hlost : ∀ p ∈ a.testsOf u, (a.Loses (contenders w path ps) p →
      g.passes items p.conjunct) ∧
    (Collapses g (contenders w path ps) p →
      p.IsMet (fieldItems content p.subject)))
include hpass hlost

omit hexact hps hsel in
/-- A comparison that is not implied is met: it is left in the WHERE clause, or lost. -/
theorem meets_of_open (hp : p ∈ a.testsOf u) (hopen : p.status ≠ .implied) :
    g.passes items p.conjunct := by
  obtain ⟨v, hvar, hkind⟩ := hblock.isRow
  obtain ⟨hmem, hunnested, hvalue⟩ := mem_testsOf.1 hp
  have htest := (isTestOf_conjunct_iff hblock hfound hmem).2 ⟨hunnested, hvalue⟩
  by_cases hconsumed : p.conjunct ∈ a.consumed
  · rcases mem_consumed.1 hconsumed with ⟨q, hq, htakes, hsame⟩ | hidx
    · by_cases himplied : q.status = .implied
      · exact (hlost p hp).1 (.repeated q hq hsame himplied hopen)
      · rw [← hsame] at htest ⊢
        have hq' := mem_testsOf.2 ⟨hq, (isTestOf_conjunct_iff hblock hfound hq).1 htest⟩
        exact (hlost q hq').1 (.absorbed htakes himplied)
    · exact absurd (hfound.mem_indexFilters.1 hidx).2.2.2
        (not_isEvaluable_of_isTestOf hvar hblock.ne_rowVar hkind htest)
  · rw [passesTests_apply_iff hblock] at hpass
    exact hpass _ (mem_remaining.2 ⟨hfound.conjunct_mem hmem, hconsumed⟩) htest

omit hexact in
/-- An item that meets what is left of the comparisons and what is lost meets each predicate that is
settled by itself and not implied, with the operator it was settled with. -/
theorem isMet_of_open (hp : p ∈ a.predicates) (hopen : p.status ≠ .implied)
    (hown : p.subject.IsOwn u (contenders w path ps)) :
    p.IsMet (fieldItems content p.subject) := by
  intro x hx
  have hvalue : p.value.isSome := Option.isSome_of_eq_some hx
  have htest := mem_testsOf.2 ⟨hp, hown.1, hvalue⟩
  have hmeets := meets_of_open hblock hfound hpass hlost htest hopen
  obtain ⟨ps', hps', hr⟩ := hfound.restates
  cases hps.symm.trans hps'
  obtain ⟨p₀, hp₀, hpp⟩ := exists_of_forall₂ hr hp
  obtain ⟨-, left, hread⟩ := isReadAt_of_mem hps hp₀
  cases hc : p.isCollapsed g with
  | true => exact (hlost p htest).2 ⟨hopen, hc, hown.2.2⟩ x hx
  | false =>
    rw [hpp.subject_eq] at hown ⊢
    rw [hpp.value_eq] at hvalue
    rw [hpp.conjunct_eq] at hmeets
    have hmet := (hsel.isMet_iff hps hp₀ hown.1 hown.2.1 hvalue).2 hmeets
    rw [hpp.eq, hread.op_eq_of_not_isCollapsed hpp hc]
    exact hmet x (hpp.value_eq ▸ hx)

/-- An item that meets what is left of the comparisons and what is lost meets the comparisons that
were dropped. -/
theorem meets_droppedTests :
    ∀ p ∈ a.droppedTests u, g.passes items p.conjunct := by
  obtain ⟨ps', rs, hps', hrun, -, hqs⟩ := hfound.exists_settled
  cases hps.symm.trans hps'
  have hopen : OpenMet (Subject.IsOwn u (contenders w path ps)) (fieldItems content) rs := by
    intro r hr hne hown
    have hrelease := r.restates_release path (chooseMapKey w path ps).1 a.bounds
    rw [← hrelease.subject_eq] at hown ⊢
    refine (r.isMet_release path (chooseMapKey w path ps).1 a.bounds _).1 ?_
    refine isMet_of_open hblock hfound hps hsel hpass hlost (hqs ▸ mem_map_of_mem hr) ?_ hown
    rcases r.release_eq_or path (chooseMapKey w path ps).1 a.bounds with h | h <;> rw [h]
    · exact hne
    · simp
  have hread := openMet_of_run hrun (hsel.aligned w (hexact.isExact hblock hps)) hopen
  intro p hp
  obtain ⟨hp, hu, hvalue, htakes⟩ := mem_droppedTests.1 hp
  have hlostp := (hlost p (mem_testsOf.2 ⟨hp, hu, hvalue⟩)).1
  by_cases himplied : p.status = .implied
  · by_cases halone : p.subject.IsAlone (contenders w path ps)
    · rw [hqs] at hp
      obtain ⟨r, hr, rfl⟩ := mem_map.1 hp
      obtain ⟨k, hk, hkr⟩ := exists_of_forall₂ (restates_of_run hrun) hr
      have hkp := hkr.trans (r.restates_release path (chooseMapKey w path ps).1 a.bounds)
      rw [hkp.unnested_eq] at hu
      rw [hkp.value_eq] at hvalue
      rw [hkp.subject_eq] at halone
      rw [hkp.conjunct_eq]
      have hkopen := halone.1 k hk rfl
      have hown : k.subject.IsOwn u (contenders w path ps) :=
        ⟨hu, (hkp.implied himplied).resolve_left hkopen, halone⟩
      have hmet := hread k hk hkopen hown
      obtain ⟨p₀, hp₀, heq⟩ := exists_of_mem_contenders hk
      rw [heq] at hown hvalue hmet ⊢
      exact (hsel.isMet_iff hps hp₀ hown.1 hown.2.1 hvalue).1 hmet
    · exact hlostp (.rivalled himplied halone)
  · exact hlostp (.absorbed htakes himplied)

end

/-- An item meets the comparisons of the block exactly if it meets those of the rewritten block, those
that are lost and the equalities that collapsed ones stand for. -/
theorem passesTests_iff_losses :
    g.PassesTests site.block u items ↔
      (a.apply g t site scan).PassesTests site.block u items ∧
        ∀ p ∈ a.testsOf u, (a.Loses (contenders w path ps) p →
            g.passes items p.conjunct) ∧
          (Collapses g (contenders w path ps) p →
            p.IsMet (fieldItems content p.subject)) := by
  rw [passesTests_iff_droppedTests hblock hfound]
  constructor
  · rintro ⟨hpass, hdropped⟩
    have hall := (passesTests_iff_droppedTests hblock hfound items).2 ⟨hpass, hdropped⟩
    refine ⟨hpass, fun p hp => ⟨fun _ => meets_testsOf hblock hfound hall hp, fun hcollapses => ?_⟩⟩
    obtain ⟨hp, hu, -⟩ := mem_testsOf.1 hp
    obtain ⟨-, hcollapsed, halone⟩ := hcollapses
    obtain ⟨p₀, left, hpp, -, hread⟩ := hfound.exists_isReadAt hp
    exact isMet_of_passesTests hblock hfound hexact hps hsel hall p hp
      ⟨hu, hread.widened_eq_false hpp hcollapsed, halone⟩
  · rintro ⟨hpass, hlost⟩
    exact ⟨hpass, meets_droppedTests hblock hfound hexact hps hsel hpass hlost⟩

end

end

/-! ## The main statement -/

/-- A block over a table `t` with an array `arr`, whose elements are node 3. -/
def arrayGraph (t : Table) (commands : List Layout.Command) : Graph :=
  (Layout.script ⟨[t]⟩ (.draft :: .scanTable "t" "t" [] :: .value (.field 1 "arr") ::
    .pathStep (.filter 2 none []) :: commands)).graph

/-- `u > 5 AND u >= 5`, where `u` is selected: the second comparison is implied. -/
def impliedSample : ScanBlock :=
  ⟨arrayGraph arrayTable
    [.rangeOver 3 "u", .value (.literal (.integer 5)), .value (.call (.compare .gt false) [4, 5]),
      .value (.call (.compare .ge false) [4, 5]), .restrict 6, .restrict 7, .select "u" 4, .build],
    ⟨9, 1⟩, 0⟩

/-- The block still has a variable in its FROM clause once it is rewritten, and asks less of the
items of that variable than before: it lets `x` through. -/
def ScanBlock.LetsThrough (s : ScanBlock) (t : Table) (path : AccessPath) (u : NodeId) (x : Value) :
    Prop :=
  ∃ a, run s.graph t {} s.site path = .ok (some a) ∧
    (a.apply s.graph t s.site s.scan).HasFurther s.site.block u ∧
    (a.apply s.graph t s.site s.scan).PassesTests s.site.block u (fun _ => [x]) ∧
    ¬ s.graph.PassesTests s.site.block u (fun _ => [x])

theorem ScanBlock.letsThrough {s : ScanBlock} {c : NodeId} {x : Value}
    (hfound : foundWith (run s.graph t {} s.site path) fun a =>
      let h := a.apply s.graph t s.site s.scan
      (h.block? s.site.block).any (·.entries.tail.any (·.var == u)) &&
        (h.conjuncts s.site.block).all (h.meets fun _ => [.ofValue x]))
    (hc : c ∈ s.graph.conjuncts s.site.block) (htest : s.graph.IsTestOf u c)
    (hmiss : s.graph.meets (fun _ => [.ofValue x]) c = false) : s.LetsThrough t path u x := by
  obtain ⟨a, hrun, hpass⟩ := exists_of_foundWith _ _ hfound
  rw [Bool.and_eq_true, Option.any_eq_true, all_eq_true] at hpass
  obtain ⟨⟨b, hb, hu⟩, hall⟩ := hpass
  obtain ⟨e, he, hvar⟩ := any_eq_true.1 hu
  exact ⟨a, hrun, ⟨b, hb, e, he, eq_of_beq hvar⟩, fun c hc _ => hall c hc, fun hpass =>
    Bool.false_ne_true (hmiss.symm.trans (hpass c hc htest))⟩

/-- `u >= 5 AND u <= 5`: the first comparison is collapsed, and implies the second. -/
def collapsedSample : ScanBlock :=
  ⟨arrayGraph arrayTable
    [.rangeOver 3 "u", .value (.literal (.integer 5)), .value (.call (.compare .ge false) [4, 5]),
      .value (.call (.compare .le false) [4, 5]), .restrict 6, .restrict 7, .select "u" 4, .build],
    ⟨9, 1⟩, 0⟩

/-- `u = 5 AND v = 5`, where both range over `arr` and `v` is selected: the comparison of `u` implies
that of `v`. -/
def rivalledSample : ScanBlock :=
  ⟨arrayGraph arrayTable
    [.rangeOver 3 "u", .value (.field 1 "arr"), .pathStep (.filter 5 none []), .rangeOver 6 "v",
      .value (.literal (.integer 5)), .value (.call (.compare .eq false) [4, 8]),
      .value (.call (.compare .eq false) [7, 8]), .restrict 9, .restrict 10, .select "v" 7, .build],
    ⟨12, 1⟩, 0⟩

/-- `c AND c`, where one node `c` compares `u > 5`, and `u` is selected: the comparison implies
itself. -/
def repeatedSample : ScanBlock :=
  ⟨arrayGraph arrayTable
    [.rangeOver 3 "u", .value (.literal (.integer 5)), .value (.call (.compare .gt false) [4, 5]),
      .restrict 6, .restrict 6, .select "u" 4, .build],
    ⟨8, 1⟩, 0⟩

/-- An index on the fields `x` of the elements of the array `arr`. -/
def recordIndex : Index := ⟨"arr", "t", [⟨[.field "arr", .elements, .field "x"]⟩], [.integer]⟩

/-- A table with an array of records and the index on their fields `x`. -/
def recordTable : Table := idTable [("arr", .array (.record [("x", .integer)]))] [recordIndex]

/-- `p > 5`, where `p` is one node `u.x`, which is selected too: the scan absorbs `u`, which has no
parent but `p`. -/
def sharedSample : ScanBlock :=
  ⟨arrayGraph recordTable
    [.rangeOver 3 "u", .value (.field 4 "x"), .value (.literal (.integer 5)),
      .value (.call (.compare .gt false) [5, 6]), .restrict 7, .select "x" 5, .build],
    ⟨8, 1⟩, 0⟩

end ShardedQuery
