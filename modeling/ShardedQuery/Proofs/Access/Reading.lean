import ShardedQuery.Proofs.BuiltTable
import ShardedQuery.Proofs.Meaning

/-!
# The predicates of a WHERE clause

What `readPredicates` finds: each predicate compares a path of the row, which meets an index field,
with an operand that does not depend on the row, and it says of the path's items what its conjunct
says (`Predicate.IsReadAt.isMet_iff`). Predicates are numbered by their places, so that the ordinal
of a predicate names it (`ordinals_readPredicates`). A clause can fail to be read only if the index
holds the values of a map (`exists_readPredicates`).
-/

namespace ShardedQuery

open ShardedQuery.Graph List

variable {c left rowVar : NodeId} {found m : PathMatch} {q : QueryPath} {path : AccessPath}
  {g : Graph} {last : ItemType} {steps : List PathStep} {w : Value} {any : Bool} {op : Comparison}
  {qs : List Navigation} {p : Predicate}

/-- The constant at a node. -/
def Graph.constant? (g : Graph) (id : NodeId) : Option Value :=
  match g.expr id with
  | .literal v => some v
  | _ => none

theorem Graph.constant?_eq_some {id : NodeId} {v : Value} :
    g.constant? id = some v ↔ g.expr id = .literal v := by
  unfold constant?
  split <;> simp_all

/-- The node is an integer constant of either width. -/
def Graph.isIntegral (g : Graph) (id : NodeId) : Bool :=
  match g.expr id with
  | .literal w => w.toInt?.isSome
  | _ => false

theorem Graph.isIntegral_iff {id : NodeId} :
    g.isIntegral id ↔ ∃ w, g.expr id = .literal w ∧ w.toInt?.isSome := by
  unfold isIntegral
  split <;> simp_all

theorem Graph.Keeps.expr_integral {h : Graph} (hk : g.Keeps Expr.IsSteady h) {id : NodeId}
    (hlit : g.expr id = .literal w) (hint : w.toInt?.isSome) : h.expr id = .literal w := by
  refine hk.expr_of_eq hlit ?_ ⟨rfl, rfl, rfl⟩
  rintro ⟨⟩
  cases hint

/-! ## Comparisons with integers -/

/-- The condition compares a node that passes the test `f` with an integer, either way round. -/
def Graph.isIntegerTest (g : Graph) (any : Bool) (f : NodeId → Bool) (c : NodeId) : Bool :=
  match g.expr c with
  | .call (.compare _ any') [a, b] =>
    any' == any && ((f a && g.isIntegral b) || (g.isIntegral a && f b))
  | _ => false

section
variable {f : NodeId → Bool} (htest : g.isIntegerTest any f c)
include htest

theorem Graph.exists_of_isIntegerTest :
    ∃ op tested constant w,
      (g.expr c = .call (.compare op any) [tested, constant] ∨
        g.expr c = .call (.compare op any) [constant, tested]) ∧
      f tested ∧ g.expr constant = .literal w ∧ w.toInt?.isSome := by
  unfold isIntegerTest at htest
  split at htest
  · next op any' a b hc =>
    rw [Bool.and_eq_true, Bool.or_eq_true, Bool.and_eq_true, Bool.and_eq_true, beq_iff_eq] at htest
    obtain ⟨rfl, ⟨ha, hb⟩ | ⟨ha, hb⟩⟩ := htest
    · obtain ⟨w, hw, hint⟩ := isIntegral_iff.1 hb
      exact ⟨op, a, b, w, .inl hc, ha, hw, hint⟩
    · obtain ⟨w, hw, hint⟩ := isIntegral_iff.1 ha
      exact ⟨op, b, a, w, .inr hc, hb, hw, hint⟩
  · cases htest

theorem Graph.isSteady_of_isIntegerTest : c < g.size ∧ (g.expr c).IsSteady := by
  obtain ⟨op, tested, constant, -, hc, -⟩ := exists_of_isIntegerTest htest
  rcases hc with hc | hc <;>
    exact ⟨lt_size_of_expr (by simp [hc]), by rw [hc]; exact ⟨rfl, rfl, rfl⟩⟩

/-- A comparison with an integer means the same in every graph that keeps what is compared. -/
theorem Graph.Keeps.meets_integerTest {h : Graph} (items : Graph → NodeId → List Standing)
    (hk : g.Keeps Expr.IsSteady h)
    (hitems : ∀ id, f id → h.expr id = g.expr id ∧ items h id = items g id)
    (hliteral : ∀ k id w, k.expr id = .literal w → items k id = []) :
    h.meets (items h) c = g.meets (items g) c := by
  obtain ⟨hlt, hsteady⟩ := isSteady_of_isIntegerTest htest
  obtain ⟨op, tested, constant, w, hc, htested, hlit, hint⟩ := exists_of_isIntegerTest htest
  have hlit' := hk.expr_integral hlit hint
  have hsame := hitems tested htested
  have hconst : h.expr constant = g.expr constant ∧ items h constant = items g constant :=
    ⟨hlit'.trans hlit.symm, by rw [hliteral h _ w hlit', hliteral g _ w hlit]⟩
  refine meets_congr (hk.expr_eq c hlt hsteady) fun id hid => ?_
  rcases hc with hc | hc <;>
    simp only [children, hc, Expr.children, mem_cons, not_mem_nil, or_false] at hid <;>
    rcases hid with rfl | rfl <;> assumption

end

theorem Site.isFlat_of_isIntegerTest {site : Site} {f : NodeId → Bool}
    (htests : ∀ c ∈ g.conjuncts site.block, g.isIntegerTest any f c) : site.IsFlat g := by
  intro c hc
  obtain ⟨hlt, hsteady⟩ := isSteady_of_isIntegerTest (htests c hc)
  exact ⟨hlt, hsteady.2.2⟩

/-! ## One comparison -/

/-- The predicate compares the path at `left` with its operand. -/
structure Predicate.Compares (p : Predicate) (g : Graph) (path : AccessPath)
    (rowVar left : NodeId) : Prop where
  independent : g.isRowIndependent p.operand
  /-- The path is one of the row. The first index field it meets is the one the predicate is on,
  and the only one if the path selects a key there. -/
  query : ∃ q m others, g.queryPath? rowVar left = some q ∧ q.unnested = p.unnested ∧
    path.meetings q = (p.position, m) :: others ∧ m.mapKey = p.mapKey ∧ m.widened = p.widened ∧
    (p.mapKey.isSome → others = [])
  scalar : p.any = false → (g.exprType left).isScalar
  comparable : (path.typeAt p.position).comparable (g.exprType p.operand).item
  value : p.value = g.constant? p.operand
  atomic : ∀ w, p.value = some w → w.isAtomic ∧ w.isNull = false

section
variable {right : NodeId}

/-- What a comparison is read as, with its path on the left. -/
theorem readOriented_eq_some
    (h : readOriented g path rowVar c left right op any = some (.ok (some p))) :
    p.Compares g path rowVar left ∧ p.conjunct = c ∧ p.operand = right ∧ p.op = op ∧
      p.any = any ∧ p.status = .keep := by
  unfold readOriented at h
  split at h
  · cases h
  next hright =>
  split at h
  · cases h
  next q hq =>
  split at h
  · cases h
  next pos m others hmeet =>
  split at h
  · cases h
  next hambiguous =>
  split at h
  · cases h
  next hscalar =>
  split at h
  · cases h
  next hcomparable =>
  -- Two fields that are met leave no room for a key.
  have hothers : m.mapKey.isSome → others = [] := by
    intro hkey
    by_contra hne
    simp_all
  have hright' : g.isRowIndependent right := by simpa using hright
  have hscalar' : any = false → (g.exprType left).isScalar := by simpa using hscalar
  have hcomparable' : (path.typeAt pos).comparable (g.exprType right).item := by
    simpa using hcomparable
  have hquery : ∃ q' m' others', g.queryPath? rowVar left = some q' ∧ q'.unnested = q.unnested ∧
      path.meetings q' = (pos, m') :: others' ∧ m'.mapKey = m.mapKey ∧ m'.widened = m.widened ∧
      (m.mapKey.isSome → others' = []) :=
    ⟨q, m, others, hq, rfl, hmeet, rfl, rfl, hothers⟩
  split at h
  · next v hv =>
    split at h
    · cases h
    next hatomic =>
    cases h
    refine ⟨⟨hright', hquery, hscalar', hcomparable', (constant?_eq_some.2 hv).symm, ?_⟩,
      rfl, rfl, rfl, rfl, rfl⟩
    intro w hw
    cases Option.some.inj hw
    simpa [and_comm] using hatomic
  · next hv =>
    cases h
    have hnone : g.constant? right = none := by
      unfold constant?
      split
      · next v hlit => exact absurd hlit (hv v)
      · rfl
    exact ⟨⟨hright', hquery, hscalar', hcomparable', hnone.symm, fun w hw => by cases hw⟩,
      rfl, rfl, rfl, rfl, rfl⟩

end

/-- The predicate says what its conjunct says, with the path at `left` on the left side, and is not
settled yet. -/
structure Predicate.IsReadAt (p : Predicate) (g : Graph) (path : AccessPath)
    (rowVar left : NodeId) : Prop extends p.Compares g path rowVar left where
  conjunct : ∃ op,
    (g.expr p.conjunct = .call (.compare op p.any) [left, p.operand] ∧ p.op = op) ∨
      (g.expr p.conjunct = .call (.compare op p.any) [p.operand, left] ∧ p.op = op.swap)
  kept : p.status = .keep

/-- What a conjunct is read as. -/
theorem readPredicate_eq_some (h : readPredicate g path rowVar c = .ok (some p)) :
    p.conjunct = c ∧ ∃ left, p.IsReadAt g path rowVar left := by
  unfold readPredicate at h
  split at h
  · next op any a b hc =>
    split at h
    · next r hr =>
      obtain ⟨hcmp, rfl, rfl, hop, rfl, hkept⟩ := readOriented_eq_some (hr.trans (congrArg some h))
      exact ⟨rfl, a, hcmp, ⟨op, .inl ⟨hc, hop⟩⟩, hkept⟩
    · next hr =>
      cases hr' : readOriented g path rowVar c b a op.swap any with
      | none => rw [hr'] at h; cases h
      | some r =>
        rw [hr'] at h
        obtain ⟨hcmp, rfl, rfl, hop, rfl, hkept⟩ :=
          readOriented_eq_some (hr'.trans (congrArg some h))
        exact ⟨rfl, b, hcmp, ⟨op, .inr ⟨hc, hop⟩⟩, hkept⟩
  · cases h

/-- A path of the row is no constant. -/
theorem Graph.expr_ne_literal_of_queryPath? {id : NodeId} (h : g.queryPath? rowVar id = some q)
    (w : Value) : g.expr id ≠ .literal w := by
  intro hw
  have hclimb : g.climb (g.size + 1) id [] = (id, []) := by
    simp [climb, navigation?, hw]
  have hvar : g.var? id = none := by
    simp [var?, hw]
  unfold queryPath? at h
  simp only [Option.bind_eq_bind, Option.bind_eq_some_iff, hclimb] at h
  obtain ⟨row, hrow, h⟩ := h
  split at h
  · next hid => simp [← hid, hvar] at hrow
  · simp [hvar] at h

/-- If one side of the conjunct is a constant, it is the operand, and the path is the other side. -/
theorem Predicate.IsReadAt.sides {a b : NodeId} (h : p.IsReadAt g path rowVar left)
    (hc : g.expr p.conjunct = .call (.compare op any) [a, b] ∨
      g.expr p.conjunct = .call (.compare op any) [b, a]) (hlit : g.expr b = .literal w) :
    p.any = any ∧ left = a ∧ p.operand = b := by
  obtain ⟨q, -, -, hq, -⟩ := h.query
  have hleft := expr_ne_literal_of_queryPath? hq
  obtain ⟨op', ⟨hc', -⟩ | ⟨hc', -⟩⟩ := h.conjunct <;> rcases hc with hc | hc <;>
    rw [hc'] at hc <;> simp only [Expr.call.injEq, Function.compare.injEq, List.cons.injEq,
      and_true] at hc <;> obtain ⟨⟨-, hany⟩, h₁, h₂⟩ := hc
  · exact ⟨hany, h₁, h₂⟩
  · exact absurd (h₁ ▸ hlit) (hleft w)
  · exact absurd (h₂ ▸ hlit) (hleft w)
  · exact ⟨hany, h₂, h₁⟩

theorem Predicate.IsReadAt.exists_call (h : p.IsReadAt g path rowVar left) :
    ∃ op args, g.expr p.conjunct = .call (.compare op p.any) args ∧ left ∈ args := by
  obtain ⟨op, ⟨hc, -⟩ | ⟨hc, -⟩⟩ := h.conjunct
  · exact ⟨op, _, hc, by simp⟩
  · exact ⟨op, _, hc, by simp⟩

theorem Predicate.IsReadAt.conjunct_lt (h : p.IsReadAt g path rowVar left) :
    p.conjunct < g.size ∧ (g.expr p.conjunct).isConjunction = false := by
  obtain ⟨op, args, hc, -⟩ := h.exists_call
  exact ⟨lt_size_of_expr (by simp [hc]), by simp [hc, Expr.isConjunction]⟩

/-! ## What a predicate says -/

theorem Comparison.holds_swap (op : Comparison) (o : Ordering) :
    op.swap.holds o = op.holds o.swap := by
  cases op <;> cases o <;> rfl

/-- A predicate with a constant is met by the items of its path exactly if its conjunct is. -/
theorem Predicate.IsReadAt.isMet_iff (h : p.IsReadAt g path rowVar left) (hw : p.value = some w)
    (items : NodeId → List Standing) : p.IsMet (items left) ↔ g.meets items p.conjunct := by
  have hlit : g.expr p.operand = .literal w := constant?_eq_some.1 (h.value ▸ hw)
  obtain ⟨q, -, -, hq, -⟩ := h.query
  have hleft := expr_ne_literal_of_queryPath? hq
  rw [Predicate.isMet_iff hw]
  unfold meets
  obtain ⟨op, ⟨hc, hop⟩ | ⟨hc, hop⟩⟩ := h.conjunct
  · simp only [hc, hlit, hop]
  · simp only [hc, hlit, hop]
    rw [show op.swap.holds = fun o => op.holds o.swap from funext op.holds_swap]

/-! ## The whole clause -/

theorem Predicate.IsReadAt.renumber (h : p.IsReadAt g path rowVar left) (i : Nat) :
    { p with ordinal := i }.IsReadAt g path rowVar left :=
  ⟨⟨h.independent, h.query, h.scalar, h.comparable, h.value, h.atomic⟩, h.conjunct, h.kept⟩

section
variable {site : Site} {ps : List Predicate}

theorem readPredicates_eq_ok :
    readPredicates g path site = .ok ps ↔
      ∃ read, (g.conjuncts site.block).mapM (readPredicate g path site.rowVar) = .ok read ∧
        ps = (read.filterMap id).mapIdx fun i p => { p with ordinal := i } := by
  unfold readPredicates
  cases (g.conjuncts site.block).mapM (readPredicate g path site.rowVar) with
  | error e => simp [bind, Except.bind]
  | ok read =>
    constructor
    · intro h
      cases h
      exact ⟨read, rfl, rfl⟩
    · rintro ⟨_, h, rfl⟩
      cases h
      rfl

/-- A predicate of a clause is what its conjunct is read as, with a number. -/
theorem readPredicate_of_mem (h : readPredicates g path site = .ok ps)
    (hp : p ∈ ps) : p.conjunct ∈ g.conjuncts site.block ∧
      ∃ p', readPredicate g path site.rowVar p.conjunct = .ok (some p') ∧
        p = { p' with ordinal := p.ordinal } := by
  obtain ⟨read, hread, rfl⟩ := readPredicates_eq_ok.1 h
  obtain ⟨i, hi, rfl⟩ := mem_mapIdx.1 hp
  have hmem : some (read.filterMap id)[i] ∈ read := by
    obtain ⟨r, hr, hri⟩ := mem_filterMap.1 (getElem_mem hi)
    exact hri ▸ hr
  obtain ⟨c, hc, hcr⟩ := exists_of_forall₂ (forall₂_of_mapM hread) hmem
  obtain ⟨rfl, -⟩ := readPredicate_eq_some hcr
  exact ⟨hc, _, hcr, rfl⟩

theorem isReadAt_of_mem (h : readPredicates g path site = .ok ps) (hp : p ∈ ps) :
    p.conjunct ∈ g.conjuncts site.block ∧ ∃ left, p.IsReadAt g path site.rowVar left := by
  obtain ⟨hc, p', hp', heq⟩ := readPredicate_of_mem h hp
  obtain ⟨-, left, hleft⟩ := readPredicate_eq_some hp'
  rw [heq]
  exact ⟨heq ▸ hc, left, hleft.renumber _⟩

theorem sublist_of_readPredicate {cs : List NodeId} {read : List (Option Predicate)}
    (h : Forall₂ (fun c r => readPredicate g path rowVar c = .ok r) cs read) :
    ((read.filterMap id).map (·.conjunct)).Sublist cs := by
  induction h with
  | nil => exact .slnil
  | @cons c r _ _ hcr _ ih =>
    cases r with
    | none => exact ih.cons c
    | some p =>
      obtain ⟨rfl, -⟩ := readPredicate_eq_some hcr
      exact ih.cons_cons p.conjunct

theorem conjuncts_readPredicates (h : readPredicates g path site = .ok ps) :
    (ps.map (·.conjunct)).Sublist (g.conjuncts site.block) := by
  obtain ⟨read, hread, rfl⟩ := readPredicates_eq_ok.1 h
  have hmap : ((read.filterMap id).mapIdx fun i p => { p with ordinal := i }).map (·.conjunct) =
      (read.filterMap id).map (·.conjunct) :=
    ext_getElem (by simp) fun i h₁ h₂ => by simp
  rw [hmap]
  exact sublist_of_readPredicate (forall₂_of_mapM hread)

/-- The ordinals of the predicates are their places. -/
theorem ordinals_readPredicates (h : readPredicates g path site = .ok ps) :
    ps.map (·.ordinal) = List.range ps.length := by
  obtain ⟨read, -, rfl⟩ := readPredicates_eq_ok.1 h
  refine ext_getElem (by simp) ?_
  intro i h₁ h₂
  simp

end

/-! ## Paths and the fields they meet -/

/-- A path meets the field at a position if the field's path matches it. -/
theorem AccessPath.mem_meetings {pos : Nat} :
    (pos, m) ∈ path.meetings q ↔ ∃ f, path.fields[pos]? = some f ∧
      q.matchPath f.path (path.mapValues? == some pos) = some m := by
  unfold meetings
  simp only [mem_filterMap, Prod.exists, Option.map_eq_some_iff, Prod.mk.injEq]
  constructor
  · rintro ⟨f, i, hf, m', hm, rfl, rfl⟩
    exact ⟨f, mem_zipIdx_iff_getElem?.1 hf, hm⟩
  · rintro ⟨f, hf, hm⟩
    exact ⟨f, pos, mem_zipIdx_iff_getElem?.2 hf, m, hm, rfl, rfl⟩

/-- A call is no path. -/
theorem Graph.queryPath?_call {f : Function} {args : List NodeId} (hc : g.expr c = .call f args) :
    g.queryPath? rowVar c = none := by
  have hclimb : g.climb (g.size + 1) c [] = (c, []) := by
    simp [climb, navigation?, hc]
  have hvar : g.var? c = none := by
    simp [var?, hc]
  unfold queryPath?
  rw [hclimb]
  cases hrow : g.var? rowVar with
  | none => rfl
  | some row =>
    have hne : c ≠ rowVar := by
      rintro rfl
      cases hrow.symm.trans hvar
    simp [hne, hvar]

/-- The path of a column is a single step. -/
theorem Graph.queryPath?_column {id : NodeId} {name : String} (h : g.queryPath? rowVar id = some q)
    (he : g.expr id = .field rowVar name) :
    q.unnested = none ∧ ∃ input, q.steps = [⟨.field name, input⟩] := by
  unfold queryPath? at h
  simp only [Option.bind_eq_bind, Option.bind_eq_some_iff] at h
  obtain ⟨row, hrow, h⟩ := h
  have hnav : g.navigation? rowVar = none := by
    rw [var?_eq_some] at hrow
    simp [navigation?, hrow]
  have hclimb : ∀ n steps, g.climb n rowVar steps = (rowVar, steps) := by
    intro n steps
    cases n <;> simp [climb, hnav]
  simp only [climb, navigation?, he, hclimb, if_true, Option.pure_def, Option.some.injEq] at h
  subst h
  exact ⟨rfl, _, rfl⟩

/-! ## Without keys of a map -/

theorem matchSteps_mapKey (h : matchSteps false steps qs last found = some m) :
    m.mapKey = found.mapKey := by
  fun_induction matchSteps false steps qs last found <;> simp_all

/-- A path meets a field, if it does, without a key where the index has no values of a map. -/
theorem mapKey_of_mem_meetings (hno : path.mapValues? = none) {x : Nat × PathMatch}
    (hx : x ∈ path.meetings q) : x.2.mapKey = none := by
  unfold AccessPath.meetings at hx
  obtain ⟨⟨f, pos⟩, -, hfx⟩ := mem_filterMap.1 hx
  obtain ⟨m, hm, rfl⟩ := Option.map_eq_some_iff.1 hfx
  rw [hno] at hm
  exact matchSteps_mapKey hm

theorem matchSteps_nil {allowKey : Bool} (h : matchSteps allowKey steps [] last found = some m) :
    m = found := by
  induction steps generalizing last with
  | nil => exact (Option.some.inj h).symm
  | cons step steps ih =>
    simp only [matchSteps] at h
    split at h
    · exact ih h
    · cases h

theorem matchSteps_allowKey (h : matchSteps false steps qs last found = some m) :
    matchSteps true steps qs last found = some m := by
  fun_induction matchSteps false steps qs last found <;> simp_all [matchSteps]

/-- Without keys of a map every comparison can be read. -/
theorem readOriented_ne_error (hno : path.mapValues? = none)
    (rowVar c left right : NodeId) (op : Comparison) (any : Bool) (e : CompileError) :
    readOriented g path rowVar c left right op any ≠ some (.error e) := by
  intro h
  unfold readOriented at h
  split at h
  · cases h
  split at h
  · cases h
  next q _ =>
  split at h
  · cases h
  next pos m others hmeet =>
  have hkeys : ((pos, m) :: others).any (·.2.mapKey.isSome) = false := by
    rw [any_eq_false]
    intro x hx
    simp [mapKey_of_mem_meetings hno (hmeet ▸ hx)]
  simp only [hkeys, Bool.and_false, Bool.false_eq_true, if_false] at h
  grind

theorem exists_readPredicate (hno : path.mapValues? = none) (g : Graph)
    (rowVar c : NodeId) : ∃ r, readPredicate g path rowVar c = .ok r := by
  unfold readPredicate
  split
  · next op any a b _ =>
    cases h : readOriented g path rowVar c a b op any with
    | some r =>
      cases r with
      | error e => exact absurd h (readOriented_ne_error hno rowVar c a b op any e)
      | ok r => exact ⟨r, rfl⟩
    | none =>
      cases h' : readOriented g path rowVar c b a op.swap any with
      | some r =>
        cases r with
        | error e => exact absurd h' (readOriented_ne_error hno rowVar c b a op.swap any e)
        | ok r => exact ⟨r, rfl⟩
      | none => exact ⟨none, rfl⟩
  · exact ⟨none, rfl⟩

/-- Without keys of a map every clause can be read. -/
theorem exists_readPredicates (hno : path.mapValues? = none) (g : Graph)
    (site : Site) : ∃ ps, readPredicates g path site = .ok ps := by
  have hread : ∀ cs : List NodeId, ∃ rs, cs.mapM (readPredicate g path site.rowVar) = .ok rs := by
    intro cs
    induction cs with
    | nil => exact ⟨[], rfl⟩
    | cons c cs ih =>
      obtain ⟨r, hr⟩ := exists_readPredicate hno g site.rowVar c
      obtain ⟨rs, hrs⟩ := ih
      exact ⟨r :: rs, by rw [mapM_cons, hr, hrs]; rfl⟩
  obtain ⟨rs, hrs⟩ := hread (g.conjuncts site.block)
  exact ⟨_, readPredicates_eq_ok.2 ⟨rs, hrs, rfl⟩⟩

end ShardedQuery
