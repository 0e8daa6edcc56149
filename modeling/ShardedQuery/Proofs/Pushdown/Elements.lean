import ShardedQuery.Proofs.Access.Choice

/-!
# Comparisons of the elements of an array

A block that compares any element of an array with integers, rewritten to a scan of an index with
one entry for each element. Different elements may meet different conjuncts, so of the comparisons
that can bound the scan only one is kept, and the others are skipped unless they repeat it. The
scan asks of one element what all kept predicates say (`passesEntry_iff`), the WHERE clause asks of
the array what is skipped (`mem_remaining_elements`). No row is invented, unless one comparison stands
twice in the clause: it may be skipped the first time and implied the second, and then it is gone
(`selectsArray_of_deliversArray`). Inequalities do not bound the scan and are kept beside the others,
so that rows can be lost; `deliversArray_of_selectsArray_iff` says when none is.
-/

namespace ShardedQuery

open ShardedQuery.Graph List Analysis

variable {p : Predicate} {ps : List Predicate} {column : String} {g : Graph} {c : NodeId}

/-! ## Blocks and their arrays -/

namespace Graph

/-- The node runs over all elements of a column of the row. -/
def isElements (g : Graph) (rowVar : NodeId) (column : String) (id : NodeId) : Bool :=
  match g.expr id with
  | .filter input none _ => g.isColumn rowVar column input
  | .slice input none none _ => g.isColumn rowVar column input
  | _ => false

/-- The condition compares any element of the column with an integer, either way round. -/
def isElementTest (g : Graph) (rowVar : NodeId) (column : String) (c : NodeId) : Bool :=
  g.isIntegerTest true (g.isElements rowVar column) c

/-- The items of the elements of the column, where the array holds `xs`. -/
def elementItems (g : Graph) (rowVar : NodeId) (column : String) (xs : List Int32) (id : NodeId) :
    List Standing :=
  if g.isElements rowVar column id then xs.map fun x => .ofInt x.toInt else []

/-- An array meets the WHERE clause of a block: each comparison is met by some element. -/
def selectsArray (g : Graph) (site : Site) (column : String) (xs : List Int32) : Bool :=
  (g.conjuncts site.block).all (g.meets (g.elementItems site.rowVar column xs))

/-- The index entry of an element passes the keys, the range and the filter of the scan. -/
def passesEntry (g : Graph) (site : Site) (scan : NodeId) (column : String) (x : Int32) : Bool :=
  g.admits scan (fun _ => .ofInt x.toInt)
    && (g.filterConjuncts scan).all (g.meets (g.elementItems site.rowVar column [x]))

/-- A row with the array is delivered: the index entry of some element passes the scan, and the row
meets the WHERE clause. -/
def deliversArray (g : Graph) (site : Site) (scan : NodeId) (column : String) (xs : List Int32) :
    Bool :=
  xs.any (g.passesEntry site scan column) && g.selectsArray site column xs

end Graph

/-- The block scans a table, and its WHERE clause compares the elements of a column with integers. -/
structure Site.TestsElements (site : Site) (g : Graph) (scan : NodeId) (column : String) : Prop
    extends site.Scans g scan where
  rowVar : (g.var? site.rowVar).isSome
  conjuncts : ∀ c ∈ g.conjuncts site.block, g.isElementTest site.rowVar column c

/-- The only field of the access path holds the elements of a column. -/
structure AccessPath.HoldsElements (path : AccessPath) (column : String) : Prop where
  field : ∃ f, path.fields = [f] ∧ f.fansOut = true ∧ f.path.steps = [.field column, .elements]
  mapKeys : path.mapKeys? = none
  mapValues : path.mapValues? = none

theorem AccessPath.holdsElements_secondary {i : Index}
    (h : i.paths = [⟨[.field column, .elements]⟩]) : (secondary i).HoldsElements column := by
  have hkeys : i.mapKeysPosition? = none := by
    simp [Index.mapKeysPosition?, h, IndexPath.keysMap?]
  refine ⟨?_, hkeys, ?_⟩
  · simp [secondary, h, IndexPath.fansOut, PathStep.fansOut]
  · simp [mapValues?, secondary, Index.mapValuesPosition?, hkeys]

/-! ## The predicates of such a block -/

section
variable {h : Graph} {rowVar id : NodeId}

theorem Graph.isElements_iff : g.isElements rowVar column id ↔ ∃ input context,
    g.expr input = .field rowVar column ∧
      (g.expr id = .filter input none context ∨ g.expr id = .slice input none none context) := by
  unfold isElements
  split <;> simp_all [isColumn_iff]

theorem Graph.elementItems_literal {w : Value} (hw : g.expr id = .literal w) (xs : List Int32) :
    g.elementItems rowVar column xs id = [] := by
  simp [elementItems, isElements, hw]

theorem Graph.meets_elementItems_iff (htest : g.isElementTest rowVar column c) (xs : List Int32) :
    g.meets (g.elementItems rowVar column xs) c ↔
      ∃ x ∈ xs, g.meets (g.elementItems rowVar column [x]) c := by
  obtain ⟨op, elements, constant, w, hc, helements, hlit, -⟩ := exists_of_isIntegerTest htest
  obtain ⟨input, context, -, he⟩ := isElements_iff.1 helements
  rcases hc with hc | hc <;> rcases he with he | he <;>
    simp [meets, hc, hlit, he, elementItems, helements, compares]

/-- The path to the elements of a column. -/
theorem Graph.exists_queryPath?_elements (hvar : (g.var? rowVar).isSome)
    (helements : g.isElements rowVar column id) :
    ∃ q n m step, g.queryPath? rowVar id = some q ∧ q.unnested = none ∧
      q.steps = [⟨.field column, n⟩, ⟨step, m⟩] ∧
      (step = .elements false ∨ step = .values false) := by
  obtain ⟨row, hrow⟩ := Option.isSome_iff_exists.1 hvar
  obtain ⟨input, context, hinput, he⟩ := isElements_iff.1 helements
  have hlt : input < g.size := lt_size_of_expr (by simp [hinput])
  obtain ⟨n, hn⟩ := Nat.exists_eq_succ_of_ne_zero (Nat.ne_zero_of_lt hlt)
  have hstop : ∀ n steps, g.climb n rowVar steps = (rowVar, steps) := by
    intro n steps
    have hnav : g.navigation? rowVar = none := by simp [navigation?, var?_eq_some.1 hrow]
    cases n <;> simp [climb, hnav]
  have hnav : ∃ step, g.navigation? id = some (step, input) ∧
      (step = .elements false ∨ step = .values false) := by
    rcases he with he | he
    · cases hmap : (g.exprType input).item.isMap <;> simp [navigation?, he, hmap]
    · simp [navigation?, he]
  obtain ⟨step, hstep, hkind⟩ := hnav
  have hfield : g.navigation? input = some (.field column, rowVar) := by simp [navigation?, hinput]
  have hclimb : g.climb (g.size + 1) id [] = (rowVar,
      [⟨.field column, (g.exprType rowVar).item⟩, ⟨step, (g.exprType input).item⟩]) := by
    rw [hn]
    simp [climb, hstep, hfield, hstop]
  have hq : g.queryPath? rowVar id = some ⟨[⟨.field column, (g.exprType rowVar).item⟩,
      ⟨step, (g.exprType input).item⟩], (g.exprType id).item, none⟩ := by
    simp [queryPath?, hrow, hclimb]
  exact ⟨_, _, _, step, hq, rfl, rfl, hkind⟩

theorem Graph.Keeps.isElements_eq (hk : g.Keeps Expr.IsSteady h)
    (helements : g.isElements rowVar column id) : h.isElements rowVar column id := by
  obtain ⟨input, context, hinput, he⟩ := isElements_iff.1 helements
  have hinput' := hk.expr_of_eq hinput (by simp) ⟨rfl, rfl, rfl⟩
  refine isElements_iff.2 ⟨input, context, hinput', ?_⟩
  rcases he with he | he
  · exact .inl (hk.expr_of_eq he (by simp) ⟨rfl, rfl, rfl⟩)
  · exact .inr (hk.expr_of_eq he (by simp) ⟨rfl, rfl, rfl⟩)

/-- A comparison of elements means the same in every graph that keeps it. -/
theorem Graph.Keeps.meets_elementTest (hk : g.Keeps Expr.IsSteady h)
    (htest : g.isElementTest rowVar column c) (xs : List Int32) :
    h.meets (h.elementItems rowVar column xs) c = g.meets (g.elementItems rowVar column xs) c := by
  refine hk.meets_integerTest htest (fun k => k.elementItems rowVar column xs)
    (fun id hid => ⟨?_, ?_⟩) fun k id w hw => elementItems_literal hw xs
  · obtain ⟨input, context, -, he⟩ := isElements_iff.1 hid
    rcases he with he | he <;>
      exact (hk.expr_of_eq he (by simp) ⟨rfl, rfl, rfl⟩).trans he.symm
  · simp [elementItems, hid, hk.isElements_eq hid]

end

section
variable {path : AccessPath} {site : Site} {scan : NodeId}

theorem AccessPath.HoldsElements.fansOutAt_zero (h : path.HoldsElements column) :
    path.fansOutAt 0 = true := by
  obtain ⟨f, hf, hfans, -⟩ := h.field
  simp [AccessPath.fansOutAt, hf, hfans]

/-- A comparison of elements is read as one of the index field that holds them. -/
theorem Predicate.IsReadAt.testsElements {rowVar left : NodeId}
    (hread : p.IsReadAt g path rowVar left) (hpath : path.HoldsElements column)
    (hvar : (g.var? rowVar).isSome) (htest : g.isElementTest rowVar column p.conjunct) :
    p.TestsInteger true ∧ p.position = 0 ∧ g.isElements rowVar column left := by
  obtain ⟨q, m, others, hq, hunnested, hmeet, hkey, hwidened, -⟩ := hread.query
  obtain ⟨op, elements, constant, w, hc, helements, hlit, hint⟩ :=
    exists_of_isIntegerTest htest
  obtain ⟨hany, rfl, hoperand⟩ := hread.sides hc hlit
  obtain ⟨q', i₁, i₂, step, hq', hnone, hsteps, hstep⟩ :=
    exists_queryPath?_elements hvar helements
  cases hq.symm.trans hq'
  obtain ⟨f, hf, hm⟩ := AccessPath.mem_meetings.1 (hmeet ▸ mem_cons_self)
  obtain ⟨f', hfields, -, hpsteps⟩ := hpath.field
  have hpos : p.position = 0 ∧ f = f' := by
    rw [hfields] at hf
    cases hp : p.position with
    | zero => rw [hp] at hf; exact ⟨rfl, (Option.some.inj hf).symm⟩
    | succ n => rw [hp] at hf; cases hf
  obtain ⟨hpos, rfl⟩ := hpos
  have hmatch : m = ⟨false, none⟩ := by
    rw [QueryPath.matchPath, hpsteps, hsteps] at hm
    rcases hstep with rfl | rfl
    · simp only [matchSteps, if_true, Bool.or_false] at hm
      exact (Option.some.inj hm).symm
    · simp [matchSteps] at hm
  subst hmatch
  refine ⟨⟨hany, hkey.symm, hwidened.symm, hunnested.symm.trans hnone, w, ?_, hint⟩, hpos,
    helements⟩
  rw [hread.value, hoperand]
  exact constant?_eq_some.2 hlit

/-- The predicate compares any element with an integer, and the elements meet it exactly if they
meet its conjunct. -/
structure Predicate.TestsElements (p : Predicate) (g : Graph) (rowVar : NodeId) (column : String) :
    Prop extends p.TestsInteger true where
  position : p.position = 0
  isMet_iff : ∀ xs : List Int32, p.IsMet (xs.map fun x => .ofInt x.toInt) ↔
    g.meets (g.elementItems rowVar column xs) p.conjunct

section
variable (hblock : site.TestsElements g scan column)
include hblock

theorem Site.TestsElements.isFlat : site.IsFlat g :=
  Site.isFlat_of_isIntegerTest hblock.conjuncts

section
variable (hpath : path.HoldsElements column)
include hpath

theorem Site.TestsElements.of_mem (hps : readPredicates g path site = .ok ps) (hp : p ∈ ps) :
    p.TestsElements g site.rowVar column ∧ p.status = .keep := by
  obtain ⟨hc, left, hread⟩ := isReadAt_of_mem hps hp
  obtain ⟨htest, hpos, helements⟩ :=
    hread.testsElements hpath hblock.rowVar (hblock.conjuncts _ hc)
  obtain ⟨w, hw, -⟩ := htest.value
  refine ⟨⟨htest, hpos, fun xs => ?_⟩, hread.kept⟩
  rw [← hread.isMet_iff hw, elementItems, if_pos helements]

theorem Site.TestsElements.isAnyOf (hps : readPredicates g path site = .ok ps) (hp : p ∈ ps) :
    p.IsAnyOf path.fansOutAt := by
  obtain ⟨htest, -⟩ := hblock.of_mem hpath hps hp
  exact ⟨htest.any_eq, htest.position ▸ hpath.fansOutAt_zero⟩

/-- On a single field no comparison of elements is left out. -/
theorem contenders_elements (w : Weights) (hps : readPredicates g path site = .ok ps) :
    contenders w path ps = ps := by
  have htest := fun p hp => hblock.of_mem hpath hps (p := p) hp
  have hkey : chooseMapKey w path ps = (none, ps) := by simp [chooseMapKey, hpath.mapKeys]
  have hind : ∀ p ∈ ps, p.isIndependent path := by
    intro p hp
    obtain ⟨htest, hkeep⟩ := htest p hp
    simp [Predicate.isIndependent, Predicate.isKept, hkeep, htest.position, hpath.fansOutAt_zero,
      htest.unnested, htest.mapKey]
  have hunnested : (ps.any fun p => p.isKept && path.fansOutAt p.position && p.unnested.isSome) =
      false := by
    rw [any_eq_false]
    intro p hp
    simp [(htest p hp).1.unnested]
  rw [contenders, hkey]
  unfold restrictMultiKey
  conv_rhs => rw [← map_id ps]
  refine map_congr_left ?_
  intro p hp
  have hfirst : ((ps.filter (·.isIndependent path)).map (·.position)).min? = some p.position := by
    rw [min?_eq_some_iff]
    refine ⟨mem_map.2 ⟨p, mem_filter.2 ⟨hp, hind p hp⟩, rfl⟩, fun n _ => ?_⟩
    rw [(htest p hp).1.position]
    exact Nat.zero_le n
  simp [hunnested, hfirst]

/-- The analysis of such a block always succeeds. -/
theorem exists_run_elements (t : Table) (w : Weights) :
    ∃ a, run g t w site path = .ok (some a) := by
  obtain ⟨ps, hps⟩ := exists_readPredicates hpath.mapValues g site
  obtain ⟨r, hr⟩ := exists_run hps t w
  cases r with
  | some a => exact ⟨a, hr⟩
  | none =>
    obtain ⟨ps, hps, hnone⟩ := run_eq_none.1 hr
    rw [choose_eq_none, contenders_elements hblock hpath w hps] at hnone
    exact absurd hnone (resolveConflicts_ne_none fun p hp => hblock.isAnyOf hpath hps hp)

end

end

/-! ## What the rewritten block asks -/

section
variable {a : Analysis} {t : Table} {w : Weights} (hblock : site.TestsElements g scan column)
  (hpath : path.HoldsElements column) (hfound : a.IsFound g t w site path)
include hblock hpath hfound

/-- The analysis of such a block settles the conflicts between independent predicates, and that is
all. -/
theorem elements_settled :
    ∃ ps, readPredicates g path site = .ok ps ∧ (∀ p ∈ ps, p.IsAnyOf path.fansOutAt) ∧
      resolveConflicts path.fansOutAt ps = some a.predicates ∧
      a.bounds.Fits none none a.predicates 0 := by
  obtain ⟨ps, hps, hresolved, hfits⟩ := hfound.exists_resolved hpath.mapKeys fun ps hps =>
    ⟨contenders_elements hblock hpath w hps, fun p hp => (hblock.of_mem hpath hps hp).1.widened⟩
  exact ⟨ps, hps, fun p hp => hblock.isAnyOf hpath hps hp, hresolved, hfits⟩

/-- Settled predicates still say what their conjuncts say. -/
theorem testsElements_of_mem (hp : p ∈ a.predicates) : p.TestsElements g site.rowVar column := by
  obtain ⟨ps, hps, hany, hresolved, -⟩ := elements_settled hblock hpath hfound
  obtain ⟨p₀, hp₀, heq⟩ := exists_of_independent_run (resolveConflicts_run hresolved) hany p hp
  obtain ⟨htest, -⟩ := hblock.of_mem hpath hps hp₀
  rw [heq]
  exact ⟨⟨htest.any_eq, htest.mapKey, htest.widened, htest.unnested, htest.value⟩, htest.position,
    htest.isMet_iff⟩

/-- A comparison of elements cannot be checked on an index entry beyond what was settled. -/
theorem indexFilters_elements : a.indexFilters = [] := by
  rw [eq_nil_iff_forall_not_mem]
  intro c hc
  obtain ⟨hmem, -, -, heval⟩ := hfound.mem_indexFilters.1 hc
  obtain ⟨op, elements, constant, w, hcall, helements, -⟩ :=
    exists_of_isIntegerTest (hblock.conjuncts c hmem)
  obtain ⟨q, n, m, step, hq, -, hsteps, -⟩ :=
    exists_queryPath?_elements hblock.rowVar helements
  obtain ⟨f, hf, hfans, -⟩ := hpath.field
  have hres : isResident t path q := by
    rcases hcall with hcall | hcall <;>
      exact (isResident_of_isEvaluable hcall (by simp) hq heval).2
  simp [isResident, hsteps, hf, AccessPath.AccessField.holds, hfans] at hres

/-- The entry of an element passes the scan if the element meets the conjuncts of the predicates
that were kept. -/
theorem passesEntry_iff (x : Int32) :
    (a.apply g t site scan).passesEntry site scan column x ↔
      ∀ p ∈ a.predicates, p.status = .keep →
        g.meets (g.elementItems site.rowVar column [x]) p.conjunct := by
  obtain ⟨ps, hps, hany, hresolved, hfits⟩ := elements_settled hblock hpath hfound
  have happ := a.applied t hblock.toScans
  have hfilter := happ.filter fun c hc =>
    hblock.isFlat c (hfound.filterConjuncts_subset c (by simp [hc]))
  have hadmits : (a.apply g t site scan).admits scan (fun _ => .ofInt x.toInt) ↔
      ∀ p ∈ a.bounds.predicates, p.IsMet [.ofInt x.toInt] := by
    refine admits_iff happ hfits (fun p hp => ?_) _
    obtain ⟨p₀, hp₀, hpp⟩ := exists_of_forall₂ (restates_of_run (resolveConflicts_run hresolved))
      (hfits.of_mem hp).1
    obtain ⟨-, left, hread⟩ := isReadAt_of_mem hps hp₀
    exact hread.isConstantIn (hblock.of_mem hpath hps hp₀).1.toTestsInteger hpp happ.keeps
  have hmeets : ∀ c ∈ a.filterConjuncts,
      (a.apply g t site scan).meets
          ((a.apply g t site scan).elementItems site.rowVar column [x]) c =
        g.meets (g.elementItems site.rowVar column [x]) c := fun c hc =>
    happ.keeps.meets_elementTest (hblock.conjuncts c (hfound.filterConjuncts_subset c hc)) [x]
  unfold passesEntry
  rw [Bool.and_eq_true, hadmits, hfilter, all_eq_true]
  constructor
  · rintro ⟨hbounds, hfilters⟩ p hp hkeep
    cases huses : a.bounds.uses p with
    | true =>
      have hmet := hbounds p (hfound.mem_bounds hfits hp huses)
      exact ((testsElements_of_mem hblock hpath hfound hp).isMet_iff [x]).1 hmet
    | false =>
      have hc : p.conjunct ∈ a.filterConjuncts :=
        mem_filterConjuncts.2 (.inl ⟨p, hp, filters_iff.2 ⟨hkeep, huses⟩, rfl⟩)
      rw [← hmeets _ hc]
      exact hfilters _ hc
  · intro hkept
    refine ⟨fun p hp => ?_, fun c hc => ?_⟩
    · obtain ⟨hmem, hkeep, -⟩ := hfits.of_mem hp
      exact ((testsElements_of_mem hblock hpath hfound hmem).isMet_iff [x]).2 (hkept p hmem hkeep)
    · rw [hmeets c hc]
      rcases mem_filterConjuncts.1 hc with ⟨p, hp, hfilters, rfl⟩ | hidx
      · exact hkept p hp (filters_iff.1 hfilters).1
      · rw [indexFilters_elements hblock hpath hfound] at hidx
        cases hidx

/-- A conjunct stays in the WHERE clause if the predicate it was read as, if any, is skipped. -/
theorem mem_remaining_elements :
    c ∈ a.remaining g site ↔
      c ∈ g.conjuncts site.block ∧ ∀ p ∈ a.predicates, p.conjunct = c → p.status = .skip := by
  obtain ⟨-, -, -, -, hfits⟩ := elements_settled hblock hpath hfound
  have htakes : ∀ p ∈ a.predicates, a.takes p ↔ p.status ≠ .skip := by
    intro p hp
    have htest := testsElements_of_mem hblock hpath hfound hp
    have huses : a.bounds.uses p → p.status = .keep := fun huses =>
      (hfits.of_mem (hfound.mem_bounds hfits hp huses)).2.1
    have hretains : a.retains p = false := by
      simp [retains, htest.widened, htest.unnested]
    simp only [takes, hretains, Bool.not_false, Bool.or_true, Bool.true_and,
      pushes_iff]
    cases hs : p.status <;> simp_all
  rw [mem_remaining, mem_consumed, indexFilters_elements hblock hpath hfound]
  refine and_congr_right fun _ => ?_
  simp only [not_mem_nil, or_false, not_exists, not_and]
  constructor
  · intro h p hp hpc
    by_contra hskip
    exact h p hp ((htakes p hp).2 hskip) hpc
  · intro h p hp ht hpc
    exact (htakes p hp).1 ht (h p hp hpc)

omit hpath hfound in
theorem selectsArray_apply_iff (xs : List Int32) :
    (a.apply g t site scan).selectsArray site column xs ↔
      ∀ c ∈ a.remaining g site, g.meets (g.elementItems site.rowVar column xs) c := by
  have happ := a.applied t hblock.toScans
  unfold selectsArray
  rw [happ.conjuncts_eq hblock.isFlat, all_eq_true]
  refine forall₂_congr ?_
  intro c hc
  rw [happ.keeps.meets_elementTest (hblock.conjuncts c (mem_remaining.1 hc).1) xs]

/-- The array of a row that the rewritten block delivers meets the WHERE clause of the block if it
meets the skipped comparisons that are not left. -/
theorem selectsArray_of_deliversArray {xs : List Int32}
    (hdel : (a.apply g t site scan).deliversArray site scan column xs)
    (hgone : ∀ p ∈ a.predicates, p.status = .skip → p.conjunct ∉ a.remaining g site →
      g.meets (g.elementItems site.rowVar column xs) p.conjunct) :
    g.selectsArray site column xs := by
  obtain ⟨ps, hps, -, hresolved, -⟩ := elements_settled hblock hpath hfound
  obtain ⟨hentry, hsel⟩ := Bool.and_eq_true_iff.1 hdel
  obtain ⟨x, hx, hpass⟩ := any_eq_true.1 hentry
  rw [passesEntry_iff hblock hpath hfound] at hpass
  rw [selectsArray_apply_iff hblock] at hsel
  have hopen : OpenMet (fun s => s.position = 0) (fun _ => (xs.map (·.toInt)).map .ofInt)
      a.predicates := by
    intro p hp hne _
    have hconj := hblock.conjuncts _ (hfound.conjunct_mem hp)
    rw [map_map]
    refine ((testsElements_of_mem hblock hpath hfound hp).isMet_iff xs).2 ?_
    cases hs : p.status with
    | keep => exact (meets_elementItems_iff hconj xs).2 ⟨x, hx, hpass p hp hs⟩
    | implied => exact absurd hs hne
    | skip =>
      by_cases hleft : p.conjunct ∈ a.remaining g site
      · exact hsel _ hleft
      · exact hgone p hp hs hleft
  have hal : Aligned path.fansOutAt (fun s => s.position = 0)
      (fun _ => (xs.map (·.toInt)).map .ofInt) ps := by
    have htest : ∀ p ∈ ps, p.TestsInteger true := fun p hp =>
      (hblock.of_mem hpath hps hp).1.toTestsInteger
    refine aligned_integers htest (fun _ => xs.map (·.toInt)) ?_
    intro s hs hfalse
    rw [hs, hpath.fansOutAt_zero] at hfalse
    cases hfalse
  have hread := openMet_of_run (resolveConflicts_run hresolved) hal hopen
  refine all_eq_true.2 ?_
  intro c hc
  by_cases hrem : c ∈ a.remaining g site
  · exact hsel c hrem
  · rw [mem_remaining_elements hblock hpath hfound] at hrem
    push Not at hrem
    obtain ⟨p, hp, rfl, -⟩ := hrem hc
    obtain ⟨p₀, hp₀, hpp⟩ := exists_of_forall₂ (restates_of_run (resolveConflicts_run hresolved)) hp
    obtain ⟨htest, hkeep⟩ := hblock.of_mem hpath hps hp₀
    have hmet := hread p₀ hp₀ (by simp [hkeep]) htest.position
    rw [map_map] at hmet
    rw [hpp.conjunct_eq]
    exact (htest.isMet_iff xs).1 hmet

/-- A skipped comparison that stands once in the WHERE clause is left there. -/
theorem mem_remaining_of_skip (hnodup : (g.conjuncts site.block).Nodup) (hp : p ∈ a.predicates)
    (hskip : p.status = .skip) : p.conjunct ∈ a.remaining g site := by
  refine (mem_remaining_elements hblock hpath hfound).2 ⟨hfound.conjunct_mem hp, ?_⟩
  intro q hq hqc
  rw [hfound.eq_of_conjunct_eq hnodup hq hp hqc, hskip]

omit hpath hfound in
/-- No row is lost exactly if the elements that meet some conjunct all pass the scan. -/
theorem deliversArray_of_selectsArray_iff :
    (∀ xs, g.selectsArray site column xs →
        (a.apply g t site scan).deliversArray site scan column xs) ↔
      ∃ c ∈ g.conjuncts site.block, ∀ x, g.meets (g.elementItems site.rowVar column [x]) c →
        (a.apply g t site scan).passesEntry site scan column x := by
  constructor
  · -- Otherwise each conjunct has an element of its own that does not pass.
    intro hdelivers
    by_contra hno
    push Not at hno
    choose! f hmeets hfails using hno
    have hsel : g.selectsArray site column ((g.conjuncts site.block).map f) := by
      refine all_eq_true.2 ?_
      intro c hc
      exact (meets_elementItems_iff (hblock.conjuncts c hc) _).2
        ⟨f c, mem_map_of_mem hc, hmeets c hc⟩
    obtain ⟨x, hx, hpass⟩ := any_eq_true.1 (Bool.and_eq_true_iff.1 (hdelivers _ hsel)).1
    obtain ⟨c, hc, rfl⟩ := mem_map.1 hx
    exact hfails c hc hpass
  · rintro ⟨c, hc, hpass⟩ xs hsel
    have hmeets := all_eq_true.1 hsel
    obtain ⟨x, hx, hmet⟩ :=
      (meets_elementItems_iff (hblock.conjuncts c hc) xs).1 (hmeets c hc)
    refine Bool.and_eq_true_iff.2 ⟨any_eq_true.2 ⟨x, hx, hpass x hmet⟩, ?_⟩
    rw [selectsArray_apply_iff hblock]
    exact fun c hc => hmeets c (mem_remaining.1 hc).1

/-- Without inequalities only one predicate is kept. -/
theorem eq_of_kept (hne : ∀ c ∈ g.conjuncts site.block, g.operator? c ≠ some .ne) {q : Predicate}
    (hp : p ∈ a.predicates) (hq : q ∈ a.predicates) (hkp : p.status = .keep)
    (hkq : q.status = .keep) : p = q := by
  obtain ⟨ps, hps, hany, hresolved, -⟩ := elements_settled hblock hpath hfound
  have hop : ∀ p ∈ a.predicates, p.op ≠ .ne := by
    intro p hp
    obtain ⟨p₀, hp₀, heq⟩ := exists_of_independent_run (resolveConflicts_run hresolved) hany p hp
    obtain ⟨hc, left, hread⟩ := isReadAt_of_mem hps hp₀
    rw [heq]
    exact hread.op_ne (hne _ hc)
  have htp := testsElements_of_mem hblock hpath hfound hp
  have htq := testsElements_of_mem hblock hpath hfound hq
  refine eq_of_competes hany hresolved hp hq (competes_iff.2 ⟨hkp, hkq, hop p hp, hop q hq, ?_⟩)
  exact ⟨htp.widened, htq.widened, htp.position.trans htq.position.symm,
    htp.mapKey.trans htq.mapKey.symm⟩

/-- Without inequalities the elements that meet a certain conjunct all pass the scan: the conjunct
of the predicate that is kept. -/
theorem exists_conjunct_passes (hne : ∀ c ∈ g.conjuncts site.block, g.operator? c ≠ some .ne)
    (hsome : g.conjuncts site.block ≠ []) :
    ∃ c ∈ g.conjuncts site.block, ∀ x, g.meets (g.elementItems site.rowVar column [x]) c →
      (a.apply g t site scan).passesEntry site scan column x := by
  by_cases hkept : ∃ k ∈ a.predicates, k.status = .keep
  · obtain ⟨k, hk, hkeep⟩ := hkept
    refine ⟨k.conjunct, hfound.conjunct_mem hk, fun x hx => ?_⟩
    refine (passesEntry_iff hblock hpath hfound x).2 ?_
    intro p hp hkeep'
    rw [eq_of_kept hblock hpath hfound hne hp hk hkeep' hkeep]
    exact hx
  · obtain ⟨c, hc⟩ := exists_mem_of_ne_nil _ hsome
    refine ⟨c, hc, fun x _ => (passesEntry_iff hblock hpath hfound x).2 fun p hp hkeep => ?_⟩
    exact absurd ⟨p, hp, hkeep⟩ hkept

end

end

/-! ## The main statement -/

/-- What a scan of the elements of an array delivers. It invents no row exactly if the arrays that are
delivered meet the skipped comparisons that are not left in the WHERE clause; there are none if no
conjunct stands there twice. It loses no row exactly if there is a conjunct such that the entries of
all elements that meet it pass the scan; this is so whenever the clause has a conjunct and none is
an inequality. -/
theorem run_preserves_elementTests {g : Graph} {site : Site} {scan : NodeId} {column : String}
    (t : Table) (w : Weights) {idx : Index} (hblock : site.TestsElements g scan column)
    (hindex : idx.paths = [⟨[.field column, .elements]⟩]) :
    ∃ a, Analysis.run g t w site (.ofIndex t (some idx)) = .ok (some a) ∧
      ((∀ xs, (a.apply g t site scan).deliversArray site scan column xs →
          g.selectsArray site column xs) ↔
        ∀ xs, (a.apply g t site scan).deliversArray site scan column xs →
          ∀ p ∈ a.predicates, p.status = .skip → p.conjunct ∉ a.remaining g site →
            g.meets (g.elementItems site.rowVar column xs) p.conjunct) ∧
      ((g.conjuncts site.block).Nodup →
        ∀ xs, (a.apply g t site scan).deliversArray site scan column xs →
          g.selectsArray site column xs) ∧
      ((∀ xs, g.selectsArray site column xs →
          (a.apply g t site scan).deliversArray site scan column xs) ↔
        ∃ c ∈ g.conjuncts site.block, ∀ x, g.meets (g.elementItems site.rowVar column [x]) c →
          (a.apply g t site scan).passesEntry site scan column x) ∧
      (g.conjuncts site.block ≠ [] → (∀ c ∈ g.conjuncts site.block, g.operator? c ≠ some .ne) →
        ∀ xs, g.selectsArray site column xs →
          (a.apply g t site scan).deliversArray site scan column xs) := by
  have hpath : (AccessPath.ofIndex t (some idx)).HoldsElements column :=
    AccessPath.holdsElements_secondary hindex
  obtain ⟨a, hrun⟩ := exists_run_elements hblock hpath t w
  have hfound := Analysis.isFound_of_run hrun
  have hiff := deliversArray_of_selectsArray_iff (a := a) (t := t) hblock
  refine ⟨a, hrun, ⟨fun h xs hdel p hp _ _ => ?_, fun h xs hdel => ?_⟩, fun hnodup xs hdel => ?_, hiff,
    fun hsome hne => hiff.2 (exists_conjunct_passes hblock hpath hfound hne hsome)⟩
  · exact all_eq_true.1 (h xs hdel) _ (hfound.conjunct_mem hp)
  · exact selectsArray_of_deliversArray hblock hpath hfound hdel (h xs hdel)
  · refine selectsArray_of_deliversArray hblock hpath hfound hdel fun p hp hskip hgone => ?_
    exact absurd (mem_remaining_of_skip hblock hpath hfound hnodup hp hskip) hgone

/-- A block over a table with an array `arr`, whose elements are compared with constants; the first
comparisons stand twice in the WHERE clause. -/
def elementSample (tests : List (Comparison × Int32)) (twice : Nat) : ScanBlock :=
  .over arrayTable.rowType ["id"] fun row g =>
    let (column, g) := g.addField row "arr"
    let (elements, g) := g.addDeclaring (.filter column none []) none
    let (conjuncts, g) := tests.foldl (fun (cs, g) (op, n) =>
      let (constant, g) := g.addLiteral (.integer n)
      let (c, g) := g.addCall (.compare op true) [elements, constant]
      (cs ++ [c], g)) ([], g)
    (conjuncts.take twice ++ conjuncts, g)

/-- `arr[] >any 7 AND arr[] =any 5`: the equality is pushed, and the other comparison stays. -/
def independentSample : ScanBlock := elementSample [(.gt, 7), (.eq, 5)] 0

/-- `arr[] =any 5 AND arr[] !=any 5`: both comparisons are asked of one element. -/
def conjoinedSample : ScanBlock := elementSample [(.eq, 5), (.ne, 5)] 0

/-- `c AND c AND arr[] =any 5`, where one node `c` compares `arr[] >any 7`: it is skipped for the
equality the first time, and implied by itself the second. -/
def repeatedElements : ScanBlock := elementSample [(.gt, 7), (.eq, 5)] 1

theorem run_preserves_elementTests_independent :
    independentSample.site.TestsElements independentSample.graph independentSample.scan "arr" ∧
    (independentSample.graph.conjuncts independentSample.site.block).length = 2 ∧
    ∃ a, Analysis.run independentSample.graph arrayTable {} independentSample.site arrayPath =
        .ok (some a) ∧
      ∀ xs, (a.apply independentSample.graph arrayTable independentSample.site
          independentSample.scan).deliversArray independentSample.site independentSample.scan "arr"
            xs =
        independentSample.graph.selectsArray independentSample.site "arr" xs := by
  have hblock : independentSample.site.TestsElements independentSample.graph
      independentSample.scan "arr" :=
    ⟨⟨by decide +kernel, by decide +kernel, by decide +kernel⟩, by decide +kernel,
      by decide +kernel⟩
  obtain ⟨a, hrun, -, hkeeps, -, hloses⟩ :=
    run_preserves_elementTests arrayTable {} hblock (rfl : arrayIndex.paths = _)
  exact ⟨hblock, by decide +kernel, a, hrun, fun xs => Bool.eq_iff_iff.2
    ⟨hkeeps (by decide +kernel) xs, hloses (by decide +kernel) (by decide +kernel) xs⟩⟩

/-- The array `[5, 6]` has an element equal to 5 and one that is not, but none that is both: the
row is lost. The array `[5]` has no element over 7; where that comparison stands twice, the row is
invented. -/
theorem deliversArray_conjoined :
    (conjoinedSample.site.TestsElements conjoinedSample.graph conjoinedSample.scan "arr" ∧
      ∃ a, Analysis.run conjoinedSample.graph arrayTable {} conjoinedSample.site arrayPath =
          .ok (some a) ∧
        conjoinedSample.graph.selectsArray conjoinedSample.site "arr" [5, 6] = true ∧
        (a.apply conjoinedSample.graph arrayTable conjoinedSample.site
          conjoinedSample.scan).deliversArray conjoinedSample.site conjoinedSample.scan "arr" [5, 6] =
            false) ∧
    repeatedElements.site.TestsElements repeatedElements.graph repeatedElements.scan "arr" ∧
      ∃ a, Analysis.run repeatedElements.graph arrayTable {} repeatedElements.site arrayPath =
          .ok (some a) ∧
        repeatedElements.graph.selectsArray repeatedElements.site "arr" [5] = false ∧
        (a.apply repeatedElements.graph arrayTable repeatedElements.site
          repeatedElements.scan).deliversArray repeatedElements.site repeatedElements.scan "arr" [5] =
            true := by
  refine ⟨⟨⟨⟨by decide +kernel, by decide +kernel, by decide +kernel⟩, by decide +kernel,
    by decide +kernel⟩, ?_⟩, ⟨⟨by decide +kernel, by decide +kernel, by decide +kernel⟩,
    by decide +kernel, by decide +kernel⟩, ?_⟩
  · obtain ⟨a, hrun, htest⟩ := Analysis.exists_of_foundWith
      (Analysis.run conjoinedSample.graph arrayTable {} conjoinedSample.site arrayPath)
      (fun a => !(a.apply conjoinedSample.graph arrayTable conjoinedSample.site
        conjoinedSample.scan).deliversArray conjoinedSample.site conjoinedSample.scan "arr" [5, 6])
      (by decide +kernel)
    exact ⟨a, hrun, by decide +kernel, by simpa using htest⟩
  · obtain ⟨a, hrun, htest⟩ := Analysis.exists_of_foundWith
      (Analysis.run repeatedElements.graph arrayTable {} repeatedElements.site arrayPath)
      (fun a => (a.apply repeatedElements.graph arrayTable repeatedElements.site
        repeatedElements.scan).deliversArray repeatedElements.site repeatedElements.scan "arr" [5])
      (by decide +kernel)
    exact ⟨a, hrun, by decide +kernel, htest⟩

end ShardedQuery
