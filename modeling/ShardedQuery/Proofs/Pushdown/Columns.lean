import ShardedQuery.Proofs.Access.Choice

/-!
# Comparisons of columns with integers

A block that compares columns of a row with integers, rewritten to a scan over columns. A row is
delivered if it passes the keys, the range and the filter of the scan and meets what is left of the
WHERE clause. Such predicates are never skipped: one that gives way to another is implied by it.
But two inclusive bounds on one value collapse into an equality, and where this equality does not
bound the scan, the filter checks the one bound that was kept as it was written.
`selectsRow_iff_collapsedFilters` says that nothing else goes wrong.
-/

namespace ShardedQuery

open List Analysis

variable {p : Predicate} {ρ : String → Int} {g : Graph} {ps : List Predicate} {t : Table}
  {w : Weights}

/-! ## Blocks and their rows -/

namespace Graph

/-- The node is a column of the row. -/
def isColumnOf (g : Graph) (rowVar id : NodeId) : Bool :=
  match g.expr id with
  | .field input _ => input == rowVar
  | _ => false

/-- The condition is a value comparison of a column with an integer, either way round. -/
def isColumnTest (g : Graph) (rowVar c : NodeId) : Bool :=
  g.isIntegerTest false (g.isColumnOf rowVar) c

/-- The items of the columns of a row that holds `ρ`. -/
def columnItems (g : Graph) (rowVar : NodeId) (ρ : String → Int) (id : NodeId) : List Standing :=
  match g.expr id with
  | .field input name => if input = rowVar then [.ofInt (ρ name)] else []
  | _ => []

/-- A row meets the WHERE clause of a block. -/
def selectsRow (g : Graph) (site : Site) (ρ : String → Int) : Bool :=
  (g.conjuncts site.block).all (g.meets (g.columnItems site.rowVar ρ))

end Graph

/-- The index entry of a row that holds `ρ`, where each index field is a column. -/
def AccessPath.columnEntry (path : AccessPath) (ρ : String → Int) (pos : Nat) : Standing :=
  .ofInt (ρ ((path.fields[pos]?.map (·.path.rootField)).getD ""))

/-- A row passes the keys, the range and the filter of the scan and meets the WHERE clause. -/
def Graph.deliversRow (g : Graph) (site : Site) (scan : NodeId) (path : AccessPath)
    (ρ : String → Int) : Bool :=
  g.admits scan (path.columnEntry ρ)
    && (g.filterConjuncts scan).all (g.meets (g.columnItems site.rowVar ρ))
    && g.selectsRow site ρ

/-- The filters that were settled as equalities, but are checked as they were written. -/
def Analysis.collapsedFilters (a : Analysis) (g : Graph) : List Predicate :=
  a.predicates.filter fun p => a.filters p && p.isCollapsed g

/-- The block scans a table, and its WHERE clause compares columns with integers. -/
structure Site.TestsColumns (site : Site) (g : Graph) (scan : NodeId) : Prop
    extends site.Scans g scan where
  conjuncts : ∀ c ∈ g.conjuncts site.block, g.isColumnTest site.rowVar c

/-- Every field of the access path is a column. -/
def AccessPath.IsPlain (path : AccessPath) : Prop :=
  (∀ f ∈ path.fields, f.fansOut = false ∧ ∃ name, f.path.steps = [.field name]) ∧
    path.mapKeys? = none ∧ path.mapValues? = none

/-- The primary index is plain, and so is a secondary index over columns. -/
theorem AccessPath.isPlain_ofIndex (t : Table) {idx : Option Index}
    (h : ∀ i ∈ idx, ∀ p ∈ i.paths, ∃ name, p.steps = [.field name]) :
    (ofIndex t idx).IsPlain := by
  cases idx with
  | none => exact ⟨by simp [ofIndex, primary], rfl, rfl⟩
  | some i =>
    have hpaths := h i rfl
    have hkeys : i.mapKeysPosition? = none := by
      unfold Index.mapKeysPosition?
      rw [findIdx?_eq_none_iff]
      intro p hp
      obtain ⟨name, hname⟩ := hpaths p hp
      simp [IndexPath.keysMap?, hname]
    refine ⟨fun f hf => ?_, hkeys, ?_⟩
    · obtain ⟨pos, hpos, rfl⟩ := mem_mapIdx.1 hf
      obtain ⟨name, hname⟩ := hpaths _ (getElem_mem hpos)
      exact ⟨by simp [IndexPath.fansOut, hname, PathStep.fansOut], name, hname⟩
    · simp [mapValues?, ofIndex, secondary, Index.mapValuesPosition?, hkeys]

/-! ## The predicates of such a block -/

section
variable {h : Graph} {rowVar id c : NodeId}

theorem Graph.isColumnOf_iff : g.isColumnOf rowVar id ↔ ∃ name, g.expr id = .field rowVar name := by
  unfold isColumnOf
  split <;> simp_all

/-- A comparison of a column with an integer means the same in every graph that keeps it. -/
theorem Graph.Keeps.meets_columnTest (hk : g.Keeps Expr.IsSteady h)
    (htest : g.isColumnTest rowVar c) (ρ : String → Int) :
    h.meets (h.columnItems rowVar ρ) c = g.meets (g.columnItems rowVar ρ) c := by
  refine hk.meets_integerTest htest (fun k => k.columnItems rowVar ρ) (fun id hid => ?_)
    fun k id w hw => by simp only [columnItems, hw]
  obtain ⟨name, hname⟩ := isColumnOf_iff.1 hid
  have hname' := hk.expr_of_eq hname (by simp) ⟨rfl, rfl, rfl⟩
  exact ⟨hname'.trans hname.symm, by simp only [columnItems, hname, hname']⟩

end

section
variable {path : AccessPath} {site : Site} {scan : NodeId}

/-- The comparison of a column with an integer is read as one of the index field that holds the
column. -/
theorem Predicate.IsReadAt.testsColumn {rowVar left : NodeId} (h : p.IsReadAt g path rowVar left)
    (hplain : path.IsPlain) (htest : g.isColumnTest rowVar p.conjunct) :
    p.TestsInteger false ∧ ∀ ρ, g.columnItems rowVar ρ left = [path.columnEntry ρ p.position] := by
  obtain ⟨q, m, others, hq, hunnested, hmeet, hkey, hwidened, -⟩ := h.query
  obtain ⟨op, column, constant, w, hc, htested, hconstant, hint⟩ :=
    Graph.exists_of_isIntegerTest htest
  obtain ⟨name, hcolumn⟩ := Graph.isColumnOf_iff.1 htested
  obtain ⟨hany, rfl, hoperand⟩ := h.sides hc hconstant
  obtain ⟨hnone, input, hsteps⟩ := Graph.queryPath?_column hq hcolumn
  obtain ⟨f, hf, hm⟩ := AccessPath.mem_meetings.1 (hmeet ▸ mem_cons_self)
  obtain ⟨-, name', hname'⟩ := hplain.1 f (mem_of_getElem? hf)
  have hmatch : name' = name ∧ m = ⟨false, none⟩ := by
    simp only [QueryPath.matchPath, hname', hsteps, matchSteps] at hm
    split at hm
    · next heq => exact ⟨heq, (Option.some.inj hm).symm⟩
    · cases hm
  obtain ⟨rfl, rfl⟩ := hmatch
  refine ⟨⟨hany, hkey.symm, hwidened.symm, hunnested.symm.trans hnone, w, ?_, hint⟩, fun ρ => ?_⟩
  · rw [h.value, hoperand]
    exact Graph.constant?_eq_some.2 hconstant
  · simp [Graph.columnItems, hcolumn, AccessPath.columnEntry, hf, IndexPath.rootField, hname']

theorem AccessPath.IsPlain.fansOutAt_eq_false (h : path.IsPlain) (pos : Nat) :
    path.fansOutAt pos = false := by
  unfold AccessPath.fansOutAt
  cases hf : path.fields[pos]? with
  | none => rfl
  | some f => exact (h.1 f (mem_of_getElem? hf)).1

theorem AccessPath.IsPlain.contenders_eq (h : path.IsPlain) (w : Weights) (ps : List Predicate) :
    contenders w path ps = ps :=
  contenders_eq_self h.2.1 h.fansOutAt_eq_false w ps

/-- Every predicate of a block that tests columns is such a test, and is met by a row exactly if
its conjunct is. -/
theorem Site.TestsColumns.of_mem (hblock : site.TestsColumns g scan) (hplain : path.IsPlain)
    (hps : readPredicates g path site = .ok ps) (hp : p ∈ ps) :
    p.TestsInteger false ∧ ∀ ρ, p.IsMet [path.columnEntry ρ p.position] ↔
      g.meets (g.columnItems site.rowVar ρ) p.conjunct := by
  obtain ⟨hc, left, hread⟩ := isReadAt_of_mem hps hp
  obtain ⟨htest, hitems⟩ := hread.testsColumn hplain (hblock.conjuncts _ hc)
  obtain ⟨w, hw, -⟩ := htest.value
  exact ⟨htest, fun ρ => by rw [← hitems ρ, hread.isMet_iff hw]⟩

/-- The standing of a row to the predicates on columns. -/
theorem aligned_columns (hps : ∀ p ∈ ps, p.TestsInteger false) (ρ : String → Int) :
    Aligned path.fansOutAt (fun _ => True) (fun s => [path.columnEntry ρ s.position]) ps :=
  aligned_integers hps
    (fun pos => [ρ ((path.fields[pos]?.map (·.path.rootField)).getD "")])
    fun _ _ _ => Nat.le_refl 1

section
variable {a : Analysis} (hblock : site.TestsColumns g scan) (hplain : path.IsPlain)
  (hfound : a.IsFound g t w site path)
include hblock hplain hfound

/-- The analysis of a block that tests columns settles the conflicts between its predicates, and
that is all. -/
theorem columns_settled :
    ∃ ps, readPredicates g path site = .ok ps ∧
      Relation.ReflTransGen (Settles path.fansOutAt) ps a.predicates ∧
      a.bounds.Fits none none a.predicates 0 := by
  obtain ⟨ps, hps, hresolved, hfits⟩ := hfound.exists_resolved hplain.2.1 fun ps hps =>
    ⟨hplain.contenders_eq w ps, fun p hp => (hblock.of_mem hplain hps hp).1.widened⟩
  exact ⟨ps, hps, resolveConflicts_run hresolved, hfits⟩

/-- What the rewritten block asks of a row. -/
theorem deliversRow_iff (ρ : String → Int) :
    (a.apply g t site scan).deliversRow site scan path ρ ↔
      (∀ p ∈ a.bounds.predicates, p.IsMet [path.columnEntry ρ p.position]) ∧
      (∀ c ∈ a.filterConjuncts, g.meets (g.columnItems site.rowVar ρ) c) ∧
      ∀ c ∈ a.remaining g site, g.meets (g.columnItems site.rowVar ρ) c := by
  obtain ⟨ps, hps, hrun, hfits⟩ := columns_settled hblock hplain hfound
  have happ := a.applied t hblock.toScans
  have hflat : site.IsFlat g := Site.isFlat_of_isIntegerTest hblock.conjuncts
  have hfilter := happ.filter fun c hc => hflat c (hfound.filterConjuncts_subset c (by simp [hc]))
  have hconj := happ.conjuncts_eq hflat
  have hmeets : ∀ c ∈ g.conjuncts site.block,
      (a.apply g t site scan).meets ((a.apply g t site scan).columnItems site.rowVar ρ) c =
        g.meets (g.columnItems site.rowVar ρ) c :=
    fun c hc => happ.keeps.meets_columnTest (hblock.conjuncts c hc) ρ
  unfold Graph.deliversRow Graph.selectsRow
  rw [Bool.and_eq_true, Bool.and_eq_true, and_assoc, hfilter, hconj, all_eq_true,
    all_eq_true]
  refine and_congr ?_ (and_congr ?_ ?_)
  · refine admits_iff happ hfits (fun p hp => ?_) _
    obtain ⟨p₀, hp₀, hpp⟩ := exists_of_forall₂ (restates_of_run hrun) (hfits.of_mem hp).1
    obtain ⟨-, left, hread⟩ := isReadAt_of_mem hps hp₀
    exact hread.isConstantIn (hblock.of_mem hplain hps hp₀).1 hpp happ.keeps
  · exact forall₂_congr fun c hc => by rw [hmeets c (hfound.filterConjuncts_subset c hc)]
  · exact forall₂_congr fun c hc => by rw [hmeets c (mem_remaining.1 hc).1]

/-- Rows that the block selects meet each predicate with the operator it was settled with. -/
theorem allMet_of_selectsRow (hsel : g.selectsRow site ρ) :
    ∀ p ∈ a.predicates, p.IsMet [path.columnEntry ρ p.position] := by
  obtain ⟨ps, hps, hrun, -⟩ := columns_settled hblock hplain hfound
  have htest := fun p hp => hblock.of_mem hplain hps (p := p) hp
  have hread : AllMet (fun _ => True) (fun s => [path.columnEntry ρ s.position]) ps := by
    intro p hp _
    have hc := (isReadAt_of_mem hps hp).1
    exact ((htest p hp).2 ρ).2 (all_eq_true.1 hsel _ hc)
  have hall := allMet_of_run hrun (aligned_columns (fun p hp => (htest p hp).1) ρ) hread
  exact fun p hp => hall p hp trivial

/-- Rows that meet what bounds the scan and what filters it, with the operators that were settled,
meet every conjunct that a predicate was read from. -/
theorem meets_of_isMet
    (hbounds : ∀ p ∈ a.bounds.predicates, p.IsMet [path.columnEntry ρ p.position])
    (hfilters : ∀ p ∈ a.predicates, a.filters p → p.IsMet [path.columnEntry ρ p.position]) :
    ∀ p ∈ a.predicates, g.meets (g.columnItems site.rowVar ρ) p.conjunct := by
  obtain ⟨ps, hps, hrun, hfits⟩ := columns_settled hblock hplain hfound
  have htest := fun p hp => hblock.of_mem hplain hps (p := p) hp
  have hunskipped : Unskipped a.predicates := by
    refine unskipped_of_run hplain.fansOutAt_eq_false hrun ?_
    intro p hp
    obtain ⟨-, left, hread⟩ := isReadAt_of_mem hps hp
    obtain ⟨w, hw, -⟩ := (htest p hp).1.value
    exact ⟨by simp [hread.kept], by simp [hw]⟩
  have hopen : OpenMet (fun _ => True) (fun s => [path.columnEntry ρ s.position])
      a.predicates := by
    intro p hp hne _
    have hkeep : p.status = .keep := by
      have hskip := (hunskipped p hp).1
      cases hs : p.status <;> simp_all
    cases huses : a.bounds.uses p with
    | true => exact hbounds p (hfound.mem_bounds hfits hp huses)
    | false => exact hfilters p hp (filters_iff.2 ⟨hkeep, huses⟩)
  have hread := openMet_of_run hrun (aligned_columns (fun p hp => (htest p hp).1) ρ) hopen
  intro p hp
  obtain ⟨p₀, hp₀, hpp⟩ := exists_of_forall₂ (restates_of_run hrun) hp
  obtain ⟨-, left, hkept⟩ := isReadAt_of_mem hps hp₀
  rw [hpp.eq]
  exact ((htest p₀ hp₀).2 ρ).1 (hread p₀ hp₀ (by simp [hkept.kept]) trivial)

/-- The rewritten block asks of a row what the block asked, once each filter is read with the
operator it was settled with. -/
theorem selectsRow_iff (ρ : String → Int) :
    g.selectsRow site ρ ↔ (a.apply g t site scan).deliversRow site scan path ρ ∧
      ∀ p ∈ a.predicates, a.filters p → p.IsMet [path.columnEntry ρ p.position] := by
  rw [deliversRow_iff hblock hplain hfound]
  constructor
  · intro hsel
    have hall := allMet_of_selectsRow hblock hplain hfound hsel
    obtain ⟨ps, -, -, hfits⟩ := columns_settled hblock hplain hfound
    have hconj := all_eq_true.1 hsel
    exact ⟨⟨fun p hp => hall p (hfits.of_mem hp).1,
      fun c hc => hconj c (hfound.filterConjuncts_subset c hc),
      fun c hc => hconj c (mem_remaining.1 hc).1⟩, fun p hp _ => hall p hp⟩
  · rintro ⟨⟨hbounds, hfilter, hremaining⟩, hfilters⟩
    refine all_eq_true.2 ?_
    intro c hc
    by_cases hcons : c ∈ a.consumed
    · rcases mem_consumed.1 hcons with ⟨p, hp, -, rfl⟩ | hidx
      · exact meets_of_isMet hblock hplain hfound hbounds hfilters p hp
      · exact hfilter c (mem_filterConjuncts.2 (.inr hidx))
    · exact hremaining c (mem_remaining.2 ⟨hc, hcons⟩)

/-- A filter that was not collapsed says what its conjunct says. -/
theorem isMet_of_not_isCollapsed (hp : p ∈ a.predicates) (hcollapsed : p.isCollapsed g = false)
    (hmet : g.meets (g.columnItems site.rowVar ρ) p.conjunct) :
    p.IsMet [path.columnEntry ρ p.position] := by
  obtain ⟨ps, hps, hrun, -⟩ := columns_settled hblock hplain hfound
  obtain ⟨p₀, hp₀, hpp⟩ := exists_of_forall₂ (restates_of_run hrun) hp
  obtain ⟨-, left, hread⟩ := isReadAt_of_mem hps hp₀
  have hmet₀ := ((hblock.of_mem hplain hps hp₀).2 ρ).2 (hpp.conjunct_eq ▸ hmet)
  rw [hpp.eq, hread.op_eq_of_not_isCollapsed hpp hcollapsed]
  exact hmet₀

/-- The rewritten block asks of a row what the block asked, but for the collapsed filters. -/
theorem selectsRow_iff_collapsedFilters (ρ : String → Int) :
    g.selectsRow site ρ ↔ (a.apply g t site scan).deliversRow site scan path ρ ∧
      ∀ p ∈ a.collapsedFilters g, p.IsMet [path.columnEntry ρ p.position] := by
  rw [selectsRow_iff hblock hplain hfound]
  refine and_congr_right fun hdel => ⟨fun h p hp => ?_, fun h p hp hfilters => ?_⟩
  · obtain ⟨hp, hpc⟩ := mem_filter.1 hp
    exact h p hp (Bool.and_eq_true_iff.1 hpc).1
  · cases hc : p.isCollapsed g with
    | true => exact h p (mem_filter.2 ⟨hp, by simp [hfilters, hc]⟩)
    | false =>
      have hmem := mem_filterConjuncts.2 (.inl ⟨p, hp, hfilters, rfl⟩)
      exact isMet_of_not_isCollapsed hblock hplain hfound hp hc
        (((deliversRow_iff hblock hplain hfound ρ).1 hdel).2.1 _ hmem)

end

/-- A clause found to contradict itself is met by no row. -/
theorem selectsRow_eq_false (hblock : site.TestsColumns g scan) (hplain : path.IsPlain)
    (hnone : run g t w site path = .ok none) (ρ : String → Int) :
    g.selectsRow site ρ = false := by
  obtain ⟨ps, hps, hchoose⟩ := run_eq_none.1 hnone
  rw [choose_eq_none, hplain.contenders_eq w ps] at hchoose
  have htest := fun p hp => hblock.of_mem hplain hps (p := p) hp
  obtain ⟨k, -, hclash⟩ := exists_not_allMet hchoose
  rw [Bool.eq_false_iff]
  intro hsel
  refine hclash _ _ (aligned_columns (fun p hp => (htest p hp).1) ρ) trivial ?_
  intro p hp _
  exact ((htest p hp).2 ρ).2 (all_eq_true.1 hsel _ (isReadAt_of_mem hps hp).1)

end

/-! ## The main statement -/

/-- Pushing comparisons of columns with integers into a scan over columns keeps the WHERE clause,
but for the collapsed filters. A clause found contradictory selects no row. Otherwise every row
that the block selects is delivered by the rewritten block, and a delivered row is selected exactly
if it meets the equalities that collapsed filters stand for; so the two blocks agree on all rows
exactly if the rewritten block implies these equalities, and always if no filter is collapsed. -/
theorem run_preserves_columnTests {g : Graph} {site : Site} {scan : NodeId}
    (hblock : site.TestsColumns g scan) (t : Table) (w : Weights) (idx : Option Index)
    (hcolumns : ∀ i ∈ idx, ∀ p ∈ i.paths, ∃ name, p.steps = [.field name]) :
    ∃ r, Analysis.run g t w site (.ofIndex t idx) = .ok r ∧
      (r = none → ∀ ρ, g.selectsRow site ρ = false) ∧
      ∀ a, r = some a →
        (∀ ρ, g.selectsRow site ρ ↔
          (a.apply g t site scan).deliversRow site scan (.ofIndex t idx) ρ ∧
            ∀ p ∈ a.collapsedFilters g,
              p.IsMet [(AccessPath.ofIndex t idx).columnEntry ρ p.position]) ∧
        ((∀ ρ, g.selectsRow site ρ =
            (a.apply g t site scan).deliversRow site scan (.ofIndex t idx) ρ) ↔
          ∀ ρ, (a.apply g t site scan).deliversRow site scan (.ofIndex t idx) ρ →
            ∀ p ∈ a.collapsedFilters g,
              p.IsMet [(AccessPath.ofIndex t idx).columnEntry ρ p.position]) := by
  have hplain := AccessPath.isPlain_ofIndex t hcolumns
  obtain ⟨ps, hps⟩ := exists_readPredicates hplain.2.2 g site
  obtain ⟨r, hr⟩ := Analysis.exists_run hps t w
  refine ⟨r, hr, ?_, ?_⟩
  · rintro rfl
    exact selectsRow_eq_false hblock hplain hr
  · rintro a rfl
    have hiff := selectsRow_iff_collapsedFilters hblock hplain (Analysis.isFound_of_run hr)
    refine ⟨hiff, fun h ρ hdel => ((hiff ρ).1 ((h ρ).trans hdel)).2, fun h ρ => ?_⟩
    rw [Bool.eq_iff_iff, hiff ρ]
    exact ⟨And.left, fun hdel => ⟨hdel, h ρ hdel⟩⟩

/-- A block over a table with the columns `a` and `b`, whose WHERE clause compares columns with 5.
-/
def columnSample (tests : List (String × Comparison)) : ScanBlock :=
  .over (.record [("a", .integer), ("b", .integer)]) [] fun row g =>
    let (five, g) := g.addLiteral (.integer 5)
    tests.foldl (fun (cs, g) (name, op) =>
      let (column, g) := g.addField row name
      let (c, g) := g.addCall (.compare op false) [column, five]
      (cs ++ [c], g)) ([], g)

/-- The index of that table on both columns. -/
def columnSampleIndex : Index := integerIndex "ab" ["a", "b"]

def columnSampleTable : Table :=
  { name := "t"
    fields := [⟨"a", .integer, false, 0⟩, ⟨"b", .integer, true, 1⟩]
    primaryKey := ["a"]
    shardKeyLength := 1
    indexes := [columnSampleIndex] }

/-- `a = 5 AND b >= 5 AND b <= 5`: the bounds on `b` collapse into the second key. -/
def keyedSample : ScanBlock := columnSample [("a", .eq), ("b", .ge), ("b", .le)]

/-- `b >= 5 AND b <= 5`: the bounds on `b` collapse, but without a key on `a` they only filter. -/
def unkeyedSample : ScanBlock := columnSample [("b", .ge), ("b", .le)]

theorem run_preserves_columnTests_keyed :
    keyedSample.site.TestsColumns keyedSample.graph keyedSample.scan ∧
    (keyedSample.graph.conjuncts keyedSample.site.block).length = 3 ∧
    ∃ a, Analysis.run keyedSample.graph columnSampleTable {} keyedSample.site
        (.ofIndex columnSampleTable (some columnSampleIndex)) = .ok (some a) ∧
      ∀ ρ, keyedSample.graph.selectsRow keyedSample.site ρ =
        (a.apply keyedSample.graph columnSampleTable keyedSample.site keyedSample.scan).deliversRow
          keyedSample.site keyedSample.scan
          (.ofIndex columnSampleTable (some columnSampleIndex)) ρ := by
  have hblock : keyedSample.site.TestsColumns keyedSample.graph keyedSample.scan :=
    ⟨⟨by decide +kernel, by decide +kernel, by decide +kernel⟩, by decide +kernel⟩
  have hcolumns : ∀ i ∈ some columnSampleIndex, ∀ p ∈ i.paths, ∃ name, p.steps = [.field name] := by
    simp [columnSampleIndex, integerIndex]
  obtain ⟨r, hr, -, hiff⟩ := run_preserves_columnTests hblock columnSampleTable {} _ hcolumns
  obtain ⟨a, ha, hnone⟩ := Analysis.exists_of_foundWith
    (Analysis.run keyedSample.graph columnSampleTable {} keyedSample.site
      (.ofIndex columnSampleTable (some columnSampleIndex)))
    (fun a => (a.collapsedFilters keyedSample.graph).isEmpty) (by decide +kernel)
  rw [ha] at hr
  cases hr
  refine ⟨hblock, by decide +kernel, a, ha, (hiff a rfl).2.2 fun ρ _ p hp => ?_⟩
  rw [isEmpty_iff.1 hnone] at hp
  cases hp

/-- The filter keeps `b >= 5` as it was written, and `b <= 5` is dropped as implied by the
collapsed equality: a row with 6 is delivered although the block does not select it. -/
theorem deliversRow_collapsed_filter :
    ∃ a, Analysis.run unkeyedSample.graph columnSampleTable {} unkeyedSample.site
        (.ofIndex columnSampleTable (some columnSampleIndex)) = .ok (some a) ∧
      ((a.apply unkeyedSample.graph columnSampleTable unkeyedSample.site
          unkeyedSample.scan).deliversRow unkeyedSample.site unkeyedSample.scan
          (.ofIndex columnSampleTable (some columnSampleIndex)) (fun _ => 6)
        && !unkeyedSample.graph.selectsRow unkeyedSample.site fun _ => 6) :=
  Analysis.exists_of_foundWith _ _ (by decide +kernel)

end ShardedQuery
