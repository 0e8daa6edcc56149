import ShardedQuery.Proofs.Access.Locality
import ShardedQuery.Proofs.Access.Order

/-!
# Covering scans

A scan is covering if the block can be evaluated on index entries alone. This is decided before the
block is rewritten. In the rewritten block, whatever way leads down from a select expression, a sort
key, a conjunct or the filter of the scan to the row variable, it goes through a chain of fields that
index entries hold (`Analysis.apply_covering`).
-/

namespace ShardedQuery

open ShardedQuery.Graph List

variable {c rowVar scan v : NodeId} {g h : Graph} {path : AccessPath} {t : Table}
  {way : List NodeId} {b : Block} {x : Variable} {a : Analysis} {site : Site} {s : TableScan}
  {w : Weights}

namespace Graph

/-! ## Ways down -/

/-- The nodes on a way down from one node to another. -/
inductive IsWay (g : Graph) : NodeId → NodeId → List NodeId → Prop
  | here (v : NodeId) : IsWay g v v [v]
  | down {v c w : NodeId} {way : List NodeId} (hc : g.IsChild v c) (hway : IsWay g c w way) :
    IsWay g v w (v :: way)

section
variable {w : NodeId}

theorem IsWay.reflTransGen (hway : g.IsWay v w way) : Relation.ReflTransGen g.IsChild v w := by
  induction hway with
  | here => exact .refl
  | down hc _ ih => exact .head hc ih

theorem IsWay.mem_head (hway : g.IsWay v w way) : v ∈ way := by
  cases hway <;> exact .head _

theorem IsWay.cases_down (hway : g.IsWay v w way) (hne : v ≠ w) :
    ∃ c rest, g.IsChild v c ∧ g.IsWay c w rest ∧ way = v :: rest := by
  cases hway with
  | here => exact absurd rfl hne
  | down hc hrest => exact ⟨_, _, hc, hrest, rfl⟩

/-- A way over local nodes was there before. -/
theorem KeepsLocal.isWay (hk : g.KeepsLocal h) (hv : g.IsLocal v) (hway : h.IsWay v w way) :
    g.IsWay v w way := by
  induction hway with
  | here v => exact .here v
  | @down v c w way hc _ ih =>
    rcases hk.expr v hv with hexpr | ⟨-, hnone⟩
    · have hchild : g.IsChild v c := by rwa [IsChild, children, hexpr] at hc
      exact .down hchild (ih (hv.child hchild))
    · rw [IsChild, hnone] at hc
      cases hc

end

end Graph

/-! ## What index entries hold -/

/-- The fields are those on the path of an index field, or a single column of the primary key. -/
def AccessPath.Holds (path : AccessPath) (t : Table) (names : List String) : Prop :=
  (∃ f ∈ path.fields, f.path.steps = names.map .field) ∨ ∃ column ∈ t.primaryKey, names = [column]

theorem AccessPath.exists_secondary_of_mem_all (h : path ∈ all t)
    (hprimary : path.isPrimary = false) : ∃ i ∈ t.indexes, secondary i = path := by
  rcases mem_cons.1 h with rfl | h
  · cases hprimary
  · exact mem_map.1 h

/-- A way to the row variable goes through fields that index entries hold. -/
def Graph.GoesThrough (g : Graph) (path : AccessPath) (t : Table) (rowVar : NodeId)
    (way : List NodeId) : Prop :=
  ∃ id ∈ way, ∃ names, g.IsFieldChain rowVar id names ∧ path.Holds t names

theorem Graph.GoesThrough.cons (h : g.GoesThrough path t rowVar way) :
    g.GoesThrough path t rowVar (v :: way) := by
  obtain ⟨id, hid, hchain⟩ := h
  exact ⟨id, .tail _ hid, hchain⟩

theorem Graph.GoesThrough.keep (hk : g.Keeps Expr.IsSteady h)
    (hway : g.GoesThrough path t rowVar way) : h.GoesThrough path t rowVar way := by
  obtain ⟨id, hid, names, hchain, hholds⟩ := hway
  exact ⟨id, hid, names, hchain.keep hk, hholds⟩

namespace Analysis

section
variable {id : NodeId} (hpath : path ∈ AccessPath.all t)
include hpath

theorem holds_of_isResident {q : QueryPath} (h : isResident t path q)
    (hclimbs : g.Climbs rowVar id q.steps) :
    ∃ names, g.IsFieldChain rowVar id names ∧ path.Holds t names := by
  rw [isResident, Bool.or_eq_true] at h
  rcases h with h | h
  · split at h
    · next name input hsteps =>
      refine ⟨[name], hclimbs.isFieldChain (by rw [hsteps]; rfl), .inr ⟨name, ?_, rfl⟩⟩
      rw [Table.keyPosition?, findIdx?_isSome, any_eq_true] at h
      obtain ⟨column, hcolumn, heq⟩ := h
      rwa [← eq_of_beq heq]
    · cases h
  · obtain ⟨f, hf, hholds⟩ := any_eq_true.1 h
    obtain ⟨hsteps, hchain⟩ := AccessPath.isFieldChain_of_holds hpath hf hholds hclimbs
    exact ⟨_, hchain, .inl ⟨f, hf, hsteps⟩⟩

/-- Where an expression can be evaluated on index entries, it takes from the row only what these
hold. -/
theorem goesThrough_of_evaluableWithin (hx : g.expr rowVar = .var x) {d : Nat}
    (h : evaluableWithin g t path rowVar d id) (hway : g.IsWay id rowVar way) :
    g.GoesThrough path t rowVar way := by
  induction d generalizing id way with
  | zero => cases h
  | succ d ih =>
    rw [evaluableWithin] at h
    split at h
    · next q hq =>
      obtain ⟨hunnested, hresident⟩ := Bool.and_eq_true_iff.1 h
      obtain ⟨-, -, ⟨-, hclimbs⟩ | ⟨u, y, e, taken, rest, hsome, -⟩⟩ := climbs_of_queryPath? hq
      · exact ⟨id, hway.mem_head, holds_of_isResident hpath hresident hclimbs⟩
      · rw [hsome] at hunnested
        cases hunnested
    · next hnone =>
      have hne : id ≠ rowVar := by
        rintro rfl
        rw [queryPath?_self hx] at hnone
        cases hnone
      obtain ⟨c, rest, hc, hrest, rfl⟩ := hway.cases_down hne
      split at h
      · next y hy =>
        rw [IsChild, children_of_var hy] at hc
        cases hc
      · cases h
      · cases h
      · cases h
      · exact (ih (all_eq_true.1 h c hc) hrest).cons

end

section
variable (hg : g.Sound) (hs : g.ScansLocally) (hpath : path ∈ AccessPath.all t)
  (hsingle : path.isMultiKey = false)
include hg hs hpath hsingle

/-- A comparison of a path with an operand takes from the row what the path takes. -/
theorem goesThrough_of_checksPath (hx : g.expr site.rowVar = .var x) (hrow : x.kind = .row)
    (h : site.ChecksPath g path c) (hway : g.IsWay c site.rowVar way) :
    g.GoesThrough path t site.rowVar way := by
  obtain ⟨op, any, left, operand, q, f, m, allowKey, hcall, hfree, hq, hf, hm, hwidened⟩ := h
  have hne : c ≠ site.rowVar := by
    rintro rfl
    rcases hcall with hcall | hcall <;> cases hx.symm.trans hcall
  obtain ⟨v, rest, hv, hrest, rfl⟩ := hway.cases_down hne
  have hside : v = left ∨ v = operand := by
    rcases hcall with hcall | hcall <;>
      simpa [IsChild, children, hcall, Expr.children, or_comm] using hv
  rcases hside with rfl | rfl
  · refine GoesThrough.cons ?_
    obtain ⟨-, -, ⟨-, hclimbs⟩ | ⟨u, y, e, taken, after, -, hu, hy, -, -, -, hclimbs, -, hall⟩⟩ :=
      climbs_of_queryPath? hq
    · have hfan : f.fansOut = false := by simpa using any_eq_false.1 hsingle f hf
      obtain ⟨hsteps, hchain⟩ :=
        AccessPath.isFieldChain_of_matchPath hpath hf hfan hm hclimbs
      exact ⟨v, hrest.mem_head, _, hchain, .inl ⟨f, hf, hsteps⟩⟩
    · -- Nothing leads from a further variable to the row variable.
      have hplain := (matchSteps_unrestricted hm hwidened).2
      rcases hclimbs.reached (fun n hn => hplain n (hall ▸ mem_append_right _ hn))
        (children_of_var hy) hrest.reflTransGen with heq | hnav
      · exact absurd heq.symm hu
      · rw [navigation?, hx] at hnav
        cases hnav
  · have hrowFree := isRowFree_of_isRowIndependent (hs.acyclicBelow hg v) hfree _
      hrest.reflTransGen
    rw [hx] at hrowFree
    simp [Expr.isRowFree, hrow, VarKind.isExternal] at hrowFree

end

/-! ## The rewritten block -/

theorem covering_of_run (h : run g t w site path = .ok (some a)) :
    a.covering = a.isCovering g t site := by
  obtain ⟨ps, -, h⟩ := ok_of_bind h
  split at h
  · cases h
  · cases h
    rfl

/-- What is asked of a covering scan. -/
structure Covers (a : Analysis) (g : Graph) (t : Table) (site : Site) (path : AccessPath)
    (b : Block) : Prop where
  secondary : path.isPrimary = false
  single : path.isMultiKey = false
  star_eq : b.star = false
  length_le : b.entries.length ≤ 1
  evaluable : ∀ v ∈ b.select.map (·.expr) ++ b.sort.map (·.expr) ++ a.remaining g site,
    isEvaluable g t path site.rowVar v

theorem covers_of_isCovering (hb : g.block? site.block = some b) (h : a.isCovering g t site) :
    a.Covers g t site a.path b := by
  unfold isCovering at h
  split at h
  · cases h
  · next hpath =>
    rw [Bool.or_eq_true, not_or, Bool.not_eq_true, Bool.not_eq_true] at hpath
    rw [hb] at h
    dsimp only at h
    split at h
    · cases h
    · next hblock =>
      simp only [Bool.or_eq_true, not_or, Bool.not_eq_true, decide_eq_true_eq, Nat.not_lt] at hblock
      exact ⟨hpath.1, hpath.2, hblock.1, hblock.2, all_eq_true.1 h⟩

/-- A conjunct that is left was one before, or a part of the only one that is left. -/
theorem mem_conjuncts_apply (hg : g.Sound) (hb : g.block? site.block = some b)
    (hs : g.scan? scan = some s) (hv : v ∈ (a.apply g t site scan).conjuncts site.block) :
    v ∈ a.remaining g site ∨ ∃ c ∈ a.remaining g site, (g.expr c).isConjunction ∧
      (a.apply g t site scan).IsChild c v := by
  obtain ⟨rank, ho⟩ := hg.ordered
  have hsite := hg.siteScans hb hs
  by_cases hflat : ∀ c, a.remaining g site = [c] → c < g.size ∧ (g.expr c).isConjunction = false
  · rw [a.conjuncts_apply t hsite hflat] at hv
    exact .inl hv
  · obtain ⟨c, hc⟩ := not_forall.1 hflat
    obtain ⟨hsingle, hc⟩ := Classical.not_imp.1 hc
    have hmem : c ∈ a.remaining g site := hsingle ▸ mem_singleton_self c
    have hlt : c < g.size := (ho.rank_conjunct (mem_filter.1 hmem).1).2
    have hconj : (g.expr c).isConjunction := by simpa [hlt] using hc
    obtain ⟨entries, hblock, -⟩ := a.block?_apply t scan hb
    rw [a.remaining_accessGraph t hsite, hsingle] at hblock
    have hcondition : (a.accessGraph g t scan).newCondition site.block [c] = some c := rfl
    rw [conjuncts_eq_parts, hblock, Option.bind_some, hcondition, Option.elim_some,
      parts] at hv
    split at hv
    · next args hcall =>
      refine .inr ⟨c, hmem, hconj, ?_⟩
      rw [IsChild, children, hcall]
      exact hv
    · rw [mem_singleton.1 hv]
      exact .inl hmem

/-- A chain of fields ends in a field or in its base, not in a conjunction. -/
theorem not_isFieldChain_of_isConjunction {names : List String} (hx : g.expr rowVar = .var x)
    (hc : (g.expr c).isConjunction) : ¬ g.IsFieldChain rowVar c names := by
  intro hchain
  cases hchain with
  | base =>
    rw [hx] at hc
    cases hc
  | field he _ =>
    rw [he] at hc
    cases hc

section
variable (hg : g.Sound) (hpath : path ∈ AccessPath.all t) (hx : g.expr site.rowVar = .var x)
include hg hpath hx

theorem goesThrough_of_isEvaluable (hlt : v < g.size) (h : isEvaluable g t path site.rowVar v)
    (hway : (a.apply g t site scan).IsWay v site.rowVar way) :
    g.GoesThrough path t site.rowVar way := by
  have hkeep := (a.keepsLocal_grownGraph g).trans (a.keepsLocal_apply g t site scan)
  exact goesThrough_of_evaluableWithin hpath hx h
    (hkeep.isWay (hg.isLocal_of_evaluableWithin hlt h) hway)

theorem goesThrough_of_mem_remaining (hb : g.block? site.block = some b)
    (hscan : g.scan? scan = some s)
    (heval : ∀ c ∈ a.remaining g site, isEvaluable g t path site.rowVar c)
    (hv : v ∈ (a.apply g t site scan).conjuncts site.block)
    (hway : (a.apply g t site scan).IsWay v site.rowVar way) :
    g.GoesThrough path t site.rowVar way := by
  obtain ⟨rank, ho⟩ := hg.ordered
  have hlt {c : NodeId} (hc : c ∈ a.remaining g site) : c < g.size :=
    (ho.rank_conjunct (mem_filter.1 hc).1).2
  rcases mem_conjuncts_apply hg hb hscan hv with hv | ⟨c, hc, hconj, hchild⟩
  · exact goesThrough_of_isEvaluable hg hpath hx (hlt hv) (heval v hv) hway
  · obtain ⟨id, hid, names, hchain, hholds⟩ :=
      goesThrough_of_isEvaluable hg hpath hx (hlt hc) (heval c hc) (.down hchild hway)
    rcases mem_cons.1 hid with rfl | hid
    · exact absurd hchain (not_isFieldChain_of_isConjunction hx hconj)
    · exact ⟨id, hid, names, hchain, hholds⟩

/-- What filters index entries takes from the row what these hold. -/
theorem goesThrough_of_mem_filter (hs : g.ScansLocally) (hsingle : path.isMultiKey = false)
    (hrow : x.kind = .row) (hfound : a.IsFound g t w site path)
    (hv : ((a.keyedGraph g).addCondition a.filterConjuncts).1 = some v)
    (hway : (a.apply g t site scan).IsWay v site.rowVar way) :
    g.GoesThrough path t site.rowVar way := by
  have hgrown := a.keepsLocal_grownGraph g
  have hkeep := a.keepsLocal_apply g t site scan
  have hconjunct {c : NodeId} {way : List NodeId} (hc : c ∈ a.filterConjuncts)
      (hway : (a.grownGraph g).IsWay c site.rowVar way) : g.GoesThrough path t site.rowVar way := by
    have hway := hgrown.isWay (hfound.isLocal_filter hg hs hc) hway
    rcases hfound.filter_cases hc with hchecks | heval
    · exact goesThrough_of_checksPath hg hs hpath hsingle hx hrow hchecks hway
    · exact goesThrough_of_evaluableWithin hpath hx heval hway
  have hslot := hfound.isLocal_slot hg hs (s := default) (c := v)
    (by simp [TableScan.accessed, Expr.children, hv])
  have hway := hkeep.isWay hslot hway
  rcases addCondition_spec hv with hone | ⟨-, -, hcall⟩
  · exact hconjunct (hone ▸ mem_singleton_self v) hway
  · have hne : v ≠ site.rowVar := by
      rintro rfl
      have hexpr := (a.keeps_grownGraph g).expr_eq site.rowVar (lt_size_of_expr (by simp [hx]))
        trivial
      rw [hx] at hexpr
      cases hexpr.symm.trans hcall
    obtain ⟨c, rest, hc, hrest, rfl⟩ := hway.cases_down hne
    rw [IsChild, children, grownGraph, hcall] at hc
    exact (hconjunct hc hrest).cons

end

section
variable {block : NodeId} {e : FromEntry} {s' : TableScan}

/-- A covering scan holds all that is asked for: the block has no other FROM entry, it names what it
selects, and whatever way leads down to the row variable from what it selects, sorts by or checks, or
from what the scan checks, goes through the fields of one path of the index or through a column of the
primary key. -/
theorem apply_covering (hg : g.Sound) (hs : g.ScansLocally) (hpath : path ∈ AccessPath.all t)
    (hb : g.block? block = some b) (he : b.entries.head? = some e)
    (hscan : g.scan? e.domain = some s) (hrun : run g t w ⟨block, e.var⟩ path = .ok (some a))
    (hh : a.apply g t ⟨block, e.var⟩ e.domain = h) (hs' : h.scan? e.domain = some s')
    (hcovering : s'.covering) :
    ∃ b' i, h.block? block = some b' ∧ b'.star = false ∧ b'.entries = [e] ∧ i ∈ t.indexes ∧
      s'.index = some i.name ∧
      ∀ v ∈ b'.select.map (·.expr) ++ b'.sort.map (·.expr) ++ h.conjuncts block ++ s'.filter.toList,
        ∀ way, h.IsWay v e.var way → h.GoesThrough (.secondary i) t e.var way := by
  let site : Site := ⟨block, e.var⟩
  have hsite : g.block? site.block = some b := hb
  have haccessed : (a.apply g t site e.domain).scan? e.domain = _ := a.scan?_apply t hscan
  subst hh
  cases haccessed.symm.trans hs'
  have hfound := isFound_of_run hrun
  have hcovers := covers_of_isCovering hsite ((covering_of_run hrun).symm.trans hcovering)
  rw [hfound.path_eq] at hcovers
  obtain ⟨i, hi, rfl⟩ := AccessPath.exists_secondary_of_mem_all hpath hcovers.secondary
  obtain ⟨x, hx, hrow, -⟩ := hg.scanned block b e s hb he hscan
  have hx : g.expr site.rowVar = .var x := hx
  obtain ⟨entries, hblock, hhead, hsub⟩ := a.block?_apply t e.domain hsite
  refine ⟨_, i, hblock, hcovers.star_eq, ?_, hi, ?_, fun v hv way hway => ?_⟩
  · obtain ⟨rest, hrest⟩ := head?_eq_some_iff.1 (hhead.trans he)
    have hlength := Nat.le_trans hsub.length_le hcovers.length_le
    rw [hrest, length_cons] at hlength
    rw [hrest, length_eq_zero_iff.1 (Nat.le_zero.1 (Nat.le_of_succ_le_succ hlength))]
  · simp only [TableScan.accessed, hfound.path_eq]
    rfl
  · refine Graph.GoesThrough.keep (a.applied t (hg.siteScans hb hscan)).keeps ?_
    have hblockSlot {u : NodeId} (hu : u ∈ b.select.map (·.expr) ++ b.sort.map (·.expr)) :
        u < g.size := by
      have hexpr := Graph.block?_eq_some.1 hb
      refine hg.children_lt (p := block) (by rw [hexpr]; rfl) ?_
      rw [Graph.children, hexpr]
      rcases mem_append.1 hu with hu | hu <;> simp [Expr.children, mem_map.1 hu]
    rcases mem_append.1 hv with hv | hv
    · rcases mem_append.1 hv with hv | hv
      · exact goesThrough_of_isEvaluable hg hpath hx (hblockSlot hv)
          (hcovers.evaluable v (mem_append_left _ hv)) hway
      · exact goesThrough_of_mem_remaining hg hpath hx hsite hscan
          (fun c hc => hcovers.evaluable c (mem_append_right _ hc)) hv hway
    · exact goesThrough_of_mem_filter hg hpath hx hs hcovers.single hrow hfound
        (Option.mem_toList.1 hv) hway

end

end Analysis

/-! ## A sample -/

/-- `b > 2 AND a < b`, selecting `a` and `b`, `ORDER BY b`. -/
def coveredLayout : Layout :=
  Layout.script ⟨[pairTable]⟩
    [.draft, .scanTable "t" "t" [], .value (.field 1 "a"), .value (.field 1 "b"),
      .value (.literal (.integer 2)), .value (.call (.compare .gt false) [3, 4]),
      .value (.call (.compare .lt false) [2, 3]), .restrict 5, .restrict 6, .select "x" 2,
      .select "y" 3, .sort 3 .asc, .build]

/-- The index on `b`, which bounds the scan and checks `a < b` on its entries. -/
def coveringIndex : Index := integerIndex "ib" ["b"]

theorem apply_covering_filter :
    ∃ a h s, Analysis.run coveredLayout.graph pairTable {} ⟨8, 1⟩ (.secondary coveringIndex) =
        .ok (some a) ∧ a.apply coveredLayout.graph pairTable ⟨8, 1⟩ 0 = h ∧
      h.scan? 0 = some s ∧ s.covering ∧ a.filterConjuncts = [6] ∧
      ∃ b i, h.block? 8 = some b ∧ b.star = false ∧ b.entries = [⟨0, 1⟩] ∧ i ∈ pairTable.indexes ∧
        s.index = some i.name ∧
        ∀ v ∈ b.select.map (·.expr) ++ b.sort.map (·.expr) ++ h.conjuncts 8 ++ s.filter.toList,
          ∀ way, h.IsWay v 1 way → h.GoesThrough (.secondary i) pairTable 1 way := by
  have hl : coveredLayout.IsReached _ := Layout.isReached_script _ _
  have hblock : coveredLayout.graph.block? 8 = some
      { entries := [⟨0, 1⟩], condition := some 7, select := [⟨"x", 2⟩, ⟨"y", 3⟩],
        sort := [⟨3, .asc⟩] } := by decide +kernel
  have hscan : coveredLayout.graph.scan? 0 = some
      { table := "t", hints := [], rowType := pairTable.rowType } := by decide +kernel
  have hpath : AccessPath.secondary coveringIndex ∈ AccessPath.all pairTable := by decide +kernel
  have hok : ((Analysis.run coveredLayout.graph pairTable {} ⟨8, 1⟩
      (.secondary coveringIndex)).toOption.bind id).any
        (fun a => a.covering && a.filterConjuncts == [6]) := by decide +kernel
  cases hrun : Analysis.run coveredLayout.graph pairTable {} ⟨8, 1⟩ (.secondary coveringIndex) with
  | error e =>
    rw [hrun] at hok
    cases hok
  | ok found =>
    cases found with
    | none =>
      rw [hrun] at hok
      cases hok
    | some a =>
      rw [hrun] at hok
      obtain ⟨hcovering, hfilter⟩ := Bool.and_eq_true_iff.1 hok
      have hs : (a.apply coveredLayout.graph pairTable ⟨8, 1⟩ 0).scan? 0 = _ :=
        a.scan?_apply pairTable hscan
      exact ⟨a, _, _, rfl, rfl, hs, hcovering, eq_of_beq hfilter,
        Analysis.apply_covering hl.sound hl.scansLocally hpath hblock rfl hscan hrun rfl hs hcovering⟩

end ShardedQuery
