import ShardedQuery.Proofs.Access.Choice
import ShardedQuery.Proofs.Access.Frame
import ShardedQuery.Proofs.Graph.Reach

/-!
# The shape of pushed keys

A rewritten scan has equality keys on the first fields of its index and a range, if any, on the next
(`boundsFrom_length`). Each key is the operand of a comparison in the WHERE clause whose path meets
the field of the key, or the key of a map that such a comparison selects. Operands do not depend on
the row, and this outlives the rewriting: all that an edit does to the nodes below them is to take
conjunctions apart (`Graph.Thins`).
-/

namespace ShardedQuery

open Relation List

variable {g h : Graph} {site : Site} {w : Weights} {path : AccessPath} {i : Nat} {r : RangeBounds}
  {ps : List Predicate} {key : String} {id : NodeId}

/-! ## Bounds -/

/-- There are no more equality keys than fields, and a range has a field left and an end. -/
theorem boundsFrom_length (keysAt : Option Nat) (mapKey : Option String) (ps : List Predicate)
    (n pos : Nat) :
    (boundsFrom keysAt mapKey ps n pos).keys.length ≤ n ∧
      ∀ r, (boundsFrom keysAt mapKey ps n pos).range = some r →
        (boundsFrom keysAt mapKey ps n pos).keys.length < n ∧
          (r.lower.isSome ∨ r.upper.isSome) := by
  induction n generalizing pos with
  | zero => exact ⟨Nat.le_refl 0, fun r hr => by cases hr⟩
  | succ n ih =>
    obtain ⟨hkeys, hrange⟩ := ih (pos + 1)
    rw [boundsFrom]
    split
    · refine ⟨Nat.succ_le_succ hkeys, fun r hr => ?_⟩
      exact ⟨Nat.succ_lt_succ (hrange r hr).1, (hrange r hr).2⟩
    · refine ⟨Nat.zero_le _, fun r hr => ⟨Nat.succ_pos n, ?_⟩⟩
      simp only [rangeAt] at hr
      split at hr
      · next hends =>
        cases hr
        simpa using hends
      · cases hr

/-- What is left of a list without repetitions in a row was there. -/
theorem mem_of_mem_eraseRepsBy_loop {α : Type} (r : α → α → Bool) {x : α} :
    ∀ (l : List α) (a : α) (acc : List α), x ∈ eraseRepsBy.loop r a l acc →
      x ∈ acc ∨ x ∈ a :: l
  | [], a, acc, h => by
    rw [eraseRepsBy.loop, mem_reverse, mem_cons] at h
    exact h.elim (fun h => .inr (h ▸ (.head _))) .inl
  | b :: l, a, acc, h => by
    rw [eraseRepsBy.loop] at h
    split at h
    · rcases mem_of_mem_eraseRepsBy_loop r l a acc h with h | h
      · exact .inl h
      · exact .inr (cons_subset_cons a (subset_cons_self b l) h)
    · rcases mem_of_mem_eraseRepsBy_loop r l b (a :: acc) h with h | h
      · rcases mem_cons.1 h with rfl | h
        · exact .inr (.head _)
        · exact .inl h
      · exact .inr (mem_cons_of_mem a h)

theorem mem_of_foldl_choice {α : Type} {pick : Option α → α → Option α}
    (hpick : ∀ best x, pick best x = some x ∨ pick best x = best) {l : List α} {x : α}
    (h : l.foldl pick none = some x) : x ∈ l := by
  refine foldlRecOn (motive := fun best : Option α => ∀ y, best = some y → y ∈ l) l pick
    (fun y hy => by cases hy) (fun best hbest y hy z hz => ?_) x h
  rcases hpick best y with heq | heq
  · rw [heq] at hz
    exact Option.some.inj hz ▸ hy
  · exact hbest z (heq ▸ hz)

/-- The chosen key of a map is one that a predicate selects. -/
theorem exists_of_bestMapKey (h : bestMapKey w ps = some key) : ∃ p ∈ ps, p.mapKey = some key := by
  unfold bestMapKey at h
  have hmem := mem_of_foldl_choice (fun best k => by
    cases best with
    | none => exact .inl rfl
    | some old =>
      dsimp only
      split
      · exact .inl rfl
      · exact .inr rfl) h
  have hsorted : key ∈ (ps.filterMap (·.mapKey)).mergeSort (fun a b => (compare a b).isLE) := by
    revert hmem
    generalize (ps.filterMap (·.mapKey)).mergeSort (fun a b => (compare a b).isLE) = l
    intro hmem
    cases l with
    | nil => cases hmem
    | cons a l =>
      rcases mem_of_mem_eraseRepsBy_loop _ l a [] hmem with hnil | hmem
      · cases hnil
      · exact hmem
  obtain ⟨p, hp, hkey⟩ := mem_filterMap.1 (mem_mergeSort.1 hsorted)
  exact ⟨p, hp, hkey⟩

theorem bestMapKey_of_chooseMapKey (h : (chooseMapKey w path ps).1 = some key) :
    bestMapKey w ps = some key := by
  unfold chooseMapKey at h
  split at h
  · cases h
  · split at h
    · cases h
    · next k hk => exact hk.trans h

/-! ## Nodes that do not depend on rows -/

/-- Neither a query block, a table scan or a boundary, nor a variable other than an external one. -/
def Expr.isRowFree : Expr → Bool
  | .var v => v.kind.isExternal
  | .block _ | .scan _ | .receive _ => false
  | _ => true

namespace Graph

/-- All that is reached from the node is free of rows. -/
def IsRowFree (g : Graph) (id : NodeId) : Prop :=
  ∀ v, ReflTransGen g.IsChild id v → (g.expr v).isRowFree

/-- What the walk over an operand finds to be independent of rows is so, without cycles. -/
theorem isRowFree_of_isRowIndependent (hacyclic : g.AcyclicBelow id)
    (h : g.isRowIndependent id) : g.IsRowFree id := by
  intro v hv
  rw [isRowIndependent, Bool.not_eq_true'] at h
  have hfound := hacyclic.of_not_anyBelow h hv
  revert hfound
  cases g.expr v <;> simp [Expr.isRowFree]

/-- Blocks and scans apart, nothing happens to a node but that a conjunction is taken apart. -/
def Thins (g h : Graph) : Prop :=
  ∀ id, id < g.size → (g.expr id).isBlock = false → (g.expr id).isScan = false →
    h.expr id = g.expr id ∨ ((g.expr id).isConjunction ∧ h.expr id = .call .and [])

theorem Keeps.thins {C : Expr → Prop} (hk : Keeps C g h)
    (hC : ∀ e : Expr, e.isBlock = false → e.isScan = false → C e) : g.Thins h :=
  fun id hlt hblock hscan => .inl (hk.expr_eq id hlt (hC _ hblock hscan))

theorem Rewrites.thins {block scan : NodeId} (hr : Rewrites block scan g h) : g.Thins h :=
  fun id hlt hblock hscan => (hr.old id hlt).eq_or (fun h => by simp [hblock] at h)
    fun h => by simp [hscan] at h

/-- What does not depend on rows does not come to depend on them. -/
theorem Thins.isRowFree (hthin : g.Thins h) (hfree : g.IsRowFree id)
    (hinside : ∀ v, ReflTransGen g.IsChild id v → v < g.size) : h.IsRowFree id := by
  have hexpr {v : NodeId} (hv : ReflTransGen g.IsChild id v) :
      h.expr v = g.expr v ∨ h.expr v = .call .and [] := by
    have hrow := hfree v hv
    refine (hthin v (hinside v hv) ?_ ?_).imp_right And.right
    · cases he : g.expr v <;> first | rfl | simp [he, Expr.isRowFree] at hrow
    · cases he : g.expr v <;> first | rfl | simp [he, Expr.isRowFree] at hrow
  have hreach {v : NodeId} (hv : ReflTransGen h.IsChild id v) :
      ReflTransGen g.IsChild id v := by
    induction hv with
    | refl => exact .refl
    | tail _ hc ih =>
      rcases hexpr ih with he | he
      · rw [IsChild, children, he] at hc
        exact ih.tail hc
      · rw [IsChild, children, he] at hc
        cases hc
  intro v hv
  rcases hexpr (hreach hv) with he | he
  · rw [he]
    exact hfree v (hreach hv)
  · rw [he]
    rfl

theorem isRowFree_of_literal {v : Value} (h : g.expr id = .literal v) : g.IsRowFree id := by
  intro u hu
  rcases hu.cases_head with rfl | ⟨c, hc, -⟩
  · rw [h]
    rfl
  · rw [IsChild, children, h] at hc
    cases hc

end Graph

/-! ## Operands in the WHERE clause -/

namespace Site

/-- A conjunct compares a path of the row, which meets the index field at a position, with the
operand, which does not depend on the row. -/
def ComparesAt (site : Site) (g : Graph) (path : AccessPath) (pos : Nat) (operand : NodeId) : Prop :=
  ∃ c ∈ g.conjuncts site.block, ∃ op any left,
    (g.expr c = .call (.compare op any) [left, operand] ∨
      g.expr c = .call (.compare op any) [operand, left]) ∧
    g.isRowIndependent operand ∧
    ∃ q f m, g.queryPath? site.rowVar left = some q ∧ path.fields[pos]? = some f ∧
      q.matchPath f.path (path.mapValues? == some pos) = some m

/-- A conjunct compares a path that selects the key of a map of the index. -/
def SelectsKey (site : Site) (g : Graph) (path : AccessPath) (key : String) : Prop :=
  ∃ c ∈ g.conjuncts site.block, ∃ op any args, g.expr c = .call (.compare op any) args ∧
    ∃ left ∈ args, ∃ q pos m, g.queryPath? site.rowVar left = some q ∧
      (pos, m) ∈ path.meetings q ∧ m.mapKey = some key

/-- What the WHERE clause mentions is in the graph, and nothing below it lies below itself. -/
structure IsClosed (site : Site) (g : Graph) : Prop where
  acyclic : ∀ c ∈ g.conjuncts site.block, g.AcyclicBelow c
  inside : ∀ c ∈ g.conjuncts site.block, ∀ v, ReflTransGen g.IsChild c v → v < g.size

variable {pos : Nat} {operand : NodeId}

theorem isClosed_of_lt (h : ∀ v, v < g.size → ∀ c ∈ g.children v, c < v)
    (hc : ∀ c ∈ g.conjuncts site.block, c < g.size) : site.IsClosed g where
  acyclic c _ := Graph.acyclicBelow_of_lt h c
  inside c hmem v hv := by
    induction hv with
    | refl => exact hc c hmem
    | tail _ hchild ih => exact (h _ ih _ hchild).trans ih

theorem ComparesAt.exists_isChild (h : site.ComparesAt g path pos operand) :
    ∃ c ∈ g.conjuncts site.block, g.IsChild c operand := by
  obtain ⟨c, hc, op, any, left, he, -⟩ := h
  refine ⟨c, hc, ?_⟩
  rcases he with he | he <;> simp [Graph.IsChild, Graph.children, he, Expr.children]

theorem ComparesAt.isRowFree (h : site.ComparesAt g path pos operand) (hclosed : site.IsClosed g)
    {k : Graph} (hthin : g.Thins k) : k.IsRowFree operand := by
  obtain ⟨c, hc, hchild⟩ := h.exists_isChild
  obtain ⟨-, -, -, -, -, -, hindep, -⟩ := h
  have hacyclic := (hclosed.acyclic c hc).child hchild
  refine hthin.isRowFree (Graph.isRowFree_of_isRowIndependent hacyclic hindep) fun v hv => ?_
  exact hclosed.inside c hc v (.head hchild hv)

end Site

/-- A settled predicate compares its operand with a path that meets its field. -/
theorem comparesAt_of_settled {rs : List Predicate} (hps : readPredicates g path site = .ok ps)
    (hrun : ReflTransGen (Settles path.fansOutAt) (Analysis.contenders w path ps) rs)
    {r : Predicate} (hr : r ∈ rs) : site.ComparesAt g path r.position r.operand := by
  obtain ⟨p, hp, hpr⟩ := exists_of_forall₂ (Analysis.restates_settled hps hrun) hr
  obtain ⟨hc, left, hread⟩ := isReadAt_of_mem hps hp
  obtain ⟨q, m, others, hq, -, hmeet, -⟩ := hread.query
  obtain ⟨f, hf, hmatch⟩ :=
    AccessPath.mem_meetings.1 (hmeet ▸ (.head _) : (p.position, m) ∈ path.meetings q)
  rw [hpr.position_eq, hpr.operand_eq]
  obtain ⟨op, hcall⟩ := hread.conjunct
  exact ⟨p.conjunct, hc, op, p.any, left, hcall.imp And.left And.left, hread.independent, q, f, m,
    hq, hf, hmatch⟩

theorem selectsKey_of_mapKey (hps : readPredicates g path site = .ok ps) {p : Predicate}
    (hp : p ∈ ps) (hkey : p.mapKey = some key) : site.SelectsKey g path key := by
  obtain ⟨hc, left, hread⟩ := isReadAt_of_mem hps hp
  obtain ⟨op, args, hcall, hleft⟩ := hread.exists_call
  obtain ⟨q, m, others, hq, -, hmeet, hm, -⟩ := hread.query
  exact ⟨p.conjunct, hc, op, p.any, args, hcall, left, hleft, q, p.position, m, hq,
    hmeet ▸ (.head _), hm.trans hkey⟩

/-! ## The rewritten scan -/

/-- The keys and the range of a scan through an access path, in the graph `h` that comes of `g`. -/
structure TableScan.IsKeyed (s : TableScan) (site : Site) (path : AccessPath) (t : Table)
    (g h : Graph) : Prop where
  index_eq : s.index = path.name?
  length_keys : s.keys.length ≤ path.fields.length
  /-- A range is on the field after the keys and has an end. -/
  range : ∀ r, s.range = some r →
    r.position = s.keys.length ∧ r.position < path.fields.length ∧ r.ends ≠ []
  /-- A key is the constant key of a map, at the field that holds the keys, or an operand. -/
  key : ∀ i id, s.keys[i]? = some id →
    (path.mapKeys? = some i ∧ ∃ key, h.expr id = .literal (.string key) ∧
      site.SelectsKey g path key) ∨ site.ComparesAt g path i id
  ends : ∀ r, s.range = some r → ∀ id ∈ r.ends, site.ComparesAt g path r.position id
  rowFree : ∀ id, (id ∈ s.keys ∨ ∃ r, s.range = some r ∧ id ∈ r.ends) → h.IsRowFree id
  singlePartition : s.singlePartition ↔ path.isPrimary ∧ t.shardKeyLength ≤ s.keys.length

namespace Analysis

theorem thins_apply (a : Analysis) (g : Graph) (t : Table) (site : Site) (scan : NodeId) :
    g.Thins (a.apply g t site scan) :=
  ((a.rewrites_grownGraph g).trans (a.rewrites_apply g t site)).thins

section
variable {a : Analysis} {t : Table}

theorem IsFound.length_bounds (h : a.IsFound g t w site path) :
    a.bounds.keys.length ≤ path.fields.length ∧
      ∀ r, a.bounds.range = some r → a.bounds.keys.length < path.fields.length ∧
        (r.lower.isSome ∨ r.upper.isSome) := by
  obtain ⟨ps, -, hchoose⟩ := h.chosen
  obtain ⟨-, rs, -, hbounds, -⟩ := choose_eq_some.1 hchoose
  rw [hbounds]
  exact boundsFrom_length _ _ _ _ _

/-- Where the key of a map is to bound the scan, one is chosen. -/
theorem IsFound.isSome_mapKey (h : a.IsFound g t w site path)
    (hk : KeySource.mapKey ∈ a.bounds.keys) : a.mapKey.isSome := by
  obtain ⟨ps, rs, hps, -, hfits, -⟩ := h.exists_settled
  obtain ⟨i, hi⟩ := getElem?_of_mem hk
  rw [h.mapKey_eq hps]
  exact (hfits.keys i _ hi).2

/-- An equality key at its position comes from the WHERE clause. -/
theorem IsFound.key_comes_from (h : a.IsFound g t w site path) {k : KeySource}
    (hk : a.bounds.keys[i]? = some k) :
    (∃ p, k = .predicate p ∧ site.ComparesAt g path i p.operand) ∨
      ∃ key, k = .mapKey ∧ a.mapKey = some key ∧ path.mapKeys? = some i ∧
        site.SelectsKey g path key := by
  obtain ⟨ps, rs, hps, hsettled, hfits, -⟩ := h.exists_settled
  have hfit := hfits.keys i k hk
  rw [Nat.zero_add] at hfit
  cases k with
  | predicate p =>
    obtain ⟨hp, hat, -⟩ := hfit
    have hcompares := comparesAt_of_settled hps hsettled hp
    rw [(Predicate.boundsAt_iff.1 hat).2.1] at hcompares
    exact .inl ⟨p, rfl, hcompares⟩
  | mapKey =>
    obtain ⟨hpos, hsome⟩ := hfit
    obtain ⟨key, hchosen⟩ := Option.isSome_iff_exists.1 hsome
    obtain ⟨p, hp, hpkey⟩ := exists_of_bestMapKey (bestMapKey_of_chooseMapKey hchosen)
    exact .inr ⟨key, rfl, (h.mapKey_eq hps).trans hchosen, hpos, selectsKey_of_mapKey hps hp hpkey⟩

/-- Each key of the scan stands for one of the bounds, at the same place. -/
theorem IsFound.key_at (h : a.IsFound g t w site path) (scan : NodeId)
    (hid : (a.keyNodes g).1[i]? = some id) :
    (path.mapKeys? = some i ∧ ∃ key, (a.apply g t site scan).expr id = .literal (.string key) ∧
      site.SelectsKey g path key) ∨ site.ComparesAt g path i id := by
  have hkeys := a.isKey_apply (g := g) t site scan
  obtain ⟨hi, hget⟩ := List.getElem?_eq_some_iff.1 hid
  have hi' : i < a.bounds.keys.length := hkeys.length_eq ▸ hi
  have hstands := (forall₂_iff_get.1 hkeys).2 i hi' hi
  simp only [get_eq_getElem, hget] at hstands
  rcases h.key_comes_from (getElem?_eq_getElem hi') with
    ⟨p, hk, hcompares⟩ | ⟨key, hk, hkey, hpos, hselects⟩
  · rw [hk] at hstands
    exact .inr (hstands ▸ hcompares)
  · rw [hk, hkey] at hstands
    exact .inl ⟨hpos, key, hstands, hselects⟩

/-- A range is on the field after the keys, and its ends come from the WHERE clause. -/
theorem IsFound.range_comes_from (h : a.IsFound g t w site path) (hr : a.bounds.range = some r) :
    r.position = a.bounds.keys.length ∧
      ∀ id ∈ r.toFieldRange.ends, site.ComparesAt g path r.position id := by
  obtain ⟨ps, rs, hps, hsettled, hfits, -⟩ := h.exists_settled
  refine ⟨(hfits.position r hr).trans (Nat.zero_add _), fun id hid => ?_⟩
  have hof {p : Predicate} (hp : p ∈ rs) (hat : p.boundsAt r.position) :
      site.ComparesAt g path r.position p.operand := by
    rw [← (Predicate.boundsAt_iff.1 hat).2.1]
    exact comparesAt_of_settled hps hsettled hp
  rcases mem_append.1 hid with hid | hid
  · obtain ⟨p, hp, rfl⟩ := Option.map_eq_some_iff.1 (Option.mem_toList.1 hid)
    obtain ⟨hmem, hat, -⟩ := hfits.lower r p hr hp
    exact hof hmem hat
  · obtain ⟨p, hp, rfl⟩ := Option.map_eq_some_iff.1 (Option.mem_toList.1 hid)
    obtain ⟨hmem, hat, -⟩ := hfits.upper r p hr hp
    exact hof hmem hat

end

theorem ends_toFieldRange_ne_nil (h : r.lower.isSome ∨ r.upper.isSome) :
    r.toFieldRange.ends ≠ [] := by
  intro hnil
  obtain ⟨hlower, hupper⟩ := append_eq_nil_iff.1 hnil
  rcases h with hsome | hsome
  · obtain ⟨p, hp⟩ := Option.isSome_iff_exists.1 hsome
    simp [RangeBounds.toFieldRange, hp] at hlower
  · obtain ⟨p, hp⟩ := Option.isSome_iff_exists.1 hsome
    simp [RangeBounds.toFieldRange, hp] at hupper

/-- Whatever an analysis finds, the rewritten scan has equality keys on the first fields of the
access path and a range at most on the next, all of them operands of the WHERE clause that do not
depend on the row. -/
theorem apply_isKeyed {a : Analysis} {g : Graph} {t : Table} {w : Weights} {site : Site}
    {path : AccessPath} {scan : NodeId} {old : TableScan} (hrun : run g t w site path = .ok (some a))
    (hscan : g.scan? scan = some old) (hclosed : site.IsClosed g) :
    ∃ s, (a.apply g t site scan).scan? scan = some s ∧ s.keys.length = a.numKeys ∧
      s.IsKeyed site path t g (a.apply g t site scan) := by
  have hfound := isFound_of_run hrun
  obtain ⟨hlength, hrange⟩ := hfound.length_bounds
  have hthin := a.thins_apply g t site scan
  have hnum := (a.isKey_apply (g := g) t site scan).length_eq
  have hbounds {r : FieldRange} (hr : a.bounds.range.map (·.toFieldRange) = some r) :
      ∃ r', a.bounds.range = some r' ∧ r'.toFieldRange = r := Option.map_eq_some_iff.1 hr
  refine ⟨_, a.scan?_apply t hscan, hnum.symm, ?_⟩
  constructor
  case index_eq => rw [← hfound.path_eq]; rfl
  case length_keys => exact hnum ▸ hlength
  case range =>
    intro r hr
    obtain ⟨r, hbound, rfl⟩ := hbounds hr
    have hposition : r.toFieldRange.position = _ := (hfound.range_comes_from hbound).1
    exact ⟨hposition.trans hnum, hposition ▸ (hrange r hbound).1,
      ends_toFieldRange_ne_nil (hrange r hbound).2⟩
  case key => exact fun i id hid => hfound.key_at scan hid
  case ends =>
    intro r hr id hid
    obtain ⟨r, hbound, rfl⟩ := hbounds hr
    exact (hfound.range_comes_from hbound).2 id hid
  case rowFree =>
    rintro id (hid | ⟨r, hr, hid⟩)
    · obtain ⟨i, hi⟩ := mem_iff_getElem?.1 hid
      rcases hfound.key_at scan hi with ⟨-, key, hlit, -⟩ | hcompares
      · exact Graph.isRowFree_of_literal hlit
      · exact hcompares.isRowFree hclosed hthin
    · obtain ⟨r, hbound, rfl⟩ := hbounds hr
      exact ((hfound.range_comes_from hbound).2 id hid).isRowFree hclosed hthin
  case singlePartition =>
    rw [← hfound.path_eq]
    simp only [TableScan.accessed, isCompleteShardKey, numKeys, ← hnum, Bool.and_eq_true]
    exact and_congr_right fun _ => decide_eq_true_iff

end Analysis

/-- The index of a table on a column `a`, on the keys of a map `m` and on its values. -/
def entryIndex : Index :=
  ⟨"akv", "t", [⟨[.field "a"]⟩, ⟨[.field "m", .keys]⟩, ⟨[.field "m", .values]⟩],
    [.integer, .string, .integer]⟩

def entryTable : Table :=
  { name := "t"
    fields := [⟨"a", .integer, false, 0⟩, ⟨"m", .map .integer, true, 1⟩]
    primaryKey := ["a"]
    shardKeyLength := 1
    indexes := [entryIndex] }

/-- `FROM t WHERE a = x AND m.k > x`, with an external variable `x`. -/
def entryBlock : ScanBlock :=
  .over entryTable.rowType [] fun row g =>
    let (x, g) := g.addExternal "x" (.one .integer)
    let (a, g) := g.addField row "a"
    let (m, g) := g.addField row "m"
    let (entry, g) := g.addField m "k"
    let (equal, g) := g.addCall (.compare .eq false) [a, x]
    let (above, g) := g.addCall (.compare .gt false) [entry, x]
    ([equal, above], g)

/-- The keys are the operand of the equality and the key of the entry; the range is on the values. -/
theorem apply_isKeyed_entry :
    (entryBlock.graph.scan? entryBlock.scan).isSome ∧ entryBlock.site.IsClosed entryBlock.graph ∧
    ∃ a, Analysis.run entryBlock.graph entryTable {} entryBlock.site (.secondary entryIndex) =
        .ok (some a) ∧
      ∃ s, (a.apply entryBlock.graph entryTable entryBlock.site entryBlock.scan).scan?
          entryBlock.scan = some s ∧ s.keys.length = 2 ∧ s.range.isSome ∧
        s.IsKeyed entryBlock.site (.secondary entryIndex) entryTable entryBlock.graph
          (a.apply entryBlock.graph entryTable entryBlock.site entryBlock.scan) := by
  have hscan : (entryBlock.graph.scan? entryBlock.scan).isSome := by decide +kernel
  have hclosed : entryBlock.site.IsClosed entryBlock.graph :=
    Site.isClosed_of_lt (by decide +kernel) (by decide +kernel)
  obtain ⟨a, hrun, htest⟩ := Analysis.exists_of_foundWith
    (Analysis.run entryBlock.graph entryTable {} entryBlock.site (.secondary entryIndex))
    (fun a => a.numKeys == 2 && ((a.apply entryBlock.graph entryTable entryBlock.site
      entryBlock.scan).scan? entryBlock.scan).any (·.range.isSome)) (by decide +kernel)
  obtain ⟨old, hold⟩ := Option.isSome_iff_exists.1 hscan
  obtain ⟨s, hs, hlength, hkeyed⟩ := Analysis.apply_isKeyed hrun hold hclosed
  rw [hs, Bool.and_eq_true, beq_iff_eq] at htest
  exact ⟨hscan, hclosed, a, hrun, s, hs, hlength.trans htest.1, htest.2, hkeyed⟩

end ShardedQuery
