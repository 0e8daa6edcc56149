import ShardedQuery.Proofs.Access.Upkeep
import ShardedQuery.Proofs.Layout.Script
import ShardedQuery.Proofs.Pushdown.Columns

/-!
# A complete primary key

When conflicts are settled an equality gives way to an equality on the same field only, so that on
every field that had one some equality is left (`exists_pinsAt_of_run`). A WHERE clause that fixes
every component of the primary key therefore gives an equality key for each of them, whatever else
it says, and the primary index is taken before hints, orders and other indexes are looked at.
-/

namespace ShardedQuery

open Relation List

open ShardedQuery.Graph

variable {g : Graph} {t : Table} {i pos : Nat} {a p : Predicate} {ps : List Predicate}
  {block : NodeId} {name : String} {b : Block} {f : Field} {e : FromEntry} {rank : NodeId → Nat}
  {o : Ordering} {s : TableScan} {x : Variable}

/-! ## Equalities survive conflicts -/

section
variable {b : Predicate} {independent : Bool} {s : Status}

/-- An equality gives way to an equality only: as the first of two constants, -/
theorem eq_of_resolveConstants_first {q : Comparison} (h : resolveConstants .eq q o = .first s) :
    q = .eq := by
  cases q <;> cases o <;> simp [resolveConstants, Comparison.holds] at h ⊢

/-- and as the second. -/
theorem eq_of_resolveConstants_second {p : Comparison} (h : resolveConstants p .eq o = .second s) :
    p = .eq := by
  cases p <;> cases o <;> simp [resolveConstants, Comparison.holds] at h ⊢

theorem isEquality_of_resolvePair_first (h : resolvePair a b independent = .first s)
    (ha : a.isEquality) : b.isEquality := by
  have hop : a.op = .eq := by simpa [Predicate.isEquality] using ha
  by_contra hb
  have hprefer : preferEquality a b = some (.second .skip) := by
    rw [preferEquality, ha, Bool.eq_false_iff.2 hb]
  unfold resolvePair at h
  split at h
  · split at h
    · split at h
      · cases h
      · simp [hprefer] at h
    · split at h
      · cases h
      · rw [hop] at h
        exact hb (by simpa [Predicate.isEquality] using eq_of_resolveConstants_first h)
  · split at h <;> simp [hprefer] at h

theorem isEquality_of_resolvePair_second (h : resolvePair a b independent = .second s)
    (hb : b.isEquality) : a.isEquality := by
  have hop : b.op = .eq := by simpa [Predicate.isEquality] using hb
  by_contra ha
  have hprefer : preferEquality a b = some (.first .skip) := by
    rw [preferEquality, hb, Bool.eq_false_iff.2 ha]
  unfold resolvePair at h
  split at h
  · split at h
    · split at h
      · next hsame =>
        rw [Bool.and_eq_true, decide_eq_true_eq] at hsame
        exact ha (by simpa [Predicate.isEquality] using hsame.1.trans hop)
      · simp [hprefer] at h
    · split at h
      · cases h
      · rw [hop] at h
        exact ha (by simpa [Predicate.isEquality] using eq_of_resolveConstants_second h)
  · split at h <;> simp [hprefer] at h

end

/-- The predicate can be the equality key of a field. -/
def Predicate.pinsAt (pos : Nat) (p : Predicate) : Bool := p.boundsAt pos && p.isEquality

theorem Predicate.pinsAt_iff : p.pinsAt pos ↔ p.status = .keep ∧ p.position = pos ∧ p.op = .eq := by
  rw [pinsAt, Bool.and_eq_true, boundsAt_iff, isEquality, decide_eq_true_eq]
  constructor
  · rintro ⟨⟨hkeep, hpos, -⟩, hop⟩
    exact ⟨hkeep, hpos, hop⟩
  · rintro ⟨hkeep, hpos, hop⟩
    exact ⟨⟨hkeep, hpos, by simp [hop]⟩, hop⟩

section
variable {fansOut : Nat → Bool}

/-- Of a pair with an equality on a field, one is an equality on that field after it is settled. -/
theorem settle_pinsAt {b a' b' : Predicate} (h : settle fansOut a b = some (a', b'))
    (hpin : a.pinsAt pos ∨ b.pinsAt pos) : a'.pinsAt pos ∨ b'.pinsAt pos := by
  rw [settle] at h
  split at h
  · next hcomp =>
    obtain ⟨hka, hkb, -, -, -, -, hposition, -⟩ := competes_iff.1 hcomp
    simp only [Predicate.pinsAt_iff] at hpin ⊢
    have hpos : a.position = pos ∧ b.position = pos := by
      rcases hpin with ⟨-, hp, -⟩ | ⟨-, hp, -⟩
      · exact ⟨hp, hposition ▸ hp⟩
      · exact ⟨hposition ▸ hp, hp⟩
    have heq (p : Predicate) : p.isEquality ↔ p.op = .eq := by simp [Predicate.isEquality]
    cases hres : resolvePair a b (a.independent fansOut b) with
    | both =>
      rw [hres] at h
      cases h
      exact hpin
    | first s =>
      -- The first gives way: if it was the equality, so is the second.
      rw [hres] at h
      cases h
      have hop : b.op = .eq := hpin.elim
        (fun hp => (heq b).1 (isEquality_of_resolvePair_first hres ((heq a).2 hp.2.2)))
        (fun hp => hp.2.2)
      exact .inr ⟨hkb, hpos.2, hop⟩
    | second s =>
      rw [hres] at h
      cases h
      have hop : a.op = .eq := hpin.elim (fun hp => hp.2.2)
        (fun hp => (heq a).1 (isEquality_of_resolvePair_second hres ((heq b).2 hp.2.2)))
      exact .inl ⟨hka, hpos.1, hop⟩
    | collapseFirst =>
      rw [hres] at h
      cases h
      exact .inl ⟨hka, hpos.1, rfl⟩
    | collapseSecond =>
      rw [hres] at h
      cases h
      exact .inr ⟨hkb, hpos.2, rfl⟩
    | contradiction =>
      rw [hres] at h
      cases h
  · cases h
    exact hpin

/-- On a field that had an equality, some equality outlives every resolution of conflicts. -/
theorem exists_pinsAt_of_run {qs : List Predicate}
    (h : ReflTransGen (Settles fansOut) ps qs) (hp : ∃ p ∈ ps, p.pinsAt pos) :
    ∃ q ∈ qs, q.pinsAt pos := by
  induction h with
  | refl => exact hp
  | @tail _ qs _ hstep ih =>
    obtain ⟨a, -, b, -, a', ha', b', hb', hs, -, hsame⟩ := hstep.exists_pair
    obtain ⟨p, hmem, hpin⟩ := ih
    have hpair (hpin : a.pinsAt pos ∨ b.pinsAt pos) : ∃ q ∈ qs, Predicate.pinsAt pos q :=
      (settle_pinsAt hs hpin).elim (fun h => ⟨a', ha', h⟩) fun h => ⟨b', hb', h⟩
    rcases hsame p hmem with hmem | rfl | rfl
    · exact ⟨p, hmem, hpin⟩
    · exact hpair (.inl hpin)
    · exact hpair (.inr hpin)

end

/-- Where every field has an equality, every field has a key. -/
theorem length_boundsFrom_of_pinsAt (n pos : Nat)
    (h : ∀ i, pos ≤ i → i < pos + n → ∃ p ∈ ps, p.pinsAt i) :
    (boundsFrom none none ps n pos).keys.length = n := by
  induction n generalizing pos with
  | zero => rfl
  | succ n ih =>
    obtain ⟨p, hp, hpin⟩ := h pos le_rfl (by omega)
    have hkey : (keyAt? none none ps pos).isSome := by
      rw [keyAt?, if_neg (by simp)]
      simp only [Option.isSome_map, find?_isSome]
      exact ⟨p, hp, hpin⟩
    obtain ⟨k, hk⟩ := Option.isSome_iff_exists.1 hkey
    rw [boundsFrom, hk]
    simp only [length_cons]
    rw [ih (pos + 1) fun i hle hlt => h i (by omega) (by omega)]

/-! ## Fixed columns -/

/-- The WHERE clause compares a column of the row for equality with a constant. The constant is
neither a null nor a container, and of a type that the column can be compared with. -/
def Site.FixesColumn (site : Site) (g : Graph) (t : Table) (name : String) : Prop :=
  ∃ c ∈ g.conjuncts site.block, ∃ column constant v,
    (g.expr c = .call (.compare .eq false) [column, constant] ∨
      g.expr c = .call (.compare .eq false) [constant, column]) ∧
    g.expr column = .field site.rowVar name ∧ g.IsCurrent column ∧
    g.expr constant = .literal v ∧ v.isNull = false ∧ v.isAtomic ∧
    ∀ f ∈ t.field? name, f.itemType.comparable v.itemType

theorem Table.fieldType?_rowType (t : Table) (name : String) :
    t.rowType.fieldType? name = (t.field? name).map (·.itemType) := by
  rw [rowType, ItemType.fieldType?, field?]
  induction t.fields with
  | nil => rfl
  | cons f fs ih =>
    rw [map_cons, lookup_cons, find?_cons]
    by_cases hname : name = f.name
    · simp [hname]
    · have hne : (f.name == name) = false := by simpa using Ne.symm hname
      have hne' : (name == f.name) = false := by simpa using hname
      rw [hne, hne']
      exact ih

namespace Graph

variable {rowVar id : NodeId}

/-- The path of a column is a single step from the row. -/
theorem queryPath?_field (hrow : g.expr rowVar = .var x) (hid : g.expr id = .field rowVar name) :
    g.queryPath? rowVar id =
      some ⟨[⟨.field name, (g.exprType rowVar).item⟩], (g.exprType id).item, none⟩ := by
  have hstep : g.navigation? id = some (.field name, rowVar) := by simp [navigation?, hid]
  have hstop : g.navigation? rowVar = none := by simp [navigation?, hrow]
  have hclimb (n : Nat) (steps : List Navigation) : g.climb n rowVar steps = (rowVar, steps) := by
    cases n with
    | zero => rfl
    | succ n => rw [climb, hstop]
  simp [queryPath?, var?, hrow, climb, hstep, hclimb]

theorem isRowIndependent_field (hrow : g.expr rowVar = .var x) (hx : x.kind = .row)
    (hid : g.expr id = .field rowVar name) : g.isRowIndependent id = false := by
  have hlt : 0 < g.size := Nat.zero_lt_of_lt (lt_size_of_expr (by simp [hid] : g.expr id ≠ _))
  obtain ⟨n, hn⟩ := Nat.exists_eq_succ_of_ne_zero hlt.ne'
  have hvisit : rowVar ∈ g.postorder id := by
    simp [postorder, hn, visit, children, hid, hrow, Expr.children]
  rw [isRowIndependent, Bool.not_eq_false', anyBelow, any_eq_true]
  exact ⟨rowVar, hvisit, by simp [hrow, hx, VarKind.isExternal]⟩

theorem isRowIndependent_literal {v : Value} (hid : g.expr id = .literal v) :
    g.isRowIndependent id := by
  simp [isRowIndependent, anyBelow, postorder, visit, children, hid, Expr.children]

theorem exprType_column (ho : g.Ordered rank) (hrow : g.exprType rowVar = .one t.rowType)
    (hid : g.expr id = .field rowVar name) (hcurrent : g.IsCurrent id) (hf : t.field? name = some f) :
    g.exprType id = .one f.itemType := by
  rw [ho.exprType_of_current hcurrent, derivedType, typeRule, hid]
  simp only [hrow, SeqType.fieldStep, SeqType.one]
  rw [Table.fieldType?_rowType, hf]
  rfl

end Graph

/-! ## Reading fixed columns -/

theorem AccessPath.getElem?_primary (t : Table) (i : Nat) : (primary t).fields[i]? =
    t.primaryKey[i]?.map fun name =>
      ⟨⟨[.field name]⟩, ((t.field? name).map (·.itemType)).getD .any, false⟩ := by
  rw [primary, getElem?_map]

/-- A component of the key is met at its position. -/
theorem AccessPath.meetings_primary (hnodup : t.primaryKey.Nodup)
    (hi : t.primaryKey[i]? = some name) {q : QueryPath} {input : ItemType}
    (hq : q.steps = [⟨.field name, input⟩]) :
    ∃ others, (primary t).meetings q = (i, ⟨false, none⟩) :: others := by
  have hmatch (name' : String) (allowKey : Bool) : q.matchPath ⟨[.field name']⟩ allowKey =
      if name' = name then some ⟨false, none⟩ else none := by
    simp only [QueryPath.matchPath, hq, matchSteps]
  have hmem : (i, ⟨false, none⟩) ∈ (primary t).meetings q := by
    refine mem_meetings.2 ⟨_, (getElem?_primary t i).trans (by rw [hi]; rfl), ?_⟩
    rw [hmatch, if_pos rfl]
  cases hall : (primary t).meetings q with
  | nil =>
    rw [hall] at hmem
    cases hmem
  | cons first others =>
    obtain ⟨f, hf, hm⟩ := mem_meetings.1 (hall ▸ mem_cons_self : first ∈ _)
    rw [getElem?_primary] at hf
    obtain ⟨name', hname', rfl⟩ := Option.map_eq_some_iff.1 hf
    rw [hmatch] at hm
    split at hm
    · next heq =>
      -- The key has the name at one position only.
      have hfirst : first.1 = i := by
        obtain ⟨hlt, hget⟩ := List.getElem?_eq_some_iff.1 hname'
        obtain ⟨hlt', hget'⟩ := List.getElem?_eq_some_iff.1 hi
        exact (Nodup.getElem_inj_iff hnodup).1 (hget.trans (heq.trans hget'.symm))
      refine ⟨others, ?_⟩
      rw [← hfirst, Option.some.inj hm]
    · cases hm

section
variable {site : Site}

/-- A fixed component of the primary key is read as an equality on its position. -/
theorem exists_readPredicate_fixed (hnodup : t.primaryKey.Nodup) (ho : g.Ordered rank)
    (hkeep : g.KeepsConstants) (hrow : g.expr site.rowVar = .var x) (hx : x.kind = .row)
    (htype : g.exprType site.rowVar = .one t.rowType) (hf : t.field? name = some f)
    (hi : t.primaryKey[i]? = some name) (hfix : site.FixesColumn g t name) :
    ∃ c ∈ g.conjuncts site.block, ∃ p,
      readPredicate g (.primary t) site.rowVar c = .ok (some p) ∧ p.pinsAt i := by
  obtain ⟨c, hc, column, constant, v, hcall, hcolumn, hcurrent, hconstant, hnull, hatomic, hcomp⟩ :=
    hfix
  have hscalar := exprType_column ho htype hcolumn hcurrent hf
  have hconstType : g.exprType constant = .one v.itemType := by
    refine ho.exprType_of_constant hkeep ?_
    rw [constantType?, hconstant]
    cases v <;> first | rfl | cases hatomic
  have hfield : (AccessPath.primary t).typeAt i = f.itemType := by
    simp [AccessPath.typeAt, AccessPath.getElem?_primary, hi, hf]
  obtain ⟨others, hmeet⟩ := AccessPath.meetings_primary hnodup hi
    (q := ⟨[⟨.field name, (g.exprType site.rowVar).item⟩], (g.exprType column).item, none⟩) rfl
  have hplain : ((i, (⟨false, none⟩ : PathMatch)) :: others).any (·.2.mapKey.isSome) = false := by
    rw [← hmeet, any_eq_false]
    intro y hy
    rw [mapKey_of_mem_meetings rfl hy]
    simp
  have hread : ∃ p, readOriented g (.primary t) site.rowVar c column constant .eq false =
      some (.ok (some p)) ∧ p.pinsAt i := by
    refine ⟨⟨0, c, constant, some v, .eq, false, i, none, false, none, .keep⟩, ?_,
      Predicate.pinsAt_iff.2 ⟨rfl, rfl, rfl⟩⟩
    rw [readOriented, isRowIndependent_literal hconstant,
      queryPath?_field hrow hcolumn]
    simp only [hmeet, hplain]
    simp only [Bool.not_true, Bool.false_eq_true, if_false, Bool.and_false, hscalar, hconstType,
      hfield, hconstant, hnull, hatomic, SeqType.one, hcomp f hf]
    rfl
  obtain ⟨p, hread, hpin⟩ := hread
  refine ⟨c, hc, p, ?_, hpin⟩
  rcases hcall with hcall | hcall
  · rw [readPredicate, hcall]
    simp only [hread]
  · have hno : readOriented g (.primary t) site.rowVar c constant column .eq false = none := by
      rw [readOriented, isRowIndependent_field hrow hx hcolumn]
      rfl
    rw [readPredicate, hcall]
    simp only [hno, Comparison.swap, hread]
    rfl

/-- What a conjunct is read as is among the predicates of the clause, with a number. -/
theorem exists_mem_of_readPredicate {path : AccessPath} (hps : readPredicates g path site = .ok ps)
    {c : NodeId} (hc : c ∈ g.conjuncts site.block)
    (hp : readPredicate g path site.rowVar c = .ok (some p)) :
    ∃ n, { p with ordinal := n } ∈ ps := by
  obtain ⟨read, hread, rfl⟩ := readPredicates_eq_ok.1 hps
  obtain ⟨r, hr, hcr⟩ := exists_of_forall₂ (forall₂_of_mapM hread).flip hc
  have heq : r = some p := Except.ok.inj (hcr.symm.trans hp)
  have hmem : p ∈ read.filterMap id := mem_filterMap.2 ⟨r, hr, heq⟩
  obtain ⟨n, hn⟩ := mem_iff_getElem?.1 hmem
  refine ⟨n, mem_iff_getElem?.2 ⟨n, ?_⟩⟩
  rw [getElem?_mapIdx, hn]
  rfl

end

/-! ## The primary index -/

/-- A block that scans a table, with its first FROM entry and the scan there. -/
structure Graph.ScansTable (g : Graph) (block : NodeId) (t : Table) (b : Block) (e : FromEntry)
    (s : TableScan) : Prop where
  block_eq : g.block? block = some b
  entry : b.entries.head? = some e
  scan_eq : g.scan? e.domain = some s
  rowType : s.rowType = t.rowType

section
variable {w : Weights} {a : Analysis}

/-- If every component of the primary key is fixed, the analysis of the primary index has a key for
each of them. -/
theorem Analysis.isCompleteKey_of_fixed (ht : t.IsBuilt) (hnodup : t.primaryKey.Nodup)
    (hsound : g.Sound) (hkeep : g.KeepsConstants) (hscans : g.ScansTable block t b e s)
    (hfix : ∀ name ∈ t.primaryKey, Site.FixesColumn ⟨block, e.var⟩ g t name)
    (hrun : run g t w ⟨block, e.var⟩ (.primary t) = .ok (some a)) :
    a.numKeys = t.primaryKey.length ∧ a.isCompleteKey := by
  obtain ⟨rank, ho⟩ := hsound.ordered
  have hrowType : g.exprType e.var = .one t.rowType := by
    rw [← hscans.rowType]
    exact ho.exprType_of_constant hkeep
      (hsound.constantType?_rowVar hscans.block_eq hscans.entry hscans.scan_eq)
  obtain ⟨x, hrow, hx, -⟩ := hsound.scanned block b e s hscans.block_eq hscans.entry hscans.scan_eq
  have hfound := isFound_of_run hrun
  obtain ⟨ps, hps, hchoose⟩ := hfound.chosen
  obtain ⟨hkey, rs, hresolved, hbounds, -⟩ := choose_eq_some.1 hchoose
  have hplain : (AccessPath.primary t).IsPlain :=
    AccessPath.isPlain_ofIndex (t := t) fun _ (h : _ ∈ none) => by cases h
  rw [hplain.contenders_eq] at hresolved
  have hfields : (AccessPath.primary t).fields.length = t.primaryKey.length := by
    simp [AccessPath.primary]
  have hpins : ∀ i, 0 ≤ i → i < 0 + t.primaryKey.length → ∃ p ∈ rs, p.pinsAt i := by
    intro i _ hi
    rw [Nat.zero_add] at hi
    have hname := getElem?_eq_getElem hi
    obtain ⟨f, hf⟩ := ht.exists_field (getElem_mem hi)
    obtain ⟨c, hc, p, hread, hpin⟩ := exists_readPredicate_fixed hnodup ho hkeep hrow hx hrowType hf
      hname (hfix _ (getElem_mem hi))
    obtain ⟨n, hmem⟩ := exists_mem_of_readPredicate hps hc hread
    exact exists_pinsAt_of_run (resolveConflicts_run hresolved) ⟨_, hmem, hpin⟩
  have hlength : a.numKeys = t.primaryKey.length := by
    rw [numKeys, hbounds, hkey.trans rfl, hfields]
    exact length_boundsFrom_of_pinsAt _ 0 hpins
  refine ⟨hlength, ?_⟩
  have hne : (AccessPath.primary t).fields.isEmpty = false := by
    simp [AccessPath.primary, ht.primaryKey_ne_nil]
  rw [isCompleteKey, hfound.path_eq, hne, hfields, hlength]
  simp

end

/-! ## Carrying out -/

namespace Graph

/-- The node stands for the empty sequence and is in the place of another node. -/
def EmptyFor (g h : Graph) (old new : NodeId) : Prop :=
  h.expr new = .literal .empty ∧ h.root = g.root.map (redirect old new) ∧
    ∀ p ∈ g.parents old, h.expr p = (g.expr p).mapChildren (redirect old new)

end Graph

namespace Selection

theorem emptyFor_makeEmpty (hblock : block < g.size) (hparents : ∀ p ∈ g.parents block, p < g.size) :
    g.EmptyFor (makeEmpty g block) block g.size := by
  refine ⟨?_, ?_, fun p hp => ?_⟩
  · rw [expr_makeEmpty hblock, if_neg fun h => (hparents _ h).false,
      expr_of_size_le le_rfl]
  · exact (root_replace hblock.ne true).trans (congrArg _ (root_add _))
  · rw [expr_makeEmpty hblock, if_pos hp]

section
variable {c : Catalog} {o : Options} {sel : Selection}

/-- Where the primary index has a complete key, nothing else is considered. -/
theorem decide_of_isCompleteKey (hscans : g.ScansTable block t b e s)
    (htable : c.table s.table = .ok t)
    (hcomplete : ∀ a, Analysis.run g t o.weights ⟨block, e.var⟩ (.primary t) = .ok (some a) →
      a.isCompleteKey)
    (h : Selection.decide g c o block = .ok sel) :
    sel = .empty ∨ ∃ a, Analysis.run g t o.weights ⟨block, e.var⟩ (.primary t) = .ok (some a) ∧
      sel = .access t ⟨block, e.var⟩ e.domain a .drop := by
  rw [Selection.decide, hscans.block_eq, Option.bind_some, hscans.entry] at h
  simp only [hscans.scan_eq, htable] at h
  obtain ⟨t', ht', h⟩ := ok_of_bind h
  cases ht'
  obtain ⟨-, -, h⟩ := ok_of_bind h
  obtain ⟨mismatch, -, h⟩ := ok_of_bind h
  cases mismatch with
  | true =>
    cases h
    exact .inl rfl
  | false =>
    obtain ⟨found, hrun, h⟩ := ok_of_bind h
    cases found with
    | none =>
      cases h
      exact .inl rfl
    | some a =>
      simp only [decideAccess, hcomplete a hrun, if_true] at h
      cases h
      exact .inr ⟨a, hrun, rfl⟩

/-- A WHERE clause that fixes every component of the primary key leaves no choice: the block selects
nothing, or it is a scan of the primary index with a key for each component, and without a sort. -/
theorem select_completeKey {h : Graph} (ht : t.IsBuilt) (hnodup : t.primaryKey.Nodup)
    (hsound : g.Sound) (hkeep : g.KeepsConstants) (hscans : g.ScansTable block t b e s)
    (htable : c.table s.table = .ok t)
    (hfix : ∀ name ∈ t.primaryKey, Site.FixesColumn ⟨block, e.var⟩ g t name)
    (hselect : select c o g block = .ok h) :
    (∃ id, g.EmptyFor h block id) ∨
      ∃ b' s', h.block? block = some b' ∧ b'.sort = [] ∧ b'.sortByIndex = false ∧
        b'.entries.head? = some e ∧ h.scan? e.domain = some s' ∧ s'.index = none ∧
        s'.keys.length = t.primaryKey.length ∧
        ∀ i id, s'.keys[i]? = some id → Site.ComparesAt ⟨block, e.var⟩ g (.primary t) i id := by
  have hcomplete (a : Analysis)
      (hrun : Analysis.run g t o.weights ⟨block, e.var⟩ (.primary t) = .ok (some a)) :=
    Analysis.isCompleteKey_of_fixed ht hnodup hsound hkeep hscans hfix hrun
  obtain ⟨sel, hdecide, rfl⟩ := select_eq_ok.1 hselect
  have hblock := Graph.block?_eq_some.1 hscans.block_eq
  rcases decide_of_isCompleteKey hscans htable (fun a hrun => (hcomplete a hrun).2) hdecide with
    rfl | ⟨a, hrun, rfl⟩
  · exact .inl ⟨g.size, emptyFor_makeEmpty (Graph.lt_size_of_expr (by simp [hblock]))
      (hsound.parents_lt block)⟩
  · right
    let site : Site := ⟨block, e.var⟩
    have hsite : g.block? site.block = some b := hscans.block_eq
    obtain ⟨entries, hb₁, hhead, -⟩ := a.block?_apply t e.domain hsite
    have hfound := Analysis.isFound_of_run hrun
    have hkeys := a.isKey_apply (g := g) t site e.domain
    have hscan : (a.apply g t site e.domain).scan? e.domain = _ := a.scan?_apply t hscans.scan_eq
    refine ⟨_, _, block?_dropSort hb₁, rfl, rfl, hhead.trans hscans.entry,
      scan?_dropSort hscan block, ?_, ?_, ?_⟩
    · simp only [TableScan.accessed, hfound.path_eq]
      rfl
    · exact hkeys.length_eq.symm.trans (hcomplete a hrun).1
    · intro i id hid
      rcases hfound.key_at e.domain hid with ⟨hmap, -⟩ | hcompares
      · cases hmap
      · exact hcompares

end

end Selection

/-! ## A sample -/

/-- A table with a primary key of two components and an index on the second one. -/
def pairTable : Table :=
  { name := "t"
    fields := [⟨"a", .integer, false, 0⟩, ⟨"b", .integer, false, 1⟩, ⟨"d", .integer, true, 2⟩]
    primaryKey := ["a", "b"]
    shardKeyLength := 2
    indexes := [⟨"ib", "t", [⟨[.field "b"]⟩], [.integer]⟩] }

theorem isBuilt_pairTable : pairTable.IsBuilt :=
  ⟨"t", [.field "a" .integer, .field "b" .integer, .field "d" .integer, .primaryKey ["a", "b"],
    .index "ib" ["b"]], _, rfl, by decide +kernel⟩

/-- `b >= $x AND a < 2 AND b = 2 AND 1 = a ORDER BY b`, with the index on `b` forced: the two
equalities fix the key, and other comparisons compete with both. -/
def fixedKeyGraph : Graph :=
  (Layout.script ⟨[pairTable]⟩
    [.external "x" (.one .integer), .draft, .scanTable "t" "t" [.force (.index "ib")],
      .value (.field 2 "a"), .value (.field 2 "b"), .value (.literal (.integer 1)),
      .value (.literal (.integer 2)), .value (.call (.compare .ge false) [4, 0]),
      .value (.call (.compare .lt false) [3, 6]), .value (.call (.compare .eq false) [4, 6]),
      .value (.call (.compare .eq false) [5, 3]), .restrict 7, .restrict 8, .restrict 9,
      .restrict 10, .sort 4 .asc, .build, .root 12]).graph

theorem isLaid_fixedKeyGraph : fixedKeyGraph.IsLaid := Layout.isLaid_script _ _

theorem fixesColumn_fixedKeyGraph :
    ∀ name ∈ pairTable.primaryKey, Site.FixesColumn ⟨12, 2⟩ fixedKeyGraph pairTable name := by
  have hcurrent := isLaid_fixedKeyGraph.isCurrent
  intro name hname
  simp only [pairTable, mem_cons, not_mem_nil, or_false] at hname
  rcases hname with rfl | rfl
  · exact ⟨10, by decide +kernel, 3, 5, .integer 1, .inr rfl, rfl, hcurrent 3, rfl, rfl, rfl,
      by decide +kernel⟩
  · exact ⟨9, by decide +kernel, 4, 6, .integer 2, .inl rfl, rfl, hcurrent 4, rfl, rfl, rfl,
      by decide +kernel⟩

/-- The block still stands and scans the primary index. -/
theorem select_completeKey_forced :
    (∀ name ∈ pairTable.primaryKey, Site.FixesColumn ⟨12, 2⟩ fixedKeyGraph pairTable name) ∧
      ∃ h, Selection.select ⟨[pairTable]⟩ {} fixedKeyGraph 12 = .ok h ∧
        ∃ b s, h.block? 12 = some b ∧ b.sort = [] ∧ b.sortByIndex = false ∧
          b.entries.head? = some ⟨1, 2⟩ ∧ h.scan? 1 = some s ∧ s.index = none ∧
          s.keys.length = 2 ∧ ∀ i id, s.keys[i]? = some id →
            Site.ComparesAt ⟨12, 2⟩ fixedKeyGraph (.primary pairTable) i id := by
  have hscans : fixedKeyGraph.ScansTable 12 pairTable
      { entries := [⟨1, 2⟩], condition := some 11, star := true, sort := [⟨4, .asc⟩] } ⟨1, 2⟩
      { table := "t", hints := [.force (.index "ib")], rowType := pairTable.rowType } :=
    ⟨by decide +kernel, rfl, by decide +kernel, rfl⟩
  have hok : (Selection.select ⟨[pairTable]⟩ {} fixedKeyGraph 12).toOption.any fun h =>
      h.root = some 12 ∧ (h.block? 12).isSome := by decide +kernel
  cases hselect : Selection.select ⟨[pairTable]⟩ {} fixedKeyGraph 12 with
  | error e =>
    rw [hselect] at hok
    cases hok
  | ok h =>
    rw [hselect] at hok
    obtain ⟨hroot, hblock⟩ : h.root = some 12 ∧ (h.block? 12).isSome := by
      simpa [Except.toOption] using hok
    refine ⟨fixesColumn_fixedKeyGraph, h, rfl, ?_⟩
    rcases Selection.select_completeKey isBuilt_pairTable (by decide) isLaid_fixedKeyGraph.sound
      isLaid_fixedKeyGraph.keepsConstants hscans rfl fixesColumn_fixedKeyGraph hselect with
      ⟨id, hempty, hplace, -⟩ | hscan
    · rw [hroot, show fixedKeyGraph.root = some 12 by decide +kernel] at hplace
      cases (Option.some.inj hplace : 12 = id)
      rw [Graph.block?, hempty] at hblock
      cases hblock
    · exact hscan

end ShardedQuery
