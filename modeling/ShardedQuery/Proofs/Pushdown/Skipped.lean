import ShardedQuery.Proofs.Access.Choice

/-!
# Predicates that are not pushed

What is skipped stays in the WHERE clause, with two exceptions. A predicate about one entry of a
map may bound the scan although the key of the entry does not, and is skipped only after the bounds
were chosen (`Analysis.isUnkeyed`); and a conjunct that stands in the clause twice leaves it as
soon as one of its predicates is taken over. A predicate about an entry of a map is otherwise taken
over only with the key among the equality keys (`mapKey_mem_keys_of_takes`).
-/

namespace ShardedQuery

open List Analysis

variable {p q : Predicate} {k : String} {path : AccessPath} {a : Analysis} {g : Graph}
  {ps : List Predicate} {pos : Nat} {site : Site}

/-! ## The chosen key of a map -/

theorem eraseRepsBy_loop_ne_nil {α : Type} (r : α → α → Bool) :
    ∀ (l : List α) (a : α) (acc : List α), eraseRepsBy.loop r a l acc ≠ []
  | [], a, acc => by simp [eraseRepsBy.loop]
  | b :: l, a, acc => by
    unfold eraseRepsBy.loop
    split
    · exact eraseRepsBy_loop_ne_nil r l _ _
    · exact eraseRepsBy_loop_ne_nil r l _ _

/-- Where some predicate selects a key, a key is chosen. -/
theorem bestMapKey_isSome (w : Weights) (hp : p ∈ ps) (hkey : p.mapKey.isSome) :
    (bestMapKey w ps).isSome := by
  unfold bestMapKey
  obtain ⟨key, hkey⟩ := Option.isSome_iff_exists.1 hkey
  have hmem : key ∈ (ps.filterMap (·.mapKey)).mergeSort (fun a b => (compare a b).isLE) :=
    mem_mergeSort.2 (mem_filterMap.2 ⟨p, hp, hkey⟩)
  have hkeys : ((ps.filterMap (·.mapKey)).mergeSort
      (fun a b => (compare a b).isLE)).eraseReps ≠ [] := by
    obtain ⟨l, rest, hl⟩ := append_of_mem hmem
    rw [hl]
    cases l <;> exact eraseRepsBy_loop_ne_nil _ _ _ _
  obtain ⟨first, rest, hcons⟩ := exists_cons_of_ne_nil hkeys
  simp only [hcons, foldl_cons]
  refine foldlRecOn (motive := fun best : Option String => best.isSome = true) rest _ rfl
    fun best _ _ _ => ?_
  split
  · rfl
  · split <;> rfl

theorem Predicate.mapKey_underKey (path : AccessPath) (key : String) (p : Predicate) :
    (p.underKey path key).mapKey = p.mapKey := by
  unfold underKey
  repeat' split
  all_goals rfl

/-- A predicate on another key than the chosen one is skipped. -/
theorem Predicate.underKey_eq_of_ne_skip {key : String} (hk : p.mapKey = some k)
    (h : (p.underKey path key).status ≠ .skip) : k = key := by
  unfold underKey at h
  rw [hk] at h
  by_contra hne
  simp [hne] at h

section
variable {t : Table} {w : Weights}

/-- A predicate with a key of a map is on an index field that holds values of the map, so the index
holds the keys, too. -/
theorem mapKeys?_isSome_of_mapKey (hps : readPredicates g path site = .ok ps) (hp : p ∈ ps)
    (hkey : p.mapKey.isSome) : path.mapKeys?.isSome := by
  obtain ⟨-, left, hread⟩ := isReadAt_of_mem hps hp
  obtain ⟨q, m, others, -, -, hmeet, hm, -, -⟩ := hread.query
  have hvalues : path.mapValues? ≠ none := by
    intro hno
    have hnone := mapKey_of_mem_meetings hno (hmeet ▸ mem_cons_self)
    rw [hm] at hnone
    rw [hnone] at hkey
    cases hkey
  obtain ⟨pos, hpos⟩ := Option.ne_none_iff_exists'.1 hvalues
  unfold AccessPath.mapValues? Index.mapValuesPosition? at hpos
  obtain ⟨i, hi, hpos⟩ := Option.bind_eq_some_iff.1 hpos
  obtain ⟨kpos, hkpos, -⟩ := Option.bind_eq_some_iff.1 hpos
  rw [AccessPath.mapKeys?, hi, Option.bind_some, hkpos]
  rfl

/-- Where some predicate selects a key of a map, a key is chosen. -/
theorem exists_chosen_key (w : Weights) (hps : readPredicates g path site = .ok ps) (hp : p ∈ ps)
    (hkey : p.mapKey.isSome) :
    ∃ key, chooseMapKey w path ps = (some key, ps.map (Predicate.underKey path key)) := by
  have hkeys := mapKeys?_isSome_of_mapKey hps hp hkey
  obtain ⟨key, hbest⟩ := Option.isSome_iff_exists.1 (bestMapKey_isSome w hp hkey)
  exact ⟨key, by simp [chooseMapKey, hbest, Option.isNone_eq_false_iff.2 hkeys]⟩

/-! ## Bounds through an entry of a map -/

/-- The predicate bounds the scan by an entry of a map although the key of the entry does not, and
nothing else keeps its conjunct in the WHERE clause. -/
def Analysis.isUnkeyed (a : Analysis) (p : Predicate) : Bool :=
  p.mapKey.isSome && a.bounds.uses p && !a.bounds.hasMapKey && !a.retains p

/-- The predicate leaves its conjunct in the WHERE clause: it is skipped and not unkeyed, or it is
kept and the conjunct retained. -/
def Analysis.spares (a : Analysis) (p : Predicate) : Bool :=
  match p.status with
  | .skip => !a.isUnkeyed p
  | .keep => a.retains p
  | .implied => false

section
variable (hfound : a.IsFound g t w site path) (hq : q ∈ a.predicates)
include hfound hq

/-- A predicate that bounds the scan is skipped only if it is about an entry of a map whose key
does not bound the scan. -/
theorem mapKey_of_skip_of_uses (hskip : q.status = .skip) (huses : a.bounds.uses q) :
    q.mapKey.isSome ∧ a.bounds.hasMapKey = false := by
  obtain ⟨ps, rs, hps, hrun, hfits, hqs⟩ := hfound.exists_settled
  rw [hqs] at hq
  obtain ⟨r, hr, rfl⟩ := mem_map.1 hq
  rw [Bounds.uses_release] at huses
  rw [(r.restates_release path (chooseMapKey w path ps).1 a.bounds).mapKey_eq]
  obtain ⟨-, hkeep, -⟩ :=
    hfits.of_mem ((uses_iff_mem_predicates hps hrun hfits hr).1 huses)
  -- A kept predicate that bounds the scan is skipped only for want of its key.
  by_contra hno
  have hkeyed : ¬((chooseMapKey w path ps).1.isSome ∧ a.bounds.hasMapKey = false ∧
      r.mapKey.isSome) := fun h => hno ⟨h.2.2, h.2.1⟩
  simp [Predicate.release, huses, hkeep, and_assoc, hkeyed] at hskip

/-- A predicate about an entry of a map whose key does not bound the scan is skipped. The equality
keys end before the keys of the map, and if the predicate bounds the scan, so does the field it is
on. -/
theorem skip_of_mapKey (hkey : q.mapKey.isSome) (hnokey : a.bounds.hasMapKey = false) :
    q.status = .skip ∧ ∃ pos, path.mapKeys? = some pos ∧ a.bounds.keys.length ≤ pos ∧
      (a.bounds.uses q → q.position < pos) := by
  obtain ⟨ps, rs, hps, hrun, hfits, hqs⟩ := hfound.exists_settled
  rw [hqs] at hq
  obtain ⟨r, hr, rfl⟩ := mem_map.1 hq
  have hrelease := r.restates_release path (chooseMapKey w path ps).1 a.bounds
  rw [hrelease.mapKey_eq] at hkey
  obtain ⟨p₀, hp₀, hpr⟩ := exists_of_forall₂ (restates_settled hps hrun) hr
  obtain ⟨pos, hpos⟩ := Option.isSome_iff_exists.1
    (mapKeys?_isSome_of_mapKey hps hp₀ (hpr.mapKey_eq ▸ hkey))
  obtain ⟨key, hchoose⟩ := exists_chosen_key w hps hp₀ (hpr.mapKey_eq ▸ hkey)
  have hlength : a.bounds.keys.length ≤ pos := by
    by_contra hlt
    have hget := getElem?_eq_getElem (l := a.bounds.keys) (i := pos) (by omega)
    have hk := hfits.chosen pos _ hget (by simpa using hpos) (by rw [hchoose]; rfl)
    have hany : a.bounds.hasMapKey :=
      any_eq_true.2 ⟨_, mem_of_getElem? hget, by simp [hk, KeySource.isMapKey]⟩
    simp [hnokey] at hany
  refine ⟨by simp [Predicate.release, hchoose, hnokey, hkey], pos, hpos, hlength, fun huses => ?_⟩
  rw [Bounds.uses_release] at huses
  rw [hrelease.position_eq]
  obtain ⟨-, -, hlt | ⟨range, hrange, hat⟩⟩ :=
    hfits.of_mem ((uses_iff_mem_predicates hps hrun hfits hr).1 huses)
  · omega
  · have hne := hfits.keyed range hrange (by rw [hchoose]; rfl)
    have hend := hfits.position range hrange
    rw [hpos, ne_eq, Option.some.injEq] at hne
    omega

/-- A skipped predicate is taken over by the scan exactly if it bounds the scan without its key. -/
theorem takes_eq_isUnkeyed (hskip : q.status = .skip) : a.takes q = a.isUnkeyed q := by
  have hpushes : a.pushes q = a.bounds.uses q := by
    simp [pushes, Predicate.isKept, hskip]
  cases huses : a.bounds.uses q with
  | false => simp [takes, isUnkeyed, hpushes, huses]
  | true =>
    obtain ⟨hkey, hnokey⟩ := mapKey_of_skip_of_uses hfound hq hskip huses
    simp [takes, isUnkeyed, hpushes, huses, hskip, hkey, hnokey]

theorem takes_eq_not_spares : a.takes q = !a.spares q := by
  cases hs : q.status with
  | skip => simp [spares, hs, takes_eq_isUnkeyed hfound hq hs]
  | keep => simp [takes, spares, pushes, Predicate.isKept, hs]
  | implied => simp [takes, spares, pushes, hs]

/-- A predicate with a key of a map that the scan takes over has this key among the equality keys,
or bounds the scan without it. -/
theorem mapKey_mem_keys_of_takes (hk : q.mapKey = some k) (htakes : a.takes q) :
    a.isUnkeyed q ∨ a.mapKey = some k ∧
      ∃ pos, path.mapKeys? = some pos ∧ a.bounds.keys[pos]? = some .mapKey := by
  by_cases hskip : q.status = .skip
  · exact .inl (takes_eq_isUnkeyed hfound hq hskip ▸ htakes)
  -- The key bounds the scan, or else the predicate would be skipped.
  have hbound : a.bounds.hasMapKey := by
    by_contra hno
    exact hskip (skip_of_mapKey hfound hq (by simp [hk]) (by simpa using hno)).1
  obtain ⟨ps, rs, hps, hrun, hfits, hqs⟩ := hfound.exists_settled
  rw [hqs] at hq
  obtain ⟨r, hr, rfl⟩ := mem_map.1 hq
  have hrelease := r.restates_release path (chooseMapKey w path ps).1 a.bounds
  rw [hrelease.mapKey_eq] at hk
  obtain ⟨p₀, hp₀, hpr⟩ := exists_of_forall₂ (restates_settled hps hrun) hr
  obtain ⟨key, hchoose⟩ := exists_chosen_key w hps hp₀ (by simp [← hpr.mapKey_eq, hk])
  -- The predicate was not skipped when the key was chosen, so it asks for that key.
  have hkey : k = key := by
    obtain ⟨c, hc, hcr⟩ := exists_of_forall₂
      (forall₂_restates_trans (restates_restrictMultiKey path _) (restates_of_run hrun)) hr
    rw [hchoose] at hc
    obtain ⟨p, -, rfl⟩ := mem_map.1 hc
    refine Predicate.underKey_eq_of_ne_skip ?_ fun h => hskip (hrelease.skip (hcr.skip h))
    rw [← Predicate.mapKey_underKey path key, ← hcr.mapKey_eq, hk]
  obtain ⟨source, hsource, hmapKey⟩ := any_eq_true.1 hbound
  obtain ⟨pos, hpos⟩ := getElem?_of_mem hsource
  have hfit := hfits.keys pos source hpos
  cases source with
  | predicate p => cases hmapKey
  | mapKey =>
    obtain ⟨hat, -⟩ := hfit
    refine .inr ⟨?_, pos, by simpa using hat, hpos⟩
    rw [hfound.mapKey_eq hps, hchoose, hkey]

end

/-! ## Conjuncts about an entry of a map -/

/-- The paths of an index start at a column. -/
def AccessPath.IsRooted (path : AccessPath) : Prop :=
  ∀ f ∈ path.fields, ∃ name rest, f.path.steps = .field name :: rest

theorem AccessPath.isRooted_ofIndex (t : Table) {idx : Option Index}
    (h : ∀ i ∈ idx, ∀ p ∈ i.paths, ∃ name rest, p.steps = .field name :: rest) :
    (ofIndex t idx).IsRooted := by
  intro f hf
  cases idx with
  | none =>
    obtain ⟨name, -, rfl⟩ := mem_map.1 hf
    exact ⟨name, [], rfl⟩
  | some i =>
    obtain ⟨pos, hpos, rfl⟩ := mem_mapIdx.1 hf
    exact h i rfl _ (getElem_mem hpos)

/-- Index entries do not hold what a path selects by a key of a map. -/
theorem isResident_eq_false {q : QueryPath} {m : PathMatch} (hroot : path.IsRooted)
    (hmeet : path.meetings q = [(pos, m)]) (hkey : m.mapKey.isSome) :
    isResident t path q = false := by
  obtain ⟨f, hf, hm⟩ := AccessPath.mem_meetings.1 (hmeet ▸ mem_singleton_self (pos, m))
  rw [← Bool.not_eq_true]
  intro hres
  rcases Bool.or_eq_true_iff.1 hres with hres | hres
  · -- A single step is a column, which leaves no step for the key.
    obtain ⟨name, rest, hsteps⟩ := hroot f (mem_of_getElem? hf)
    split at hres
    · next name' input hq =>
      simp only [QueryPath.matchPath, hsteps, hq, matchSteps] at hm
      split at hm
      · rw [matchSteps_nil hm] at hkey
        cases hkey
      · cases hm
    · cases hres
  · -- A field that holds the items themselves is met, too, and without a key.
    obtain ⟨f', hf', hholds⟩ := any_eq_true.1 hres
    obtain ⟨pos', hpos'⟩ := getElem?_of_mem hf'
    rw [AccessPath.AccessField.holds, Bool.and_eq_true, QueryPath.isExactly,
      Option.any_eq_true] at hholds
    obtain ⟨-, m', hm', hexact⟩ := hholds
    have hmem : (pos', m') ∈ path.meetings q := by
      refine AccessPath.mem_meetings.2 ⟨f', hpos', ?_⟩
      cases path.mapValues? == some pos' with
      | true => exact matchSteps_allowKey hm'
      | false => exact hm'
    rw [hmeet, mem_singleton] at hmem
    cases hmem
    simp [PathMatch.isExact] at hexact
    simp [hexact.2] at hkey

section
variable (hfound : a.IsFound g t w site path) (hq : q ∈ a.predicates)
include hfound hq

/-- A comparison through a key of a map is no further filter of index entries. -/
theorem conjunct_not_mem_indexFilters (hroot : path.IsRooted) (hkey : q.mapKey.isSome) :
    q.conjunct ∉ a.indexFilters := by
  obtain ⟨p, left, hpq, -, hread⟩ := hfound.exists_isReadAt hq
  obtain ⟨op, args, hc, hleft⟩ := hread.exists_call
  obtain ⟨qp, m, others, hqp, -, hmeet, hm, -, hothers⟩ := hread.query
  rw [hpq.mapKey_eq] at hkey
  rw [hothers hkey] at hmeet
  intro hmem
  rw [hpq.conjunct_eq] at hmem
  have heval := (hfound.mem_indexFilters.1 hmem).2.2.2
  have hres := (isResident_of_isEvaluable hc hleft hqp heval).2
  rw [isResident_eq_false hroot hmeet (hm ▸ hkey)] at hres
  cases hres

/-- A conjunct is read in one way only. -/
theorem mapKey_eq_of_conjunct_eq (hp : p ∈ a.predicates) (hpq : p.conjunct = q.conjunct) :
    p.mapKey = q.mapKey := by
  obtain ⟨ps, hps, hr⟩ := hfound.restates
  obtain ⟨p₀, hp₀, hpp⟩ := exists_of_forall₂ hr hp
  obtain ⟨q₀, hq₀, hqq⟩ := exists_of_forall₂ hr hq
  obtain ⟨-, p', hp', hpeq⟩ := readPredicate_of_mem hps hp₀
  obtain ⟨-, q', hq', hqeq⟩ := readPredicate_of_mem hps hq₀
  rw [hpp.conjunct_eq, hqq.conjunct_eq] at hpq
  rw [hpq, hq'] at hp'
  cases hp'
  rw [hpp.mapKey_eq, hqq.mapKey_eq, hpeq, hqeq]

end

end

/-! ## The equality keys of the scan -/

/-- The string that a scan has as its equality key on a field. -/
def Graph.stringKeyAt? (g : Graph) (scan : NodeId) (pos : Nat) : Option String := do
  let s ← g.scan? scan
  let key ← s.keys[pos]?
  match g.expr key with
  | .literal (.string k) => some k
  | _ => none

section
variable {h : Graph} {scan : NodeId}

theorem stringKeyAt?_eq_some (happ : a.Applied g site scan h)
    (hk : a.mapKey = some k) (hpos : a.bounds.keys[pos]? = some .mapKey) :
    h.stringKeyAt? scan pos = some k := by
  obtain ⟨s, hs, hkeys, -⟩ := happ.access
  obtain ⟨hlt, hget⟩ := List.getElem?_eq_some_iff.1 hpos
  have hlt' : pos < s.keys.length := hkeys.length_eq ▸ hlt
  have hkey := hkeys.get hlt hlt'
  rw [get_eq_getElem, hget, hk] at hkey
  have hlit : h.expr s.keys[pos] = .literal (.string k) := hkey
  simp [Graph.stringKeyAt?, hs, getElem?_eq_getElem hlt', hlit]

theorem stringKeyAt?_eq_none (happ : a.Applied g site scan h)
    (hpos : a.bounds.keys.length ≤ pos) : h.stringKeyAt? scan pos = none := by
  obtain ⟨s, hs, hkeys, -⟩ := happ.access
  have hnone : s.keys[pos]? = none := getElem?_eq_none (hkeys.length_eq ▸ hpos)
  simp [Graph.stringKeyAt?, hs, hnone]

end

/-! ## The main statement -/

/-- A comparison that is not pushed stays in the WHERE clause, unless it bounds the scan without
its key. A skipped comparison that does not filter index entries stays if every comparison read from
its conjunct spares it, and in a flat WHERE clause only then. An unkeyed comparison is skipped and
leaves a flat WHERE clause all the same, though the scan has no key of the map; then the values of
the map come before its keys in the index. Apart from that, a comparison through a key of a map
leaves the WHERE clause only if that key is an equality key of the scan, at the field that holds the
keys. -/
theorem apply_keeps_skipped {g : Graph} {t : Table} {w : Weights} {site : Site} {scan : NodeId}
    {idx : Option Index} {a : Analysis} (hsite : site.Scans g scan)
    (hpaths : ∀ i ∈ idx, ∀ p ∈ i.paths, ∃ name rest, p.steps = .field name :: rest)
    (hrun : Analysis.run g t w site (.ofIndex t idx) = .ok (some a)) :
    (∀ q ∈ a.predicates, q.status = .skip →
      q.conjunct ∉ (a.apply g t site scan).filterConjuncts scan →
      ((∀ p ∈ a.predicates, p.conjunct = q.conjunct → a.spares p) →
        q.conjunct ∈ (a.apply g t site scan).conjuncts site.block) ∧
      (site.IsFlat g → q.conjunct ∈ (a.apply g t site scan).conjuncts site.block →
        ∀ p ∈ a.predicates, p.conjunct = q.conjunct → a.spares p)) ∧
    (∀ q ∈ a.predicates, a.isUnkeyed q →
      q.status = .skip ∧
      (site.IsFlat g → q.conjunct ∉ (a.apply g t site scan).conjuncts site.block) ∧
      ∃ pos, (AccessPath.ofIndex t idx).mapKeys? = some pos ∧ q.position < pos ∧
        (a.apply g t site scan).stringKeyAt? scan pos = none) ∧
    ∀ q ∈ a.predicates, ∀ k, q.mapKey = some k →
      q.conjunct ∉ (a.apply g t site scan).conjuncts site.block →
      (∃ pos, (AccessPath.ofIndex t idx).mapKeys? = some pos ∧
        (a.apply g t site scan).stringKeyAt? scan pos = some k) ∨
      ∃ p ∈ a.predicates, p.conjunct = q.conjunct ∧ a.isUnkeyed p := by
  have hfound := Analysis.isFound_of_run hrun
  have happ := a.applied t hsite
  have hplace := fun q hq => hfound.conjunct_lt (p := q) hq
  refine ⟨fun q hq hskip hfilter => ⟨fun hspared => ?_, fun hflat hstays p hp hpq => ?_⟩,
    fun q hq hunkeyed => ?_, fun q hq k hk hgone => ?_⟩
  · refine happ.mem_conjuncts (Analysis.mem_remaining.2 ⟨hfound.conjunct_mem hq, ?_⟩)
      (hplace q hq).1 (hplace q hq).2
    rw [Analysis.mem_consumed]
    rintro (⟨p, hp, htakes, hpq⟩ | hidx)
    · rw [takes_eq_not_spares hfound hp, hspared p hp hpq] at htakes
      cases htakes
    · exact hfilter (happ.mem_filter (Analysis.mem_filterConjuncts.2 (.inr hidx))
        (hplace q hq).1 (hplace q hq).2)
  · rw [happ.conjuncts_eq hflat, Analysis.mem_remaining, Analysis.mem_consumed] at hstays
    by_contra hnot
    refine hstays.2 (.inl ⟨p, hp, ?_, hpq⟩)
    simpa [takes_eq_not_spares hfound hp] using hnot
  · have hparts := hunkeyed
    simp only [Analysis.isUnkeyed, Bool.and_eq_true, Bool.not_eq_true'] at hparts
    obtain ⟨⟨⟨hkey, huses⟩, hnokey⟩, -⟩ := hparts
    obtain ⟨hskip, pos, hpos, hlength, hbefore⟩ := skip_of_mapKey hfound hq hkey hnokey
    refine ⟨hskip, fun hflat => ?_, pos, hpos, hbefore huses, stringKeyAt?_eq_none happ hlength⟩
    rw [happ.conjuncts_eq hflat, Analysis.mem_remaining]
    rintro ⟨-, hstays⟩
    refine hstays (Analysis.mem_consumed.2 (.inl ⟨q, hq, ?_, rfl⟩))
    rwa [takes_eq_isUnkeyed hfound hq hskip]
  · have hconsumed : q.conjunct ∈ a.consumed := by
      by_contra hno
      exact hgone (happ.mem_conjuncts (Analysis.mem_remaining.2 ⟨hfound.conjunct_mem hq, hno⟩)
        (hplace q hq).1 (hplace q hq).2)
    rcases Analysis.mem_consumed.1 hconsumed with ⟨p, hp, htakes, hpq⟩ | hidx
    · have hpk := (mapKey_eq_of_conjunct_eq hfound hq hp hpq).trans hk
      rcases mapKey_mem_keys_of_takes hfound hp hpk htakes with
        hunkeyed | ⟨hkey, pos, hpos, hkeys⟩
      · exact .inr ⟨p, hp, hpq, hunkeyed⟩
      · exact .inl ⟨pos, hpos, stringKeyAt?_eq_some happ hkey hkeys⟩
    · exact absurd hidx (conjunct_not_mem_indexFilters hfound hq
        (AccessPath.isRooted_ofIndex t hpaths) (by simp [hk]))

/-- A block over a table with a map `m`, whose WHERE clause asks for entries over 5, each under a
given key or under any key. -/
def entrySample (keys : List (Option String)) : ScanBlock :=
  .over (.record [("m", .map .integer)]) [] fun row g =>
    let (column, g) := g.addField row "m"
    let (five, g) := g.addLiteral (.integer 5)
    keys.foldl (fun (cs, g) key =>
      let (entries, g) := g.add <|
        match key with
        | some key => .field column key
        | none => .mapFilter .values column none {}
      let (c, g) := g.addCall (.compare .gt key.isNone) [entries, five]
      (cs ++ [c], g)) ([], g)

/-- The index of that table on the keys of the map, then its values. -/
def keysFirstIndex : Index :=
  ⟨"kv", "t", [⟨[.field "m", .keys]⟩, ⟨[.field "m", .values]⟩], [.string, .integer]⟩

/-- The index of that table on the values of the map, then its keys. -/
def valuesFirstIndex : Index :=
  ⟨"vk", "t", [⟨[.field "m", .values]⟩, ⟨[.field "m", .keys]⟩], [.integer, .string]⟩

def entrySampleTable : Table := idTable [("m", .map .integer)] [keysFirstIndex, valuesFirstIndex]

/-- `m.k > 5 AND m.values() >any 5` -/
def anyKeySample : ScanBlock := entrySample [some "k", none]

/-- `m.k > 5` -/
def oneKeySample : ScanBlock := entrySample [some "k"]

theorem apply_keeps_skipped_keysFirst :
    anyKeySample.site.Scans anyKeySample.graph anyKeySample.scan ∧
    ∃ a, Analysis.run anyKeySample.graph entrySampleTable {} anyKeySample.site
        (.ofIndex entrySampleTable (some keysFirstIndex)) = .ok (some a) ∧
      (∃ q ∈ a.predicates, q.status = .skip ∧
        q.conjunct ∈ (a.apply anyKeySample.graph entrySampleTable anyKeySample.site
          anyKeySample.scan).conjuncts anyKeySample.site.block) ∧
      ∃ pos, (AccessPath.ofIndex entrySampleTable (some keysFirstIndex)).mapKeys? = some pos ∧
        (a.apply anyKeySample.graph entrySampleTable anyKeySample.site
          anyKeySample.scan).stringKeyAt? anyKeySample.scan pos = some "k" := by
  have hsite : anyKeySample.site.Scans anyKeySample.graph anyKeySample.scan :=
    ⟨by decide +kernel, by decide +kernel, by decide +kernel⟩
  have hpaths : ∀ i ∈ some keysFirstIndex, ∀ p ∈ i.paths,
      ∃ name rest, p.steps = .field name :: rest := by
    simp [keysFirstIndex]
  let after (a : Analysis) :=
    a.apply anyKeySample.graph entrySampleTable anyKeySample.site anyKeySample.scan
  let lone (a : Analysis) (q : Predicate) := a.predicates.all fun p =>
    decide (p.conjunct = q.conjunct → a.spares p = true)
  obtain ⟨a, hrun, htest⟩ := Analysis.exists_of_foundWith
    (Analysis.run anyKeySample.graph entrySampleTable {} anyKeySample.site
      (.ofIndex entrySampleTable (some keysFirstIndex)))
    (fun a =>
      (a.predicates.any fun q => q.status = .skip &&
        (decide (q.conjunct ∉ (after a).filterConjuncts anyKeySample.scan) && lone a q)) &&
      ((a.predicates.any fun q => q.mapKey = some "k" &&
        decide (q.conjunct ∉ (after a).conjuncts anyKeySample.site.block)) &&
      a.predicates.all (!a.isUnkeyed ·))) (by decide +kernel)
  simp only [Bool.and_eq_true, any_eq_true, all_eq_true, decide_eq_true_eq,
    Bool.not_eq_true', after, lone] at htest
  obtain ⟨⟨q, hq, hskip, hfilter, hlone⟩, ⟨q', hq', hkey, hgone⟩, hkeyed⟩ := htest
  obtain ⟨hstays, -, hkeys⟩ := apply_keeps_skipped hsite hpaths hrun
  refine ⟨hsite, a, hrun, ⟨q, hq, hskip, (hstays q hq hskip hfilter).1 hlone⟩, ?_⟩
  rcases hkeys q' hq' "k" hkey hgone with h | ⟨p, hp, -, hunkeyed⟩
  · exact h
  · cases (hkeyed p hp).symm.trans hunkeyed

/-- Without a key, `m.k > 5` bounds the scan through the values of all entries. It is skipped, the
scan neither filters by it nor has a key, and yet it is gone from the WHERE clause. -/
theorem skipped_lost_valuesFirst :
    ∃ a, Analysis.run oneKeySample.graph entrySampleTable {} oneKeySample.site
        (.ofIndex entrySampleTable (some valuesFirstIndex)) = .ok (some a) ∧
      (let h := a.apply oneKeySample.graph entrySampleTable oneKeySample.site oneKeySample.scan
      a.predicates.any fun q => q.status = .skip && q.mapKey = some "k"
        && !(h.filterConjuncts oneKeySample.scan).contains q.conjunct
        && !(h.conjuncts oneKeySample.site.block).contains q.conjunct
        && (h.scan? oneKeySample.scan).any (·.keys.isEmpty)) :=
  Analysis.exists_of_foundWith _ _ (by decide +kernel)

end ShardedQuery
