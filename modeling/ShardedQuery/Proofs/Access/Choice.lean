import ShardedQuery.Proofs.Access.Conflicts
import ShardedQuery.Proofs.Access.Reading
import ShardedQuery.Split

/-!
# How an analysis chooses

From the predicates of a WHERE clause an analysis keeps those that can stand together and bounds
the scan by some of them. `Bounds.Fits` says what the bounds are made of, and `admits_iff` what
they ask of an index entry. `Analysis.IsFound` gathers what holds of every analysis: its predicates
are the settled ones, less what the bounds do not allow after all (`Predicate.release`), and of
each conjunct it is known whether it leaves the clause (`Analysis.mem_consumed`), and whether the
scan checks it (`Analysis.mem_filterConjuncts`).
-/

namespace ShardedQuery

open Relation List

variable {a : Analysis} {g : Graph} {site : Site} {path : AccessPath} {b : Bounds}
  {ps qs rs : List Predicate} {keysAt : Option Nat} {mapKey : Option String} {t : Table}
  {w : Weights} {op : Comparison} {f : Function} {args : List NodeId} {pos : Nat}
  {u c left rowVar : NodeId} {q p : Predicate}

/-! ## Bounds -/

/-- The predicate an equality key comes from. -/
def KeySource.predicate? : KeySource → Option Predicate
  | .predicate p => some p
  | .mapKey => none

theorem Predicate.boundsAt_iff :
    p.boundsAt pos ↔ p.status = .keep ∧ p.position = pos ∧ p.op ≠ .ne := by
  simp [boundsAt, isKept, isFilterOnly, and_assoc]

namespace Bounds

/-- The predicates that bound the scan. -/
def predicates (b : Bounds) : List Predicate :=
  b.keys.filterMap (·.predicate?)
    ++ (b.range.map fun r => r.lower.toList ++ r.upper.toList).getD []

theorem ordinals_eq (b : Bounds) : b.ordinals = b.predicates.map (·.ordinal) := by
  unfold ordinals predicates
  rw [map_append, map_filterMap]
  congr 1
  · congr 1
    funext k
    cases k <;> rfl
  · cases b.range <;> simp

theorem uses_iff (b : Bounds) (p : Predicate) :
    b.uses p ↔ ∃ p' ∈ b.predicates, p'.ordinal = p.ordinal := by
  simp [uses, ordinals_eq]

/-- An equality key in its place: a kept equality on the field, or the key of a map, if one is chosen,
at the field that holds the keys. -/
def KeyFits (keysAt : Option Nat) (mapKey : Option String) (ps : List Predicate) (pos : Nat) :
    KeySource → Prop
  | .predicate p => p ∈ ps ∧ p.boundsAt pos ∧ p.isEquality
  | .mapKey => keysAt = some pos ∧ mapKey.isSome

/-- The bounds are made of kept predicates: equality keys on the fields from a position on, and a
range on the next. -/
structure Fits (keysAt : Option Nat) (mapKey : Option String) (ps : List Predicate) (pos : Nat)
    (b : Bounds) : Prop where
  keys : ∀ i k, b.keys[i]? = some k → KeyFits keysAt mapKey ps (pos + i) k
  position : ∀ r, b.range = some r → r.position = pos + b.keys.length
  lower : ∀ r p, b.range = some r → r.lower = some p →
    p ∈ ps ∧ p.boundsAt r.position ∧ p.op.isLower
  upper : ∀ r p, b.range = some r → r.upper = some p →
    p ∈ ps ∧ p.boundsAt r.position ∧ p.op.isUpper
  /-- A chosen key of a map is the equality key of the field that holds the keys. -/
  chosen : ∀ i k, b.keys[i]? = some k → keysAt = some (pos + i) → mapKey.isSome → k = .mapKey
  /-- Where the chosen key would be an equality there is no range. -/
  keyed : ∀ r, b.range = some r → mapKey.isSome → keysAt ≠ some r.position

end Bounds

theorem keyFits_of_keyAt? {k : KeySource} (h : keyAt? keysAt mapKey ps pos = some k) :
    Bounds.KeyFits keysAt mapKey ps pos k := by
  unfold keyAt? at h
  split at h
  · next hkey =>
    cases h
    exact hkey
  · obtain ⟨p, hp, rfl⟩ := Option.map_eq_some_iff.1 h
    have hbounds := find?_some hp
    rw [Bool.and_eq_true] at hbounds
    exact ⟨mem_of_find?_eq_some hp, hbounds.1, hbounds.2⟩

theorem keysAt_ne_of_keyAt? (h : keyAt? keysAt mapKey ps pos = none) (hkey : mapKey.isSome) :
    keysAt ≠ some pos := by
  intro hpos
  rw [keyAt?, if_pos ⟨hpos, hkey⟩] at h
  cases h

/-- A range is made of kept predicates on its field. -/
theorem rangeAt_eq_some {r : RangeBounds} (h : rangeAt ps pos = some r) :
    r.position = pos ∧ (∀ p, r.lower = some p → p ∈ ps ∧ p.boundsAt pos ∧ p.op.isLower) ∧
      ∀ p, r.upper = some p → p ∈ ps ∧ p.boundsAt pos ∧ p.op.isUpper := by
  unfold rangeAt at h
  simp only at h
  split at h
  · cases h
    refine ⟨rfl, fun p hp => ?_, fun p hp => ?_⟩
    · have hbounds := find?_some hp
      rw [Bool.and_eq_true] at hbounds
      exact ⟨mem_of_find?_eq_some hp, hbounds⟩
    · have hbounds := find?_some hp
      rw [Bool.and_eq_true] at hbounds
      exact ⟨mem_of_find?_eq_some hp, hbounds⟩
  · cases h

/-- The bounds of a scan fit the predicates they are chosen from. -/
theorem boundsFrom_fits (keysAt : Option Nat) (mapKey : Option String) (ps : List Predicate)
    (n pos : Nat) : (boundsFrom keysAt mapKey ps n pos).Fits keysAt mapKey ps pos := by
  induction n generalizing pos with
  | zero => constructor <;> simp [boundsFrom]
  | succ n ih =>
    rw [boundsFrom]
    split
    · next k hk =>
      obtain ⟨hkeys, hposition, hlower, hupper, hchosen, hkeyed⟩ := ih (pos + 1)
      refine ⟨fun i k' hk' => ?_, fun r hr => ?_, hlower, hupper, fun i k' hk' hat hkey => ?_,
        hkeyed⟩
      · cases i with
        | zero =>
          cases hk'
          exact keyFits_of_keyAt? hk
        | succ i =>
          rw [show pos + (i + 1) = pos + 1 + i by omega]
          exact hkeys i k' hk'
      · rw [hposition r hr, length_cons]
        omega
      · cases i with
        | zero =>
          cases hk'
          rw [keyAt?, if_pos ⟨hat, hkey⟩] at hk
          exact (Option.some.inj hk).symm
        | succ i =>
          rw [show pos + (i + 1) = pos + 1 + i by omega] at hat
          exact hchosen i k' hk' hat hkey
    · next hnone =>
      refine ⟨by simp, fun r hr => (rangeAt_eq_some hr).1, fun r p hr hp => ?_, fun r p hr hp => ?_,
        by simp, fun r hr hkey => ?_⟩
      · obtain ⟨rfl, hlower, -⟩ := rangeAt_eq_some hr
        exact hlower p hp
      · obtain ⟨rfl, -, hupper⟩ := rangeAt_eq_some hr
        exact hupper p hp
      · obtain ⟨rfl, -⟩ := rangeAt_eq_some hr
        exact keysAt_ne_of_keyAt? hnone hkey

/-- The predicates that bound the scan are among those they are chosen from, and are kept. They are
on the fields of the equality keys, or on that of the range. -/
theorem Bounds.Fits.of_mem (h : b.Fits keysAt mapKey ps pos) (hp : p ∈ b.predicates) :
    p ∈ ps ∧ p.status = .keep ∧
      (p.position < pos + b.keys.length ∨ ∃ r, b.range = some r ∧ p.position = r.position) := by
  rcases mem_append.1 hp with hp | hp
  · obtain ⟨k, hk, hkp⟩ := mem_filterMap.1 hp
    obtain ⟨i, hi⟩ := getElem?_of_mem hk
    have hfit := h.keys i k hi
    cases k with
    | mapKey => cases hkp
    | predicate q =>
      cases hkp
      obtain ⟨hkeep, hpos, -⟩ := Predicate.boundsAt_iff.1 hfit.2.1
      obtain ⟨hlt, -⟩ := List.getElem?_eq_some_iff.1 hi
      exact ⟨hfit.1, hkeep, .inl (by omega)⟩
  · cases hr : b.range with
    | none => simp [hr] at hp
    | some r =>
      simp only [hr, Option.map_some, Option.getD_some, mem_append, Option.mem_toList] at hp
      have hbounds : p ∈ ps ∧ p.boundsAt r.position := by
        rcases hp with hp | hp
        · exact ⟨(h.lower r p hr hp).1, (h.lower r p hr hp).2.1⟩
        · exact ⟨(h.upper r p hr hp).1, (h.upper r p hr hp).2.1⟩
      obtain ⟨hkeep, hpos, -⟩ := Predicate.boundsAt_iff.1 hbounds.2
      exact ⟨hbounds.1, hkeep, .inr ⟨r, rfl, hpos⟩⟩

/-! ### What the bounds ask of an entry -/

theorem compares_singleton (any : Bool) (accepts : Ordering → Bool) (r : Standing) (w : Value) :
    compares any accepts [r] w = (r w).any accepts := by
  cases any <;> simp [compares]

section
variable {h : Graph} {scan : NodeId}

/-- An item stands to the constant of a predicate as the predicate asks. -/
theorem standsTo_operand {w : Value} (hw : p.value = some w)
    (hlit : h.expr p.operand = .literal w) (r : Standing) :
    h.standsTo r p.op.holds p.operand ↔ p.IsMet [r] := by
  rw [Predicate.isMet_iff hw, compares_singleton]
  simp [Graph.standsTo, hlit]

theorem Comparison.eq_of_isLower (h : op.isLower) :
    (if op.isInclusive then Comparison.ge else .gt) = op := by
  cases op <;> first | rfl | cases h

theorem Comparison.eq_of_isUpper (h : op.isUpper) :
    (if op.isInclusive then Comparison.le else .lt) = op := by
  cases op <;> first | rfl | cases h

/-- The constant of a predicate is found at its operand. -/
def Predicate.IsConstantIn (p : Predicate) (g : Graph) : Prop :=
  ∃ w, p.value = some w ∧ g.expr p.operand = .literal w

theorem Predicate.IsReadAt.isConstantIn
    {any : Bool} (hread : p.IsReadAt g path rowVar left) (htest : p.TestsInteger any)
    (hpq : p.Restates q) (hk : g.Keeps Expr.IsSteady h) : q.IsConstantIn h := by
  obtain ⟨w, hw, hint⟩ := htest.value
  have hlit := Graph.constant?_eq_some.1 (hread.value ▸ hw)
  rw [hpq.eq]
  exact ⟨w, hw, hk.expr_integral hlit hint⟩

/-- Equality keys ask for what the predicates ask for that they come from. -/
theorem keys_admit_iff {key : String} {ks : List KeySource} {ids : List NodeId}
    (hids : Forall₂ (h.IsKey key) ks ids) (entry : Nat → Standing) :
    ∀ (pos : Nat), (∀ i k, ks[i]? = some k → Bounds.KeyFits none none ps (pos + i) k) →
      (∀ p ∈ ks.filterMap (·.predicate?), p.IsConstantIn h) →
      ((ids.zipIdx pos).all (fun (key, i) => h.standsTo (entry i) Comparison.eq.holds key) ↔
        ∀ p ∈ ks.filterMap (·.predicate?), p.IsMet [entry p.position]) := by
  induction hids with
  | nil => simp
  | @cons k id ks ids hk _ ih =>
    intro pos hfits hconst
    cases k with
    | mapKey => exact nomatch (hfits 0 _ rfl).1
    | predicate p =>
      obtain ⟨-, hbounds, heq⟩ := hfits 0 _ rfl
      have hpos : p.position = pos := (Predicate.boundsAt_iff.1 hbounds).2.1
      have hop : p.op = .eq := by simpa [Predicate.isEquality] using heq
      cases hk
      simp only [zipIdx_cons, all_cons, Bool.and_eq_true, filterMap_cons,
        KeySource.predicate?, mem_cons, forall_eq_or_imp] at hconst ⊢
      obtain ⟨⟨w, hw, hlit⟩, hrest⟩ := hconst
      refine and_congr ?_ (ih (pos + 1) (fun i k hk => ?_) hrest)
      · rw [← standsTo_operand hw hlit, hpos, hop]
      · rw [show pos + 1 + i = pos + (i + 1) by omega]
        exact hfits (i + 1) k hk

/-- An end of a range asks for what its predicate asks for. -/
theorem end_admits_iff {o : Option Predicate} (r : Standing) (inclusive exclusive : Comparison)
    (hop : ∀ p, o = some p → (if p.op.isInclusive then inclusive else exclusive) = p.op)
    (hconst : ∀ p, o = some p → p.IsConstantIn h) :
    (o.map (·.operand)).all
        (h.standsTo r (if o.any (·.op.isInclusive) then inclusive else exclusive).holds) ↔
      ∀ p, o = some p → p.IsMet [r] := by
  cases o with
  | none => simp
  | some p =>
    obtain ⟨w, hw, hlit⟩ := hconst p rfl
    simp only [Option.map_some, Option.all_some, Option.any_some, hop p rfl,
      standsTo_operand hw hlit, Option.some.injEq, forall_eq']

/-- Bounds without a key of a map admit the entries that meet the predicates they are made of. -/
theorem admits_iff (happ : a.Applied g site scan h) (hfits : a.bounds.Fits none none ps 0)
    (hconst : ∀ p ∈ a.bounds.predicates, p.IsConstantIn h) (entry : Nat → Standing) :
    h.admits scan entry ↔ ∀ p ∈ a.bounds.predicates, p.IsMet [entry p.position] := by
  obtain ⟨s, hs, hkeys, hrange⟩ := happ.access
  unfold Bounds.predicates at hconst
  unfold Graph.admits Bounds.predicates
  simp only [hs, hrange, Option.any_some, Bool.and_eq_true, mem_append, or_imp,
    forall_and] at hconst ⊢
  refine and_congr (keys_admit_iff hkeys entry 0 hfits.keys hconst.1) ?_
  cases hr : a.bounds.range with
  | none => simp
  | some r =>
    have hends : ∀ p, r.lower = some p ∨ r.upper = some p → p.IsConstantIn h := by
      simpa [hr] using hconst.2
    have hlower := end_admits_iff (o := r.lower) (entry r.position) .ge .gt
      (fun p hp => Comparison.eq_of_isLower (hfits.lower r p hr hp).2.2)
      fun p hp => hends p (.inl hp)
    have hupper := end_admits_iff (o := r.upper) (entry r.position) .le .lt
      (fun p hp => Comparison.eq_of_isUpper (hfits.upper r p hr hp).2.2)
      fun p hp => hends p (.inr hp)
    have hposition : ∀ p, r.lower = some p ∨ r.upper = some p → p.position = r.position := by
      rintro p (hp | hp)
      · exact (Predicate.boundsAt_iff.1 (hfits.lower r p hr hp).2.1).2.1
      · exact (Predicate.boundsAt_iff.1 (hfits.upper r p hr hp).2.1).2.1
    simp only [Option.map_some, Option.all_some, RangeBounds.toFieldRange, Bool.and_eq_true,
      hlower, hupper, Option.getD_some, mem_append, Option.mem_toList, or_imp, forall_and]
    refine and_congr (forall₂_congr fun p hp => ?_) (forall₂_congr fun p hp => ?_)
    · rw [hposition p (.inl hp)]
    · rw [hposition p (.inr hp)]

end

/-! ## The choice of predicates -/

theorem map_eq_of_restates {α : Type} {f : Predicate → α}
    (h : Forall₂ Predicate.Restates ps qs) (hf : ∀ {p q}, p.Restates q → f q = f p) :
    qs.map f = ps.map f := by
  induction h with
  | nil => rfl
  | cons hpq _ ih => rw [map_cons, map_cons, ih, hf hpq]

theorem ordinals_eq_of_restates
    (h : Forall₂ Predicate.Restates ps qs) : qs.map (·.ordinal) = ps.map (·.ordinal) :=
  map_eq_of_restates h fun hpq => by rw [hpq.eq]

theorem restates_map {f : Predicate → Predicate}
    (hf : ∀ p ∈ ps, p.Restates (f p)) : Forall₂ Predicate.Restates ps (ps.map f) :=
  forall₂_map_right_iff.2 (forall₂_same.2 hf)

theorem Predicate.restates_underKey (path : AccessPath) (key : String)
    (hp : p.status = .keep) : p.Restates (p.underKey path key) := by
  unfold underKey
  split
  · split
    · exact .refl p
    · exact .skipped p
  · split
    · split
      · next hsame =>
        exact .of_kept hp fun _ => by simp_all
      · exact .skipped p
    · split
      · exact .skipped p
      · exact .refl p

theorem restates_chooseMapKey (w : Weights) (path : AccessPath) (hps : ∀ p ∈ ps, p.status = .keep) :
    Forall₂ Predicate.Restates ps (chooseMapKey w path ps).2 := by
  unfold chooseMapKey
  split
  · exact forall₂_same.2 fun p _ => .refl p
  · split
    · exact forall₂_same.2 fun p _ => .refl p
    · exact restates_map fun p hp => Predicate.restates_underKey path _ (hps p hp)

theorem restates_restrictMultiKey (path : AccessPath) (ps : List Predicate) :
    Forall₂ Predicate.Restates ps (restrictMultiKey path ps) := by
  refine restates_map ?_
  intro p _
  split
  · exact .skipped p
  · exact .refl p

theorem Predicate.release_eq_or (path : AccessPath) (mapKey : Option String) (b : Bounds)
    (p : Predicate) :
    p.release path mapKey b = p ∨ p.release path mapKey b = { p with status := .skip } := by
  unfold release
  simp only
  split
  · exact .inr rfl
  · exact .inl rfl

theorem Bounds.uses_release (b : Bounds) (path : AccessPath) (mapKey : Option String)
    (p : Predicate) : b.uses (p.release path mapKey b) = b.uses p := by
  rcases p.release_eq_or path mapKey b with h | h
  · rw [h]
  · rw [h]; rfl

theorem Predicate.isMet_release (path : AccessPath) (mapKey : Option String) (b : Bounds)
    (p : Predicate) (items : List Standing) :
    (p.release path mapKey b).IsMet items ↔ p.IsMet items := by
  rcases p.release_eq_or path mapKey b with h | h
  · rw [h]
  · rw [h]; rfl

/-- Without a key of a map only predicates are released that look at fewer items than an index
entry stands for. -/
theorem map_release_eq (h : ∀ p ∈ rs, p.widened = false) (path : AccessPath)
    (b : Bounds) : rs.map (·.release path none b) = rs := by
  conv_rhs => rw [← map_id rs]
  refine map_congr_left ?_
  intro p hp
  simp [Predicate.release, h p hp]

theorem Predicate.restates_release (path : AccessPath) (mapKey : Option String) (b : Bounds)
    (p : Predicate) : p.Restates (p.release path mapKey b) := by
  unfold release
  simp only
  split
  · exact .skipped p
  · exact .refl p

namespace Analysis

/-- Before conflicts are settled, only statuses have changed. -/
theorem exists_of_mem_contenders {k : Predicate} (hk : k ∈ contenders w path ps) :
    ∃ p ∈ ps, k = { p with status := k.status } := by
  have hchoose : ∀ k ∈ (chooseMapKey w path ps).2, ∃ p ∈ ps, k = { p with status := k.status } := by
    intro k hk
    unfold chooseMapKey at hk
    split at hk
    · exact ⟨k, hk, rfl⟩
    · split at hk
      · exact ⟨k, hk, rfl⟩
      · obtain ⟨p, hp, rfl⟩ := mem_map.1 hk
        refine ⟨p, hp, ?_⟩
        unfold Predicate.underKey
        repeat' split
        all_goals rfl
  obtain ⟨k', hk', rfl⟩ := mem_map.1 hk
  obtain ⟨p, hp, heq⟩ := hchoose k' hk'
  refine ⟨p, hp, ?_⟩
  split
  · rw [heq]
  · exact heq

/-- Without keys of a map and fields with fan-out, every predicate takes part in settling
conflicts. -/
theorem contenders_eq_self (hkeys : path.mapKeys? = none)
    (hfan : ∀ pos, path.fansOutAt pos = false) (w : Weights) (ps : List Predicate) :
    contenders w path ps = ps := by
  have hkey : chooseMapKey w path ps = (none, ps) := by simp [chooseMapKey, hkeys]
  rw [contenders, hkey]
  simp [restrictMultiKey, Predicate.isIndependent, hfan]

theorem choose_eq_none :
    choose w path ps = none ↔ resolveConflicts path.fansOutAt (contenders w path ps) = none :=
  Option.map_eq_none_iff

/-- What is chosen: the key of a map, and the settled predicates with the bounds they make, less what
the bounds do not allow after all. -/
theorem choose_eq_some : choose w path ps = some (mapKey, qs, b) ↔
      mapKey = (chooseMapKey w path ps).1 ∧
      ∃ rs, resolveConflicts path.fansOutAt (contenders w path ps) = some rs ∧
        b = boundsFrom path.mapKeys? mapKey rs path.fields.length 0 ∧
        qs = rs.map (·.release path mapKey b) := by
  simp only [choose, Option.map_eq_some_iff, Prod.mk.injEq]
  constructor
  · rintro ⟨rs, hrs, rfl, rfl, rfl⟩
    exact ⟨rfl, rs, hrs, rfl, rfl⟩
  · rintro ⟨rfl, rs, hrs, rfl, rfl⟩
    exact ⟨rs, hrs, rfl, rfl, rfl⟩

/-! ## The analysis -/

/-- What an analysis that was found says about the block. -/
structure IsFound (a : Analysis) (g : Graph) (t : Table) (w : Weights) (site : Site)
    (path : AccessPath) : Prop where
  path_eq : a.path = path
  chosen : ∃ ps, readPredicates g path site = .ok ps ∧
    choose w path ps = some (a.mapKey, a.predicates, a.bounds)
  retained_eq : a.retained = (a.sortVariables g).retained
  absorbed_eq : a.absorbed = (a.sortVariables g).absorbed
  indexFilters_eq : a.indexFilters = (a.addIndexFilters g t site).indexFilters

theorem isFound_of_run (h : run g t w site path = .ok (some a)) : a.IsFound g t w site path := by
  unfold run at h
  cases hps : readPredicates g path site with
  | error e => rw [hps] at h; cases h
  | ok ps =>
    rw [hps] at h
    simp only [bind, Except.bind] at h
    split at h
    · cases h
    · next mapKey qs b hchoose =>
      cases h
      exact ⟨rfl, ⟨ps, hps, hchoose⟩, rfl, rfl, rfl⟩

theorem IsFound.mapKey_eq (h : a.IsFound g t w site path) (hps : readPredicates g path site = .ok ps) :
    a.mapKey = (chooseMapKey w path ps).1 := by
  obtain ⟨ps', hps', hchoose⟩ := h.chosen
  cases hps.symm.trans hps'
  exact (choose_eq_some.1 hchoose).1

theorem run_eq_none : run g t w site path = .ok none ↔
      ∃ ps, readPredicates g path site = .ok ps ∧ choose w path ps = none := by
  unfold run
  cases hps : readPredicates g path site with
  | error e => simp [bind, Except.bind]
  | ok ps =>
    cases hchoose : choose w path ps with
    | none => simp [bind, Except.bind, hchoose, pure, Except.pure]
    | some qb => simp [bind, Except.bind, hchoose, pure, Except.pure]

theorem exists_run (h : readPredicates g path site = .ok ps) (t : Table) (w : Weights) :
    ∃ r, run g t w site path = .ok r := by
  unfold run
  rw [h]
  cases hchoose : choose w path ps with
  | none => exact ⟨none, by simp [bind, Except.bind, hchoose, pure, Except.pure]⟩
  | some qb => exact ⟨_, by simp [bind, Except.bind, hchoose, pure, Except.pure]; rfl⟩

/-- The settled predicates behind an analysis. -/
theorem IsFound.exists_settled (h : a.IsFound g t w site path) :
    ∃ ps rs, readPredicates g path site = .ok ps ∧
      ReflTransGen (Settles path.fansOutAt) (contenders w path ps) rs ∧
      a.bounds.Fits path.mapKeys? (chooseMapKey w path ps).1 rs 0 ∧
      a.predicates = rs.map (·.release path (chooseMapKey w path ps).1 a.bounds) := by
  obtain ⟨ps, hps, hchoose⟩ := h.chosen
  obtain ⟨hkey, rs, hrs, hbounds, hqs⟩ := choose_eq_some.1 hchoose
  rw [hkey] at hbounds hqs
  refine ⟨ps, rs, hps, resolveConflicts_run hrs, ?_, hqs⟩
  rw [hbounds]
  exact boundsFrom_fits _ _ _ _ _

/-- Where every predicate takes part in settling conflicts, the analysis settles them, and that is
all. -/
theorem IsFound.exists_resolved (h : a.IsFound g t w site path) (hkeys : path.mapKeys? = none)
    (hcont : ∀ ps, readPredicates g path site = .ok ps →
      contenders w path ps = ps ∧ ∀ p ∈ ps, p.widened = false) :
    ∃ ps, readPredicates g path site = .ok ps ∧
      resolveConflicts path.fansOutAt ps = some a.predicates ∧
      a.bounds.Fits none none a.predicates 0 := by
  obtain ⟨ps, hps, hchoose⟩ := h.chosen
  obtain ⟨hall, hwidened⟩ := hcont ps hps
  obtain ⟨hkey, rs, hrs, hbounds, hqs⟩ := choose_eq_some.1 hchoose
  replace hkey : a.mapKey = none := by simpa [chooseMapKey, hkeys] using hkey
  rw [hall] at hrs
  rw [hkey, hkeys] at hbounds
  have hsame : a.predicates = rs := by
    rw [hqs, hkey]
    refine map_release_eq (fun r hr => ?_) path _
    obtain ⟨p, hp, hpr⟩ := exists_of_forall₂ (restates_of_run (resolveConflicts_run hrs)) hr
    rw [hpr.widened_eq, hwidened p hp]
  refine ⟨ps, hps, hsame ▸ hrs, ?_⟩
  rw [hbounds, hsame]
  exact boundsFrom_fits _ _ _ _ _

theorem restates_contenders (w : Weights) (hps : readPredicates g path site = .ok ps) :
    Forall₂ Predicate.Restates ps (contenders w path ps) := by
  refine forall₂_restates_trans (restates_chooseMapKey w path fun p hp => ?_)
    (restates_restrictMultiKey path _)
  obtain ⟨-, left, hread⟩ := isReadAt_of_mem hps hp
  exact hread.kept

section
variable (hps : readPredicates g path site = .ok ps)
  (hrun : ReflTransGen (Settles path.fansOutAt) (contenders w path ps) rs)
include hps hrun

theorem restates_settled : Forall₂ Predicate.Restates ps rs :=
  forall₂_restates_trans (restates_contenders w hps) (restates_of_run hrun)

theorem uses_iff_mem_predicates (hfits : b.Fits keysAt mapKey rs 0) {r : Predicate} (hr : r ∈ rs) :
    b.uses r ↔ r ∈ b.predicates := by
  rw [Bounds.uses_iff]
  refine ⟨fun ⟨p, hp, hord⟩ => ?_, fun hr => ⟨r, hr, rfl⟩⟩
  have hnodup : (rs.map (·.ordinal)).Nodup := by
    rw [ordinals_eq_of_restates (restates_settled hps hrun), ordinals_readPredicates hps]
    exact nodup_range
  rwa [← inj_on_of_nodup_map hnodup (hfits.of_mem hp).1 hr hord]

end

/-! ## What becomes of a conjunct -/

/-- The conjunct of the predicate leaves the WHERE clause. -/
def takes (a : Analysis) (p : Predicate) : Bool :=
  (p.status = .implied || !a.retains p) && a.pushes p

theorem mem_consumed :
    c ∈ a.consumed ↔ (∃ p ∈ a.predicates, a.takes p ∧ p.conjunct = c) ∨ c ∈ a.indexFilters := by
  simp [consumed, pushed, takes, and_assoc]

theorem mem_remaining : c ∈ a.remaining g site ↔ c ∈ g.conjuncts site.block ∧ c ∉ a.consumed := by
  simp [remaining]

theorem mem_filterConjuncts : c ∈ a.filterConjuncts ↔
      (∃ p ∈ a.predicates, a.filters p ∧ p.conjunct = c) ∨ c ∈ a.indexFilters := by
  simp [filterConjuncts, and_assoc]

/-- A predicate that the scan takes over bounds it, filters entries, or is implied. -/
theorem pushes_iff : a.pushes p ↔ a.bounds.uses p ∨ p.status = .keep ∨ p.status = .implied := by
  simp [pushes, Predicate.isKept, or_assoc]

theorem filters_iff : a.filters p ↔ p.status = .keep ∧ a.bounds.uses p = false := by
  simp [filters, Predicate.isKept]

theorem evaluableWithin_of_isEvaluable (hc : g.expr c = .call f args)
    (heval : isEvaluable g t path rowVar c) :
    ∀ arg ∈ args, evaluableWithin g t path rowVar g.size arg := by
  unfold isEvaluable evaluableWithin at heval
  simp only [Graph.queryPath?_call hc, hc] at heval
  exact all_eq_true.1 heval

theorem isResident_of_isEvaluable {q : QueryPath} (hc : g.expr c = .call f args)
    (hleft : left ∈ args) (hq : g.queryPath? rowVar left = some q)
    (heval : isEvaluable g t path rowVar c) : q.unnested = none ∧ isResident t path q := by
  have hargs := evaluableWithin_of_isEvaluable hc heval left hleft
  cases hsize : g.size with
  | zero => rw [hsize] at hargs; cases hargs
  | succ n =>
    rw [hsize, evaluableWithin, hq] at hargs
    simpa using hargs

section
variable (h : a.IsFound g t w site path)
include h

/-- A further FROM variable with a predicate that is pushed is retained or absorbed. -/
theorem IsFound.mem_retained (hp : p ∈ a.predicates) (hpushes : a.pushes p)
    (hu : p.unnested = some u) (habsorbed : u ∉ a.absorbed) : u ∈ a.retained := by
  rw [h.absorbed_eq] at habsorbed
  rw [h.retained_eq]
  have hvar : u ∈ a.pushed.filterMap (·.unnested) :=
    mem_filterMap.2 ⟨p, mem_filter.2 ⟨hp, hpushes⟩, hu⟩
  simp only [sortVariables, mem_filter, mem_eraseDups, hvar, true_and] at habsorbed ⊢
  simpa using habsorbed

/-- Of the predicates on a variable that is not absorbed, only the implied ones are taken over. -/
theorem IsFound.implied_of_takes (hp : p ∈ a.predicates) (hu : p.unnested = some u)
    (habsorbed : u ∉ a.absorbed) (htakes : a.takes p) : p.status = .implied := by
  rw [takes, Bool.and_eq_true] at htakes
  have hretained := h.mem_retained hp htakes.2 hu habsorbed
  simpa [retains, hu, hretained] using htakes.1

/-- The further conjuncts checked on index entries belong to no predicate that is pushed, mention
the row, and can be evaluated on an entry. -/
theorem IsFound.mem_indexFilters : c ∈ a.indexFilters ↔ c ∈ g.conjuncts site.block ∧
      (∀ p ∈ a.predicates, p.conjunct = c → p.status = .skip) ∧
      g.anyBelow c (· == site.rowVar) ∧ isEvaluable g t path site.rowVar c := by
  rw [h.indexFilters_eq]
  simp only [addIndexFilters, h.path_eq, mem_filter, mem_eraseDups, Bool.and_eq_true,
    and_assoc]
  refine and_congr_right fun _ => and_congr_left fun _ => ?_
  simp only [Bool.not_eq_true', ← Bool.not_eq_true, contains_iff_mem, mem_map,
    mem_filter, bne_iff_ne, not_exists, not_and]
  constructor
  · intro hused p hp hpc
    by_contra hskip
    exact hused p ⟨hp, hskip⟩ hpc
  · rintro hskip p ⟨hp, hne⟩ hpc
    exact hne (hskip p hp hpc)

theorem IsFound.restates : ∃ ps, readPredicates g path site = .ok ps ∧
      Forall₂ Predicate.Restates ps a.predicates := by
  obtain ⟨ps, rs, hps, hrun, -, hqs⟩ := h.exists_settled
  refine ⟨ps, hps, ?_⟩
  rw [hqs]
  exact forall₂_restates_trans (restates_settled hps hrun)
    (restates_map fun p _ => p.restates_release path _ _)

theorem IsFound.eq_of_ordinal_eq
    (hp : p ∈ a.predicates) (hq : q ∈ a.predicates) (hpq : p.ordinal = q.ordinal) : p = q := by
  obtain ⟨ps, hps, hr⟩ := h.restates
  refine inj_on_of_nodup_map (f := (·.ordinal)) ?_ hp hq hpq
  rw [ordinals_eq_of_restates hr, ordinals_readPredicates hps]
  exact nodup_range

theorem IsFound.mem_bounds (hfits : a.bounds.Fits keysAt mapKey a.predicates 0)
    (hp : p ∈ a.predicates) (huses : a.bounds.uses p) : p ∈ a.bounds.predicates := by
  obtain ⟨q, hq, hord⟩ := (a.bounds.uses_iff p).1 huses
  rwa [← h.eq_of_ordinal_eq (hfits.of_mem hq).1 hp hord]

/-- Where no conjunct stands twice, each predicate has a conjunct of its own. -/
theorem IsFound.nodup_conjuncts
    (hnodup : (g.conjuncts site.block).Nodup) : (a.predicates.map (·.conjunct)).Nodup := by
  obtain ⟨ps, hps, hr⟩ := h.restates
  rw [map_eq_of_restates hr (·.conjunct_eq)]
  exact hnodup.sublist (conjuncts_readPredicates hps)

theorem IsFound.eq_of_conjunct_eq (hnodup : (g.conjuncts site.block).Nodup) (hp : p ∈ a.predicates)
    (hq : q ∈ a.predicates) (hpq : p.conjunct = q.conjunct) : p = q :=
  inj_on_of_nodup_map (h.nodup_conjuncts hnodup) hp hq hpq

theorem IsFound.exists_isReadAt (hp : p ∈ a.predicates) : ∃ (p₀ : Predicate) (left : NodeId),
    p₀.Restates p ∧ p₀.conjunct ∈ g.conjuncts site.block ∧ p₀.IsReadAt g path site.rowVar left := by
  obtain ⟨ps, hps, hr⟩ := h.restates
  obtain ⟨p₀, hp₀, hpp⟩ := exists_of_forall₂ hr hp
  obtain ⟨hc, left, hread⟩ := isReadAt_of_mem hps hp₀
  exact ⟨p₀, left, hpp, hc, hread⟩

theorem IsFound.conjunct_mem (hp : p ∈ a.predicates) : p.conjunct ∈ g.conjuncts site.block := by
  obtain ⟨p₀, left, hpp, hc, -⟩ := h.exists_isReadAt hp
  rw [hpp.eq]
  exact hc

theorem IsFound.conjunct_lt (hp : p ∈ a.predicates) :
    p.conjunct < g.size ∧ (g.expr p.conjunct).isConjunction = false := by
  obtain ⟨p₀, left, hpp, -, hread⟩ := h.exists_isReadAt hp
  rw [hpp.conjunct_eq]
  exact hread.conjunct_lt

theorem IsFound.filterConjuncts_subset : ∀ c ∈ a.filterConjuncts, c ∈ g.conjuncts site.block := by
  intro c hc
  rcases mem_filterConjuncts.1 hc with ⟨p, hp, -, rfl⟩ | hc
  · exact h.conjunct_mem hp
  · exact (h.mem_indexFilters.1 hc).1

end

end Analysis

/-! ## Predicates that were turned into equalities -/

/-- The operator of a comparison. -/
def Graph.operator? (g : Graph) (c : NodeId) : Option Comparison :=
  match g.expr c with
  | .call (.compare op _) _ => some op
  | _ => none

theorem Predicate.IsReadAt.op_ne (h : p.IsReadAt g path rowVar left)
    (hne : g.operator? p.conjunct ≠ some .ne) : p.op ≠ .ne := by
  obtain ⟨op, ⟨hcall, hop⟩ | ⟨hcall, hop⟩⟩ := h.conjunct <;>
    simp only [Graph.operator?, hcall, ne_eq, Option.some.injEq] at hne <;> rw [hop]
  · exact hne
  · cases op <;> simp_all [Comparison.swap]

/-- The predicate was settled as an equality, which its conjunct does not state: two inclusive
bounds left a single value. -/
def Predicate.isCollapsed (p : Predicate) (g : Graph) : Bool :=
  p.op = .eq && g.operator? p.conjunct ≠ some .eq

theorem Predicate.IsReadAt.op_eq_of_not_isCollapsed (h : p.IsReadAt g path rowVar left)
    (hpq : p.Restates q) (hq : q.isCollapsed g = false) : q.op = p.op := by
  rcases hpq.op with hop | ⟨hop, -⟩
  · exact hop
  · -- An equality that was not collapsed was written as one.
    have hconj := hpq.conjunct_eq
    obtain ⟨op, ⟨hc, hop'⟩ | ⟨hc, hop'⟩⟩ := h.conjunct <;>
      simp_all [isCollapsed, Graph.operator?, Comparison.swap]

/-- What was collapsed looks at all items that the field holds. -/
theorem Predicate.IsReadAt.widened_eq_false (h : p.IsReadAt g path rowVar left) (hpq : p.Restates q)
    (hq : q.isCollapsed g) : q.widened = false := by
  rw [hpq.widened_eq]
  rcases hpq.op with hop | ⟨-, -, hw⟩
  · have hconj := hpq.conjunct_eq
    obtain ⟨op, ⟨hc, hop'⟩ | ⟨hc, hop'⟩⟩ := h.conjunct <;> cases op <;>
      simp_all [isCollapsed, Graph.operator?, Comparison.swap]
  · exact hw

namespace Analysis

/-! ## Given blocks -/

/-- There is an analysis, and it passes a test. -/
def foundWith (r : Except CompileError (Option Analysis)) (test : Analysis → Bool) : Bool :=
  match r with
  | .ok (some a) => test a
  | _ => false

theorem exists_of_foundWith (r : Except CompileError (Option Analysis)) (test : Analysis → Bool)
    (h : foundWith r test) : ∃ a, r = .ok (some a) ∧ test a := by
  unfold foundWith at h
  split at h
  · exact ⟨_, rfl, h⟩
  · cases h

end Analysis

/-- A query block in a graph, with its scan. -/
structure ScanBlock where
  graph : Graph
  site : Site
  scan : NodeId

/-- A block over rows of a given type, with conjuncts that are laid out from the row. It selects fields
of the row or, if none are named, the row. -/
def ScanBlock.over (rowType : ItemType) (names : List String)
    (tests : NodeId → Graph → List NodeId × Graph) : ScanBlock :=
  let (scan, g) := ({} : Graph).add (.scan { table := "t", rowType := rowType })
  let (row, g) := g.addVar "$t" .row
  let (conjuncts, g) := tests row g
  let (condition, g) := g.addConnective .and conjuncts
  let (select, g) := g.addFields row names
  let (block, g) := g.addDeclaring
    (.block
      { entries := [⟨scan, row⟩]
        condition := some condition
        select := select
        star := names.isEmpty }) none
  ⟨g, ⟨block, row⟩, scan⟩

/-- An index on integer columns. -/
def integerIndex (name : String) (columns : List String) : Index :=
  ⟨name, "t", columns.map fun c => ⟨[.field c]⟩, columns.map fun _ => .integer⟩

/-- A table with the key `id` and further columns. -/
def idTable (columns : List (String × ItemType)) (indexes : List Index) : Table :=
  { name := "t"
    fields := (("id", .integer) :: columns).mapIdx fun pos (name, type) => ⟨name, type, pos != 0, pos⟩
    primaryKey := ["id"]
    shardKeyLength := 1
    indexes := indexes }

/-- An index on the elements of the array `arr`. -/
def arrayIndex : Index := ⟨"arr", "t", [⟨[.field "arr", .elements]⟩], [.integer]⟩

/-- A table with an array of integers and the index on its elements. -/
def arrayTable : Table := idTable [("arr", .array .integer)] [arrayIndex]

/-- The index on the elements of the array. -/
abbrev arrayPath : AccessPath := .ofIndex arrayTable (some arrayIndex)

end ShardedQuery
