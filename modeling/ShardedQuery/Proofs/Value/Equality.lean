import ShardedQuery.Proofs.Value.Doubles
import ShardedQuery.Proofs.Value.Plain

/-!
# Equality of all values

Two values are equal if they are the same once all numbers are rounded to doubles, and if wherever
both have an integer they have the same one (`Value.beq_iff_rounded`). The first half is an
equivalence. The second is not transitive: a double lets two integers pass that are rounded to it,
while the integers are told apart when they meet each other (`Value.beq_rounds_and_merges`). That
takes integers of more than fifty-three bits.

Rounding makes one NaN of all, as equality does. A fingerprint keeps the bits of a NaN, so equal
values have one fingerprint if their NaNs are the same (`Value.fingerprint_eq_iff`).
-/

namespace ShardedQuery.Value

open List

variable {a b v w : Value} {R : Value → Value → Prop} {x : Binary64} {n : Int} {ws : List Value}

/-! ## Places -/

/-- The elements of an array or the values of a map. -/
def parts : Value → List Value
  | array items => items
  | map entries => entries.map (·.2)
  | _ => []

/-- The part of a value at a place, which counts the parts on the way from the outside. -/
def part? : List Nat → Value → Option Value
  | [], v => some v
  | i :: place, v => v.parts[i]?.bind (part? place)

/-- What two values have at one place is in the relation `R`, wherever both have a part. -/
def AtAllPlaces (R : Value → Value → Prop) (a b : Value) : Prop :=
  ∀ place v w, a.part? place = some v → b.part? place = some w → R v w

/-- Parts at the same position are in the relation `R`. -/
def Beside (R : Value → Value → Prop) (vs ws : List Value) : Prop :=
  ∀ (i : Nat) v w, vs[i]? = some v → ws[i]? = some w → R v w

theorem beside_cons {vs : List Value} : Beside R (v :: vs) (w :: ws) ↔ R v w ∧ Beside R vs ws := by
  constructor
  · intro h
    exact ⟨h 0 v w rfl rfl, fun i => h (i + 1)⟩
  · rintro ⟨h, hrest⟩ i v' w' hv hw
    cases i with
    | zero =>
      cases hv
      cases hw
      exact h
    | succ i => exact hrest i v' w' hv hw

theorem beside_nil : Beside R [] ws := nofun

theorem atAllPlaces_iff : AtAllPlaces R a b ↔ R a b ∧ Beside (AtAllPlaces R) a.parts b.parts := by
  constructor
  · intro h
    refine ⟨h [] a b rfl rfl, fun i v w hv hw place v' w' hv' hw' => ?_⟩
    apply h (i :: place) v' w'
    · rw [part?, hv]; exact hv'
    · rw [part?, hw]; exact hw'
  · rintro ⟨h, hparts⟩ place v w hv hw
    cases place with
    | nil =>
      cases hv
      cases hw
      exact h
    | cons i place =>
      obtain ⟨v', hv', hv⟩ := Option.bind_eq_some_iff.1 hv
      obtain ⟨w', hw', hw⟩ := Option.bind_eq_some_iff.1 hw
      exact hparts i v' w' hv' hw' place v w hv hw

/-! ## Rounding -/

mutual

/-- The value with its numbers as doubles, zeros made positive and one NaN for all. -/
def rounded : Value → Value
  | integer n => double (Binary64.ofInt n.toInt).canonical
  | long n => double (Binary64.ofInt n.toInt).canonical
  | double x => double x.canonical
  | array items => array (roundedItems items)
  | map entries => map (roundedEntries entries)
  | v => v

def roundedItems : List Value → List Value
  | [] => []
  | v :: vs => v.rounded :: roundedItems vs

def roundedEntries : List (String × Value) → List (String × Value)
  | [] => []
  | (k, v) :: es => (k, v.rounded) :: roundedEntries es

end

theorem rounded_eq (h : v.toBinary64? = some x) : v.rounded = double x.canonical := by
  cases v <;> cases h <;> rfl

theorem roundedItems_eq_map (vs : List Value) : roundedItems vs = vs.map rounded := by
  induction vs with
  | nil => rfl
  | cons v vs ih => rw [roundedItems, ih, map_cons]

theorem roundedEntries_eq_map (es : List (String × Value)) :
    roundedEntries es = es.map fun e => (e.1, e.2.rounded) := by
  induction es with
  | nil => rfl
  | cons e es ih => rw [roundedEntries, ih, map_cons]

theorem parts_rounded (v : Value) : v.rounded.parts = v.parts.map rounded := by
  cases v with
  | array items => exact roundedItems_eq_map items
  | map entries =>
    rw [rounded, parts, roundedEntries_eq_map, map_map, parts, map_map]
    rfl
  | _ => rfl

theorem part?_rounded (place : List Nat) (v : Value) :
    v.rounded.part? place = (v.part? place).map rounded := by
  induction place generalizing v with
  | nil => rfl
  | cons i place ih =>
    rw [part?, part?, parts_rounded, getElem?_map, Option.bind_map, Option.map_bind]
    exact congrArg _ (funext ih)

theorem rank_rounded (v : Value) : v.rounded.rank = v.rank := by
  cases v <;> rfl

theorem isContainer_rounded (v : Value) : v.rounded.isContainer = v.isContainer := by
  cases v <;> rfl

/-! ## Numbers -/

/-- Values that are integers are the same integer. -/
def SameInteger (v w : Value) : Prop := ∀ m n, v.toInt? = some m → w.toInt? = some n → m = n

/-- Values that are integers are of at most fifty-three bits. -/
def ShortIntegers (v w : Value) : Prop :=
  ∀ m n, v.toInt? = some m → w.toInt? = some n → m.natAbs ≤ 2 ^ 53 ∧ n.natAbs ≤ 2 ^ 53

/-- Values that are NaNs are the same NaN. -/
def SameNaN (v w : Value) : Prop := ∀ x y, v = double x → w = double y → x.isNaN → x = y

theorem natAbs_toInt?_lt (h : v.toInt? = some n) : n.natAbs < 2 ^ 64 := by
  cases v with
  | integer m =>
    cases h
    have := m.le_toInt
    have := m.toInt_lt
    omega
  | long m =>
    cases h
    have := m.le_toInt
    have := m.toInt_lt
    omega
  | _ => cases h

theorem toBinary64?_of_toInt? (h : v.toInt? = some n) : v.toBinary64? = some (.ofInt n) := by
  cases v <;> cases h <;> rfl

section
variable {y : Binary64}
variable (hx : v.toBinary64? = some x) (hy : w.toBinary64? = some y)
include hx

theorem isNumber_of_toBinary64? : v.isNumber := by
  cases v <;> cases hx <;> rfl

/-- A number is an integer, which is rounded to no NaN, or a double. -/
theorem toInt?_or_eq_double : (∃ n, v.toInt? = some n ∧ x.isNaN = false) ∨ v = double x := by
  cases hv : v.toInt? with
  | some n =>
    cases (toBinary64?_of_toInt? hv).symm.trans hx
    exact .inl ⟨n, rfl, Binary64.isNaN_ofInt (natAbs_toInt?_lt hv)⟩
  | none =>
    right
    cases v <;> cases hv <;> cases hx
    rfl

theorem isNaN_eq : v.isNaN = x.isNaN := by
  obtain ⟨n, hn, hnan⟩ | rfl := toInt?_or_eq_double hx
  · rw [hnan]
    cases v <;> cases hn <;> rfl
  · rfl

include hy

theorem cmpFlat_eq_order (h : v.toInt? = none ∨ w.toInt? = none) :
    cmpFlat v w = Binary64.order x y := by
  have hflat : v.compareAtomic w = x.compare? y := by
    cases v <;> cases hx <;> cases w <;> cases hy <;> first | rfl | simp [toInt?] at h
  rw [cmpFlat, isNumber_of_toBinary64? hx, isNumber_of_toBinary64? hy, isNaN_eq hx, isNaN_eq hy,
    hflat, Binary64.compare?, Binary64.order, Bool.and_self, Bool.true_and]
  split <;> rfl

/-- Equal numbers have equal doubles, and if both are integers, they are the same. -/
theorem cmpFlat_numbers : cmpFlat v w = .eq ↔ x.canonical = y.canonical ∧ SameInteger v w := by
  by_cases h : v.toInt? = none ∨ w.toInt? = none
  · have hsame : SameInteger v w := by
      intro m n hm hn
      obtain hv | hw := h
      · cases hv.symm.trans hm
      · cases hw.symm.trans hn
    rw [cmpFlat_eq_order hx hy h, Binary64.order_eq_iff, and_iff_left hsame]
  · obtain ⟨hv, hw⟩ := not_or.1 h
    obtain ⟨m, hm⟩ := Option.ne_none_iff_exists'.1 hv
    obtain ⟨n, hn⟩ := Option.ne_none_iff_exists'.1 hw
    have hcmp : cmpFlat v w = compare m n := by
      cases v <;> cases hm <;> cases w <;> cases hn <;> rfl
    cases (toBinary64?_of_toInt? hm).symm.trans hx
    cases (toBinary64?_of_toInt? hn).symm.trans hy
    rw [hcmp, compare_eq_iff_eq]
    constructor
    · rintro rfl
      refine ⟨rfl, fun m' n' hm' hn' => ?_⟩
      cases hm.symm.trans hm'
      exact Option.some.inj (hn.symm.trans hn')
    · exact fun hsame => hsame.2 m n hm hn

theorem sameNaN_iff (h : x.canonical = y.canonical) : SameNaN v w ↔ (x.isNaN → x = y) := by
  constructor
  · intro hsame hnan
    have hnan' : y.isNaN := by rw [← y.isNaN_canonical, ← h, x.isNaN_canonical, hnan]
    obtain ⟨n, hn, hnot⟩ | hv := toInt?_or_eq_double hx
    · rw [hnot] at hnan
      cases hnan
    · obtain ⟨n, hn, hnot⟩ | hw := toInt?_or_eq_double hy
      · rw [hnot] at hnan'
        cases hnan'
      · exact hsame x y hv hw hnan
  · rintro hsame x' y' rfl rfl hnan
    cases hx
    cases hy
    exact hsame hnan

end

/-! ## Equal values -/

theorem exists_toBinary64? (h : v.isNumber) : ∃ x, v.toBinary64? = some x := by
  cases v <;> cases h <;> exact ⟨_, rfl⟩

theorem sameInteger_of_not_numbers (h : ¬(v.isNumber ∧ w.isNumber)) :
    SameInteger v w := fun _ _ hm hn =>
  absurd ⟨isNumber_of_toBinary64? (toBinary64?_of_toInt? hm),
    isNumber_of_toBinary64? (toBinary64?_of_toInt? hn)⟩ h

/-- Values that are not both numbers are told apart by their kind or by the order of their kind. -/
theorem cmpFlat_not_numbers (hnum : ¬(a.isNumber ∧ b.isNumber))
    (h : a.isContainer = false ∨ b.isContainer = false ∨ a.rank ≠ b.rank) :
    cmpFlat a b = .eq ↔ a.rounded = b.rounded := by
  have hmillis (m n : Int64) : m.toInt = n.toInt ↔ m = n := Int64.toInt_inj
  cases a <;> cases b <;>
    simp_all [isContainer, cmpFlat, isNumber, compareAtomic, rank, toInt?, toBinary64?, rounded]

theorem atAllPlaces_flat (h : a.isContainer = false) : AtAllPlaces R a b ↔ R a b := by
  have hparts : a.parts = [] := by
    cases a <;> first | rfl | cases h
  rw [atAllPlaces_iff, hparts, and_iff_left beside_nil]

theorem cmpFlat_eq_iff_rounded (h : a.isContainer = false ∨ b.isContainer = false ∨ a.rank ≠ b.rank) :
    cmpFlat a b = .eq ↔ a.rounded = b.rounded ∧ AtAllPlaces SameInteger a b := by
  by_cases hnum : a.isNumber ∧ b.isNumber
  · obtain ⟨x, hx⟩ := exists_toBinary64? hnum.1
    obtain ⟨y, hy⟩ := exists_toBinary64? hnum.2
    have hflat : a.isContainer = false := by
      cases a <;> first | rfl | cases hx
    rw [cmpFlat_numbers hx hy, rounded_eq hx, rounded_eq hy, double.injEq, atAllPlaces_flat hflat]
  · rw [cmpFlat_not_numbers hnum h]
    refine ⟨fun heq => ⟨heq, ?_⟩, And.left⟩
    have hrank : a.rank = b.rank := by rw [← rank_rounded, heq, rank_rounded]
    have hkind : a.isContainer = b.isContainer := by
      rw [← isContainer_rounded, heq, isContainer_rounded]
    have hflat : a.isContainer = false := by
      obtain ha | hb | hne := h
      · exact ha
      · exact hkind.trans hb
      · exact absurd hrank hne
    exact (atAllPlaces_flat hflat).2 (sameInteger_of_not_numbers hnum)

mutual

/-- Equal values are the same once they are rounded, and where both have integers, they have the
same. -/
theorem cmp_eq_iff_rounded : ∀ {a b : Value},
    cmp a b = .eq ↔ a.rounded = b.rounded ∧ AtAllPlaces SameInteger a b
  | array as, b => by
    by_cases hflat : b.isContainer = false ∨ (array as).rank ≠ b.rank
    · rw [cmp_eq_cmpFlat (.inr hflat), cmpFlat_eq_iff_rounded (.inr hflat)]
    · cases b <;> simp [isContainer, rank] at hflat
      rw [cmp, cmpItems_eq_iff_rounded, rounded, rounded, array.injEq, atAllPlaces_iff,
        and_iff_right (sameInteger_of_not_numbers (by simp [isNumber])), parts, parts]
  | map as, b => by
    by_cases hflat : b.isContainer = false ∨ (map as).rank ≠ b.rank
    · rw [cmp_eq_cmpFlat (.inr hflat), cmpFlat_eq_iff_rounded (.inr hflat)]
    · cases b <;> simp [isContainer, rank] at hflat
      rw [cmp, cmpEntries_eq_iff_rounded, rounded, rounded, map.injEq, atAllPlaces_iff,
        and_iff_right (sameInteger_of_not_numbers (by simp [isNumber])), parts, parts]
  | null, b | jsonNull, b | boolean _, b | integer _, b | long _, b | double _, b | string _, b
  | timestamp _, b | binary _, b | empty, b => by
    rw [cmp_eq_cmpFlat (.inl rfl), cmpFlat_eq_iff_rounded (.inl rfl)]

theorem cmpItems_eq_iff_rounded : ∀ {as bs : List Value},
    cmpItems as bs = .eq ↔
      roundedItems as = roundedItems bs ∧ Beside (AtAllPlaces SameInteger) as bs
  | [], [] => by simp [cmpItems, beside_nil]
  | [], _ :: _ => by simp [cmpItems, roundedItems]
  | _ :: _, [] => by simp [cmpItems, roundedItems]
  | a :: as, b :: bs => by
    rw [cmpItems, Ordering.then_eq_eq, cmp_eq_iff_rounded, cmpItems_eq_iff_rounded, roundedItems,
      roundedItems, List.cons.injEq, beside_cons, and_and_and_comm]

theorem cmpEntries_eq_iff_rounded : ∀ {as bs : List (String × Value)},
    cmpEntries as bs = .eq ↔ roundedEntries as = roundedEntries bs ∧
      Beside (AtAllPlaces SameInteger) (as.map (·.2)) (bs.map (·.2))
  | [], [] => by simp [cmpEntries, beside_nil]
  | [], _ :: _ => by simp [cmpEntries, roundedEntries]
  | _ :: _, [] => by simp [cmpEntries, roundedEntries]
  | (k, v) :: as, (l, w) :: bs => by
    rw [cmpEntries, Ordering.then_eq_eq, Ordering.then_eq_eq, cmp_eq_iff_rounded,
      cmpEntries_eq_iff_rounded, compare_eq_iff_eq, roundedEntries, roundedEntries,
      List.cons.injEq, Prod.mk.injEq, map_cons, map_cons, beside_cons, and_and_and_comm,
      and_assoc, and_assoc, and_assoc]

end

theorem beq_iff_rounded : a == b ↔ a.rounded = b.rounded ∧ AtAllPlaces SameInteger a b := by
  rw [← cmp_eq_iff_rounded]
  exact beq_iff_eq (a := a.cmp b) (b := .eq)

theorem atAllPlaces_self (h : ∀ v, R v v) (a : Value) : AtAllPlaces R a a := by
  intro place v w hv hw
  cases hv.symm.trans hw
  exact h v

theorem AtAllPlaces.symm (h : AtAllPlaces R a b) (hsymm : ∀ {v w}, R v w → R w v) :
    AtAllPlaces R b a :=
  fun place v w hv hw => hsymm (h place w v hw hv)

theorem sameInteger_self (v : Value) : SameInteger v v :=
  fun _ _ hm hn => Option.some.inj (hm.symm.trans hn)

theorem SameInteger.symm (h : SameInteger v w) : SameInteger w v :=
  fun m n hm hn => (h n m hn hm).symm

theorem sameNaN_self (v : Value) : SameNaN v v :=
  fun _ _ hx hy _ => double.inj (hx.symm.trans hy)

/-- Integers of at most fifty-three bits are not rounded, so that they are known by their doubles. -/
theorem sameInteger_of_rounded {c : Value} (h : a.rounded = c.rounded)
    (hshort : AtAllPlaces ShortIntegers a c) : AtAllPlaces SameInteger a c := by
  intro place v w hv hw m n hm hn
  obtain ⟨hm', hn'⟩ := hshort place v w hv hw m n hm hn
  have hround : v.rounded = w.rounded := by
    have hpart := part?_rounded place a
    rw [h, part?_rounded, hv, hw] at hpart
    exact (Option.some.inj hpart).symm
  rw [rounded_eq (toBinary64?_of_toInt? hm), rounded_eq (toBinary64?_of_toInt? hn)] at hround
  exact Binary64.eq_of_canonical_ofInt hm' hn' (double.inj hround)

/-! ## Fingerprints -/

theorem length_wordBytes (n : Nat) : (wordBytes n).length = 8 := by
  rw [wordBytes, length_map, length_range]

theorem length_numberBytes (x : Binary64) : (numberBytes x).length = 8 := by
  rw [numberBytes]
  split <;> exact length_wordBytes _

mutual

/-- All numbers feed as many bytes. -/
theorem length_fingerprint_rounded : ∀ v : Value,
    v.rounded.fingerprint.length = v.fingerprint.length
  | integer _ | long _ | double _ => by simp [rounded, fingerprint, length_numberBytes]
  | array items => by
    simp only [rounded, fingerprint, length_cons, length_append, length_wordBytes,
      length_itemsFingerprint_rounded items]
  | map entries => by
    simp only [rounded, fingerprint, length_cons, length_append, length_wordBytes,
      length_entriesFingerprint_rounded entries]
  | null | jsonNull | boolean _ | string _ | timestamp _ | binary _ | empty => rfl

theorem length_itemsFingerprint_rounded : ∀ vs : List Value,
    (itemsFingerprint (roundedItems vs)).length = (itemsFingerprint vs).length
  | [] => rfl
  | v :: vs => by
    rw [roundedItems, itemsFingerprint, length_append, length_fingerprint_rounded v,
      length_itemsFingerprint_rounded vs, itemsFingerprint, length_append]

theorem length_entriesFingerprint_rounded : ∀ es : List (String × Value),
    (entriesFingerprint (roundedEntries es)).length = (entriesFingerprint es).length
  | [] => rfl
  | (k, v) :: es => by
    simp only [roundedEntries, entriesFingerprint, length_append,
      length_fingerprint_rounded v, length_entriesFingerprint_rounded es]

end

/-- The bytes of values that are the same once they are rounded end at one position. -/
theorem append_fingerprint_eq_iff (h : a.rounded = b.rounded) {as bs : List UInt8} :
    a.fingerprint ++ as = b.fingerprint ++ bs ↔ a.fingerprint = b.fingerprint ∧ as = bs := by
  have hlen : a.fingerprint.length = b.fingerprint.length := by
    rw [← length_fingerprint_rounded a, h, length_fingerprint_rounded b]
  refine ⟨fun heq => append_inj heq hlen, fun ⟨hhead, htail⟩ => ?_⟩
  rw [hhead, htail]

theorem isNumber_rounded (v : Value) : v.rounded.isNumber = v.isNumber := by
  cases v <;> rfl

theorem rounded_eq_self (hnum : v.isNumber = false) (hflat : v.isContainer = false) :
    v.rounded = v := by
  cases v <;> cases hnum <;> cases hflat <;> rfl

theorem fingerprint_eq_of_number (h : v.toBinary64? = some x) :
    v.fingerprint = 4 :: numberBytes x := by
  cases v <;> cases h <;> rw [fingerprint] <;> rfl

theorem fingerprint_flat_eq_iff (hflat : a.isContainer = false) (h : a.rounded = b.rounded) :
    a.fingerprint = b.fingerprint ↔ AtAllPlaces SameNaN a b := by
  have hnum : a.isNumber = b.isNumber := by rw [← isNumber_rounded, h, isNumber_rounded]
  have hkind : a.isContainer = b.isContainer := by
    rw [← isContainer_rounded, h, isContainer_rounded]
  cases ha : a.isNumber with
  | true =>
    obtain ⟨x, hx⟩ := exists_toBinary64? ha
    obtain ⟨y, hy⟩ := exists_toBinary64? (hnum ▸ ha)
    rw [rounded_eq hx, rounded_eq hy, double.injEq] at h
    rw [atAllPlaces_flat hflat, sameNaN_iff hx hy h, fingerprint_eq_of_number hx,
      fingerprint_eq_of_number hy, List.cons.injEq, and_iff_right rfl, numberBytes_eq_iff h]
  | false =>
    rw [rounded_eq_self ha hflat, rounded_eq_self (hnum ▸ ha) (hkind ▸ hflat)] at h
    subst h
    exact iff_of_true rfl (atAllPlaces_self sameNaN_self a)

theorem not_sameNaN_container (h : a.isContainer) : SameNaN a b := by
  rintro x y rfl
  cases h

mutual

/-- Values that are the same once they are rounded feed the same bytes if they have the same NaNs. -/
theorem fingerprint_eq_iff : ∀ {a b : Value}, a.rounded = b.rounded →
    (a.fingerprint = b.fingerprint ↔ AtAllPlaces SameNaN a b)
  | array as, b, h => by
    cases b <;> simp only [rounded, reduceCtorEq, array.injEq] at h
    next bs =>
    have hlen : as.length = bs.length := by
      simpa only [roundedItems_eq_map, length_map] using congrArg List.length h
    simp only [fingerprint, hlen, append_cancel_left_eq, List.cons.injEq, rank, true_and]
    rw [itemsFingerprint_eq_iff h, atAllPlaces_iff, and_iff_right (not_sameNaN_container rfl),
      parts, parts]
  | map as, b, h => by
    cases b <;> simp only [rounded, reduceCtorEq, map.injEq] at h
    next bs =>
    have hlen : as.length = bs.length := by
      simpa only [roundedEntries_eq_map, length_map] using congrArg List.length h
    simp only [fingerprint, hlen, append_cancel_left_eq, List.cons.injEq, rank, true_and]
    rw [entriesFingerprint_eq_iff h, atAllPlaces_iff, and_iff_right (not_sameNaN_container rfl),
      parts, parts]
  | null, _, h | jsonNull, _, h | boolean _, _, h | integer _, _, h | long _, _, h
  | double _, _, h | string _, _, h | timestamp _, _, h | binary _, _, h | empty, _, h =>
    fingerprint_flat_eq_iff rfl h

theorem itemsFingerprint_eq_iff : ∀ {as bs : List Value}, roundedItems as = roundedItems bs →
    (itemsFingerprint as = itemsFingerprint bs ↔ Beside (AtAllPlaces SameNaN) as bs)
  | [], [], _ => iff_of_true rfl beside_nil
  | a :: as, b :: bs, h => by
    obtain ⟨hhead, htail⟩ := List.cons.inj h
    rw [itemsFingerprint, itemsFingerprint, append_fingerprint_eq_iff hhead,
      fingerprint_eq_iff hhead, itemsFingerprint_eq_iff htail, beside_cons]

theorem entriesFingerprint_eq_iff : ∀ {as bs : List (String × Value)},
    roundedEntries as = roundedEntries bs → (entriesFingerprint as = entriesFingerprint bs ↔
      Beside (AtAllPlaces SameNaN) (as.map (·.2)) (bs.map (·.2)))
  | [], [], _ => iff_of_true rfl beside_nil
  | (k, v) :: as, (l, w) :: bs, h => by
    obtain ⟨hhead, htail⟩ := List.cons.inj h
    obtain ⟨rfl, hvalue⟩ := Prod.mk.inj hhead
    rw [entriesFingerprint, entriesFingerprint, append_assoc, append_assoc,
      append_cancel_left_eq, append_fingerprint_eq_iff hvalue,
      fingerprint_eq_iff hvalue, entriesFingerprint_eq_iff htail, map_cons, map_cons,
      beside_cons]

end

/-! ## Laws -/

/-- Equality is reflexive and symmetric. It is transitive up to integers that only a double between
them makes equal, so it is transitive if integers are short. Equal values feed the same bytes if
they have the same NaNs. -/
theorem beq_laws (a b c : Value) :
    a == a ∧
    (a == b → b == a) ∧
    (a == b → b == c → (a == c ↔ AtAllPlaces SameInteger a c)) ∧
    (AtAllPlaces ShortIntegers a c → a == b → b == c → a == c) ∧
    (a == b → (a.fingerprint = b.fingerprint ↔ AtAllPlaces SameNaN a b)) := by
  have htrans (hab : a == b) (hbc : b == c) : a.rounded = c.rounded :=
    (beq_iff_rounded.1 hab).1.trans (beq_iff_rounded.1 hbc).1
  refine ⟨?_, fun hab => ?_, fun hab hbc => ?_, fun hshort hab hbc => ?_, fun hab => ?_⟩
  · exact beq_iff_rounded.2 ⟨rfl, atAllPlaces_self sameInteger_self a⟩
  · obtain ⟨hround, hsame⟩ := beq_iff_rounded.1 hab
    exact beq_iff_rounded.2 ⟨hround.symm, hsame.symm SameInteger.symm⟩
  · rw [beq_iff_rounded, and_iff_right (htrans hab hbc)]
  · exact beq_iff_rounded.2 ⟨htrans hab hbc, sameInteger_of_rounded (htrans hab hbc) hshort⟩
  · exact fingerprint_eq_iff (beq_iff_rounded.1 hab).1

theorem beq_laws_mixed :
    let a := array [integer 3, map [("k", double ⟨0x8000000000000000⟩)]]
    let b := array [double ⟨0x4008000000000000⟩, map [("k", integer 0)]]
    let c := array [long 3, map [("k", double ⟨0⟩)]]
    (a == b ∧ b == c ∧ AtAllPlaces ShortIntegers a c ∧ AtAllPlaces SameNaN a b) ∧
    b == a ∧ a == c ∧ AtAllPlaces SameInteger a c ∧ a.fingerprint = b.fingerprint := by
  intro a b c
  obtain ⟨-, hsymm, hiff, hshort, hprint⟩ := beq_laws a b c
  have hab : a == b := by decide +kernel
  have hbc : b == c := by decide +kernel
  have hints : AtAllPlaces ShortIntegers a c := by
    simp [a, c, atAllPlaces_iff, parts, beside_cons, beside_nil, ShortIntegers, toInt?]
  have hnans : AtAllPlaces SameNaN a b := by
    simp [a, b, atAllPlaces_iff, parts, beside_cons, beside_nil, SameNaN]
  have hac := hshort hints hab hbc
  exact ⟨⟨hab, hbc, hints, hnans⟩, hsymm hab, hac, (hiff hab hbc).1 hac, (hprint hab).2 hnans⟩

/-- A double is equal to all integers that are rounded to it, and a NaN to all NaNs. -/
theorem beq_rounds_and_merges :
    (long 9007199254740992 == double ⟨0x4340000000000000⟩ ∧
      double ⟨0x4340000000000000⟩ == long 9007199254740993 ∧
      ¬ long 9007199254740992 == long 9007199254740993) ∧
    (double ⟨0x7ff8000000000000⟩ == double ⟨0x7ff8000000000001⟩ ∧
      (double ⟨0x7ff8000000000000⟩).fingerprint ≠ (double ⟨0x7ff8000000000001⟩).fingerprint) := by
  decide +kernel

end ShardedQuery.Value
