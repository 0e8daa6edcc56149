import ShardedQuery.Proofs.Value.Exact
import ShardedQuery.Proofs.Value.Plain
import ShardedQuery.Value.Fingerprint

/-!
# The order of values without doubles

Values are in order of the rank of their kind first (`Value.cmp_eq_then`), those of one kind by their
keys or part by part. So three values without doubles stand to each other in a row
(`Value.cmp_chains`), which is all that a total order needs: the order of two values the other way
round and transitivity follow from it (`Value.cmp_totalOrder`).
-/

namespace ShardedQuery

open List

variable {o₂ o o₁ : Ordering} {c a b : Value}

/-! ## Lexicographic order -/

theorem chains_lt (o : Ordering) : Chains .lt o .lt := by
  cases o <;> trivial

theorem chains_gt (o : Ordering) : Chains o .gt .gt := by
  cases o <;> trivial

/-- What stands in a row by first components does so by pairs, if the second components do where the
first ones are equal. -/
theorem Chains.then {p₁ p p₂ : Ordering} (h : Chains o₁ o o₂)
    (hp : o₁ = .eq → o = .eq → Chains p₁ p p₂) : Chains (o₁.then p₁) (o.then p) (o₂.then p₂) := by
  cases o₁ with
  | eq =>
    obtain rfl : o₂ = o := h
    cases o₂ with
    | eq => exact hp rfl rfl
    | lt | gt => cases p₁ <;> trivial
  | lt =>
    cases o with
    | gt => trivial
    | lt | eq =>
      obtain rfl : o₂ = .lt := h
      cases p <;> trivial
  | gt =>
    cases o with
    | lt => trivial
    | gt | eq =>
      obtain rfl : o₂ = .gt := h
      cases p <;> trivial

/-- In a row that ends where it starts, the way back is the way there reversed. -/
theorem Chains.eq_swap (h : Chains o₁ o .eq) : o = o₁.swap := by
  cases o₁ with
  | eq => exact Eq.symm h
  | lt | gt => cases o <;> trivial

theorem Chains.isLE (h : Chains o₁ o o₂) (h₁ : o₁.isLE) (ho : o.isLE) : o₂.isLE := by
  cases o₁ with
  | lt =>
    cases o with
    | lt | eq => cases h; rfl
    | gt => cases ho
  | eq =>
    cases h
    exact ho
  | gt => cases h₁

namespace Value

/-! ## Kinds -/

/-- Values of different kinds are in the order of their kinds. -/
theorem cmp_eq_then (a b : Value) : cmp a b = (compare a.rank b.rank).then (cmp a b) := by
  cases a <;> cases b <;> rfl

/-- It is enough to look at values of one kind. -/
theorem chains_of_rank
    (h : a.rank = b.rank → b.rank = c.rank → Chains (cmp a b) (cmp b c) (cmp a c)) :
    Chains (cmp a b) (cmp b c) (cmp a c) := by
  rw [cmp_eq_then a b, cmp_eq_then b c, cmp_eq_then a c]
  exact (chains_of_transCmp compare ..).then fun hab hbc =>
    h (Nat.compare_eq_eq.1 hab) (Nat.compare_eq_eq.1 hbc)

/-- A value of the kind of one with a key has a key, by which the two are compared. -/
theorem exists_key_of_rank {i : ExactKey} (hi : a.exactKey? = some i) (hb : b.isPlain)
    (hrank : a.rank = b.rank) : ∃ j, b.exactKey? = some j ∧ i.compare? j = some (cmp a b) := by
  cases a with
  | boolean x =>
    cases hi
    cases b with
    | boolean y => exact ⟨_, rfl, rfl⟩
    | _ => cases hrank
  | integer m | long m =>
    cases hi
    cases b with
    | integer n | long n => exact ⟨_, rfl, rfl⟩
    | double x => cases hb
    | _ => cases hrank
  | string x =>
    cases hi
    cases b with
    | string y => exact ⟨_, rfl, rfl⟩
    | _ => cases hrank
  | timestamp m =>
    cases hi
    cases b with
    | timestamp n => exact ⟨_, rfl, rfl⟩
    | _ => cases hrank
  | binary x =>
    cases hi
    cases b with
    | binary y => exact ⟨_, rfl, rfl⟩
    | _ => cases hrank
  | _ => cases hi

/-- Nulls and the empty sequence are alone in their kinds. -/
theorem eq_of_rank (ha : a.exactKey? = none) (hplain : a.isPlain)
    (hflat : a.isContainer = false) (hrank : a.rank = b.rank) : b = a := by
  cases a with
  | null =>
    cases b with
    | null => rfl
    | _ => cases hrank
  | jsonNull =>
    cases b with
    | jsonNull => rfl
    | _ => cases hrank
  | empty =>
    cases b with
    | empty => rfl
    | _ => cases hrank
  | double x => cases hplain
  | array | map => cases hflat
  | _ => cases ha

/-! ## Three values -/

theorem cmp_self (ha : a.isPlain) : cmp a a = .eq := (cmp_eq_iff ha ha).2 rfl

/-- Values that are not compared part by part. -/
theorem cmp_chains_flat (ha : a.isPlain) (hb : b.isPlain) (hc : c.isPlain)
    (hflat : a.isContainer = false) : Chains (cmp a b) (cmp b c) (cmp a c) := by
  refine chains_of_rank fun hab hbc => ?_
  cases hi : a.exactKey? with
  | some i =>
    obtain ⟨j, hj, hij⟩ := exists_key_of_rank hi hb hab
    obtain ⟨k, hk, hjk⟩ := exists_key_of_rank hj hc hbc
    obtain ⟨k', hk', hik⟩ := exists_key_of_rank hi hc (hab.trans hbc)
    obtain rfl : k' = k := Option.some.inj (hk'.symm.trans hk)
    obtain ⟨o, ho, hchains⟩ := ExactKey.compare?_chains hij hjk
    exact Option.some.inj (ho.symm.trans hik) ▸ hchains
  | none =>
    obtain rfl := eq_of_rank hi ha hflat hab
    obtain rfl := eq_of_rank hi ha hflat hbc
    rw [cmp_self ha]
    rfl

mutual

/-- Values without doubles stand to each other in a row. -/
theorem cmp_chains : ∀ {a b c : Value}, a.isPlain → b.isPlain → c.isPlain →
    Chains (cmp a b) (cmp b c) (cmp a c)
  | array as, b, c, ha, hb, hc => by
    refine chains_of_rank fun hab hbc => ?_
    cases b <;> cases hab
    cases c <;> cases hbc
    rw [cmp, cmp, cmp]
    exact cmpItems_chains ha hb hc
  | map as, b, c, ha, hb, hc => by
    refine chains_of_rank fun hab hbc => ?_
    cases b <;> cases hab
    cases c <;> cases hbc
    rw [cmp, cmp, cmp]
    exact cmpEntries_chains ha hb hc
  | null, _, _, ha, hb, hc | jsonNull, _, _, ha, hb, hc | boolean _, _, _, ha, hb, hc
  | integer _, _, _, ha, hb, hc | long _, _, _, ha, hb, hc | double _, _, _, ha, hb, hc
  | string _, _, _, ha, hb, hc | timestamp _, _, _, ha, hb, hc | binary _, _, _, ha, hb, hc
  | empty, _, _, ha, hb, hc => cmp_chains_flat ha hb hc rfl

theorem cmpItems_chains : ∀ {as bs cs : List Value}, arePlain as → arePlain bs → arePlain cs →
    Chains (cmpItems as bs) (cmpItems bs cs) (cmpItems as cs)
  | [], [], _, _, _, _ => rfl
  | [], _ :: _, [], _, _, _ => trivial
  | [], _ :: _, _ :: _, _, _, _ => chains_lt _
  | _ :: _, [], [], _, _, _ => rfl
  | _ :: _, [], _ :: _, _, _, _ => trivial
  | _ :: _, _ :: _, [], _, _, _ => chains_gt _
  | a :: as, b :: bs, c :: cs, ha, hb, hc => by
    simp only [arePlain, Bool.and_eq_true] at ha hb hc
    exact (cmp_chains ha.1 hb.1 hc.1).then fun _ _ => cmpItems_chains ha.2 hb.2 hc.2

theorem cmpEntries_chains : ∀ {as bs cs : List (String × Value)}, arePlainEntries as →
    arePlainEntries bs → arePlainEntries cs →
    Chains (cmpEntries as bs) (cmpEntries bs cs) (cmpEntries as cs)
  | [], [], _, _, _, _ => rfl
  | [], _ :: _, [], _, _, _ => trivial
  | [], _ :: _, _ :: _, _, _, _ => chains_lt _
  | _ :: _, [], [], _, _, _ => rfl
  | _ :: _, [], _ :: _, _, _, _ => trivial
  | _ :: _, _ :: _, [], _, _, _ => chains_gt _
  | (k, v) :: as, (l, w) :: bs, (m, x) :: cs, ha, hb, hc => by
    simp only [arePlainEntries, Bool.and_eq_true] at ha hb hc
    exact (chains_of_transCmp compare k l m).then fun _ _ =>
      (cmp_chains ha.1 hb.1 hc.1).then fun _ _ => cmpEntries_chains ha.2 hb.2 hc.2

end

theorem cmp_swap (ha : a.isPlain) (hb : b.isPlain) : cmp b a = (cmp a b).swap := by
  have h := cmp_chains ha hb ha
  rw [cmp_self ha] at h
  exact h.eq_swap

/-! ## Comparisons of queries -/

/-- What a comparison finds in order is compared by keys. -/
theorem isExact_of_compareAtomic (ha : a.isPlain) (hb : b.isPlain)
    (h : a.compareAtomic b = some o) : a.isExact ∧ b.isExact := by
  constructor
  · cases a with
    | double x => cases ha
    | null | jsonNull | array | map | empty => cases b <;> cases h
    | _ => rfl
  · cases b with
    | double x => cases hb
    | null | jsonNull | array | map | empty => cases a <;> cases h
    | _ => rfl

/-- A comparison that finds two values in order finds them as they are in the order of all values, and
the other way round with exchanged operands. -/
theorem cmp_of_compareAtomic (ha : a.isPlain) (hb : b.isPlain)
    (h : a.compareAtomic b = some o) : cmp a b = o ∧ b.compareAtomic a = some o.swap := by
  obtain ⟨hexact, hexact'⟩ := isExact_of_compareAtomic ha hb h
  obtain ⟨i, hi⟩ := Option.isSome_iff_exists.1 hexact
  obtain ⟨j, hj⟩ := Option.isSome_iff_exists.1 hexact'
  have hij : i.compare? j = some o := compareAtomic_eq hi hj ▸ h
  have hcmp : cmp a b = o := by rw [cmp_eq_keys hi hj, hij]; rfl
  have hkind := ExactKey.compare?_isSome_iff.1 (Option.isSome_iff_exists.2 ⟨o, hij⟩)
  obtain ⟨o', ho'⟩ := Option.isSome_iff_exists.1 (ExactKey.compare?_isSome_iff.2 hkind.symm)
  have hback : cmp b a = o' := by rw [cmp_eq_keys hj hi, ho']; rfl
  rw [compareAtomic_eq hj hi, ho', ← hback, cmp_swap ha hb, hcmp]
  exact ⟨rfl, rfl⟩

/-! ## Fingerprints -/

theorem length_widenedItems (vs : List Value) : (widenedItems vs).length = vs.length := by
  induction vs with
  | nil => rfl
  | cons v vs ih => rw [widenedItems, length_cons, ih, length_cons]

theorem length_widenedEntries (es : List (String × Value)) :
    (widenedEntries es).length = es.length := by
  induction es with
  | nil => rfl
  | cons e es ih => rw [widenedEntries, length_cons, ih, length_cons]

mutual

/-- The width of integers leaves no trace. -/
theorem fingerprint_widened : ∀ v : Value, v.widened.fingerprint = v.fingerprint
  | integer n => by simp [widened, fingerprint, rank]
  | array items => by
    simp only [widened, fingerprint, rank, length_widenedItems, itemsFingerprint_widened items]
  | map entries => by
    simp only [widened, fingerprint, rank, length_widenedEntries,
      entriesFingerprint_widened entries]
  | null | jsonNull | boolean _ | long _ | double _ | string _ | timestamp _ | binary _ | empty => rfl

theorem itemsFingerprint_widened : ∀ vs : List Value,
    itemsFingerprint (widenedItems vs) = itemsFingerprint vs
  | [] => rfl
  | v :: vs => by
    rw [widenedItems, itemsFingerprint, fingerprint_widened v, itemsFingerprint_widened vs,
      itemsFingerprint]

theorem entriesFingerprint_widened : ∀ es : List (String × Value),
    entriesFingerprint (widenedEntries es) = entriesFingerprint es
  | [] => rfl
  | (k, v) :: es => by
    rw [widenedEntries, entriesFingerprint, fingerprint_widened v, entriesFingerprint_widened es,
      entriesFingerprint]

end

/-! ## The order -/

/-- Values without doubles are in a total order. Equal values are the same up to the width of
integers and leave the same fingerprint, and a comparison of a query finds two values in this order,
if it finds them in any. -/
theorem cmp_totalOrder {a b c : Value} (ha : a.isPlain) (hb : b.isPlain) (hc : c.isPlain) :
    cmp a a = .eq ∧
    ((cmp a b).isLE → (cmp b a).isLE → a == b) ∧
    ((cmp a b).isLE → (cmp b c).isLE → (cmp a c).isLE) ∧
    ((cmp a b).isLE ∨ (cmp b a).isLE) ∧
    cmp b a = (cmp a b).swap ∧
    (a == b ↔ cmp a b = .eq) ∧
    (a == b ↔ a.widened = b.widened) ∧
    (∀ o, a.compareAtomic b = some o → cmp a b = o ∧ b.compareAtomic a = some o.swap) ∧
    (a == b → a.fingerprint = b.fingerprint) := by
  have hswap := cmp_swap ha hb
  have heq : a == b ↔ cmp a b = .eq := beq_iff_eq (a := a.cmp b) (b := .eq)
  refine ⟨cmp_self ha, fun hab hba => ?_, (cmp_chains ha hb hc).isLE, ?_, hswap, heq,
    beq_iff_widened ha hb, fun o => cmp_of_compareAtomic ha hb, fun h => ?_⟩
  · rw [hswap] at hba
    rw [heq]
    cases h : cmp a b with
    | eq => rfl
    | lt => rw [h] at hba; cases hba
    | gt => rw [h] at hab; cases hab
  · rw [hswap]
    cases cmp a b <;> simp
  · rw [← fingerprint_widened a, (beq_iff_widened ha hb).1 h, fingerprint_widened b]

theorem cmp_totalOrder_nested :
    let a := array [integer 1, map [("k", long 2)], empty]
    let b := array [long 1, map [("k", integer 2)], empty]
    let c := array [long 1, map [("k", integer 3)]]
    (a.isPlain ∧ b.isPlain ∧ c.isPlain ∧ a ≠ b) ∧
    a == b ∧ a.fingerprint = b.fingerprint ∧ cmp c a = .gt ∧ (cmp b c).isLE ∧ (cmp a c).isLE := by
  intro a b c
  obtain ⟨-, -, htrans, -, -, hbeq, -, -, hprint⟩ :=
    cmp_totalOrder (a := a) (b := b) (c := c) rfl rfl rfl
  obtain ⟨-, -, -, -, hswap, -⟩ := cmp_totalOrder (a := a) (b := c) (c := c) rfl rfl rfl
  have heq : a == b := hbeq.2 (by decide +kernel)
  have hlt : cmp a c = .lt := by decide +kernel
  have hbc : (cmp b c).isLE := by decide +kernel
  refine ⟨⟨rfl, rfl, rfl, by simp [a, b]⟩, heq, hprint heq, ?_, hbc, htrans (by decide +kernel) hbc⟩
  rw [hswap, hlt]
  rfl

end Value

end ShardedQuery
