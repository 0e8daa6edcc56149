import ShardedQuery.Value.Order

/-!
# Values that are compared exactly

An atomic value that is neither null nor a double is compared by its `ExactKey`, without rounding.
Keys of one kind are in a linear order, so that three of them stand to each other in a row (`Chains`).
-/

namespace ShardedQuery

variable {v : Value}

/-! ## Three in a row -/

/-- Three items in a row: the first stands to the second as `o₁`, the second to the third as `o`,
and the first to the third as `o₂`. -/
def Chains : Ordering → Ordering → Ordering → Prop
  | .lt, .gt, _ | .gt, .lt, _ => True
  | .eq, o, o₂ => o₂ = o
  | o₁, _, o₂ => o₂ = o₁

/-- Items of a linear order stand to each other in a row. -/
theorem chains_of_transCmp {α : Type} (cmp : α → α → Ordering) [Std.TransCmp cmp] (a b c : α) :
    Chains (cmp a b) (cmp b c) (cmp a c) := by
  cases hab : cmp a b with
  | lt =>
    cases hbc : cmp b c with
    | lt => exact Std.TransCmp.lt_trans hab hbc
    | eq => exact (Std.TransCmp.congr_right hbc).symm.trans hab
    | gt => trivial
  | eq => exact Std.TransCmp.congr_left hab
  | gt =>
    cases hbc : cmp b c with
    | lt => trivial
    | eq => exact (Std.TransCmp.congr_right hbc).symm.trans hab
    | gt => exact Std.TransCmp.gt_trans hab hbc

/-! ## Keys -/

/-- What an atomic value is compared by when no rounding is involved. -/
inductive ExactKey where
  | boolean (b : Bool)
  | number (n : Int)
  | string (s : String)
  | timestamp (millis : Int)
  | binary (bytes : List UInt8)

/-- Keys of one kind are in order. -/
def ExactKey.compare? : ExactKey → ExactKey → Option Ordering
  | boolean a, boolean b => some (compare a b)
  | number a, number b => some (compare a b)
  | string a, string b => some (compare a b)
  | timestamp a, timestamp b => some (compare a b)
  | binary a, binary b => some (List.compareLex compare a b)
  | _, _ => none

theorem ExactKey.compare?_isSome_iff {i j : ExactKey} :
    (i.compare? j).isSome ↔ i.ctorIdx = j.ctorIdx := by
  cases i <;> cases j <;> simp [compare?, ExactKey.ctorIdx]

/-- Two keys that can be compared with a third in between. -/
theorem ExactKey.compare?_chains {i j k : ExactKey} {o₁ o : Ordering}
    (hij : i.compare? j = some o₁) (hjk : j.compare? k = some o) :
    ∃ o₂, i.compare? k = some o₂ ∧ Chains o₁ o o₂ := by
  cases i <;> cases j <;> simp only [compare?, reduceCtorEq, Option.some.injEq] at hij <;>
    cases k <;> simp only [compare?, reduceCtorEq, Option.some.injEq] at hjk <;>
    subst hij hjk <;> exact ⟨_, rfl, chains_of_transCmp _ _ _ _⟩

namespace Value

/-- The key of an atomic value that is not null and no double. -/
def exactKey? : Value → Option ExactKey
  | boolean b => some (.boolean b)
  | integer n => some (.number n.toInt)
  | long n => some (.number n.toInt)
  | string s => some (.string s)
  | timestamp m => some (.timestamp m.toInt)
  | binary bytes => some (.binary bytes)
  | _ => none

/-- The value is compared without rounding. -/
def isExact (v : Value) : Bool := v.exactKey?.isSome

section
variable {w : Value} {i j : ExactKey} (hv : v.exactKey? = some i) (hw : w.exactKey? = some j)
include hv hw

theorem compareAtomic_eq : v.compareAtomic w = i.compare? j := by
  cases v <;> simp only [exactKey?, reduceCtorEq, Option.some.injEq] at hv <;> subst hv <;>
    cases w <;> simp only [exactKey?, reduceCtorEq, Option.some.injEq] at hw <;> subst hw <;> rfl

/-- Exact values of different kinds differ in rank, those of one kind in their keys only. -/
theorem cmp_eq_keys : v.cmp w = (i.compare? j).getD (compare v.rank w.rank) := by
  cases v <;> simp only [exactKey?, reduceCtorEq, Option.some.injEq] at hv <;> subst hv <;>
    cases w <;> simp only [exactKey?, reduceCtorEq, Option.some.injEq] at hw <;> subst hw <;> rfl

theorem rank_ne_of_compare?_eq_none (h : i.compare? j = none) : v.rank ≠ w.rank := by
  cases v <;> simp only [exactKey?, reduceCtorEq, Option.some.injEq] at hv <;> subst hv <;>
    cases w <;> simp only [exactKey?, reduceCtorEq, Option.some.injEq] at hw <;> subst hw <;>
    simp_all [ExactKey.compare?, rank]

end

theorem isExact_of_isAtomic (hatomic : v.isAtomic) (hnull : v.isNull = false)
    (hv : ∀ x, v ≠ .double x) : v.isExact := by
  cases v with
  | null | jsonNull => cases hnull
  | double x => exact absurd rfl (hv x)
  | array | map | empty => cases hatomic
  | _ => rfl

theorem isExact_of_toInt? (h : v.toInt?.isSome) : v.isExact := by
  cases v <;> first | rfl | cases h

/-- Exact values are equal when a comparison finds them so. -/
theorem compareAtomic_of_beq {w : Value} (hv : v.isExact) (hw : w.isExact) (h : v == w) :
    v.compareAtomic w = some .eq := by
  obtain ⟨i, hi⟩ := Option.isSome_iff_exists.1 hv
  obtain ⟨j, hj⟩ := Option.isSome_iff_exists.1 hw
  have hcmp : v.cmp w = .eq := eq_of_beq h
  rw [cmp_eq_keys hi hj] at hcmp
  rw [compareAtomic_eq hi hj]
  cases hc : i.compare? j with
  | some o => rw [hc] at hcmp; exact congrArg some hcmp
  | none =>
    rw [hc] at hcmp
    exact absurd (Nat.compare_eq_eq.1 hcmp) (rank_ne_of_compare?_eq_none hi hj hc)

end Value

end ShardedQuery
