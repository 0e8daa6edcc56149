import Mathlib.Order.Compare
import Mathlib.Data.String.Basic
import ShardedQuery.Value.Order

/-!
# Equality of values without doubles

Two values without doubles are equal if they are the same value once every integer is written as a
long (`Value.cmp_eq_iff`). So equality is an equivalence on these values, and it is decided part by
part. Doubles are left out because a long is rounded before it meets a double.
-/

namespace ShardedQuery.Value

variable {a b : Value}

mutual

/-- There is no double in the value. -/
def isPlain : Value → Bool
  | double _ => false
  | array items => arePlain items
  | map entries => arePlainEntries entries
  | _ => true

/-- There is no double in the elements of an array. -/
def arePlain : List Value → Bool
  | [] => true
  | v :: vs => v.isPlain && arePlain vs

/-- There is no double in the values of a map. -/
def arePlainEntries : List (String × Value) → Bool
  | [] => true
  | (_, v) :: es => v.isPlain && arePlainEntries es

end

mutual

/-- The value with its integers as longs. -/
def widened : Value → Value
  | integer n => long n.toInt64
  | array items => array (widenedItems items)
  | map entries => map (widenedEntries entries)
  | v => v

def widenedItems : List Value → List Value
  | [] => []
  | v :: vs => v.widened :: widenedItems vs

def widenedEntries : List (String × Value) → List (String × Value)
  | [] => []
  | (k, v) :: es => (k, v.widened) :: widenedEntries es

end

/-- The value is compared part by part. -/
def isContainer : Value → Bool
  | array _ | map _ => true
  | _ => false

/-- Values that are not compared part by part differ in kind, or they are of a kind whose order
tells different values apart. -/
theorem cmpFlat_eq_iff (ha : a.isPlain) (hb : b.isPlain)
    (h : a.isContainer = false ∨ b.isContainer = false ∨ a.rank ≠ b.rank) :
    cmpFlat a b = .eq ↔ a.widened = b.widened := by
  have hwide (m n : Int64) : m.toInt = n.toInt ↔ m = n := Int64.toInt_inj
  cases a <;> cases b <;>
    simp_all [isPlain, isContainer, cmpFlat, isNumber, isNaN, compareAtomic, rank, toInt?, widened,
      ← Int32.toInt_toInt64]

theorem cmp_eq_cmpFlat (h : a.isContainer = false ∨ b.isContainer = false ∨ a.rank ≠ b.rank) :
    cmp a b = cmpFlat a b := by
  rw [cmp]
  · rintro as bs rfl rfl
    simp [isContainer, rank] at h
  · rintro as bs rfl rfl
    simp [isContainer, rank] at h

mutual

/-- Equality is the same value up to the width of integers. -/
theorem cmp_eq_iff : ∀ {a b : Value}, a.isPlain → b.isPlain →
    (cmp a b = .eq ↔ a.widened = b.widened)
  | array as, b, ha, hb => by
    by_cases hflat : b.isContainer = false ∨ (array as).rank ≠ b.rank
    · rw [cmp_eq_cmpFlat (.inr hflat), cmpFlat_eq_iff ha hb (.inr hflat)]
    · cases b <;> simp [isContainer, rank] at hflat
      rw [cmp, cmpItems_eq_iff ha hb, widened, widened, array.injEq]
  | map as, b, ha, hb => by
    by_cases hflat : b.isContainer = false ∨ (map as).rank ≠ b.rank
    · rw [cmp_eq_cmpFlat (.inr hflat), cmpFlat_eq_iff ha hb (.inr hflat)]
    · cases b <;> simp [isContainer, rank] at hflat
      rw [cmp, cmpEntries_eq_iff ha hb, widened, widened, map.injEq]
  | null, b, ha, hb | jsonNull, b, ha, hb | boolean _, b, ha, hb | integer _, b, ha, hb
  | long _, b, ha, hb | double _, b, ha, hb | string _, b, ha, hb | timestamp _, b, ha, hb
  | binary _, b, ha, hb | empty, b, ha, hb => by
    rw [cmp_eq_cmpFlat (.inl rfl), cmpFlat_eq_iff ha hb (.inl rfl)]

theorem cmpItems_eq_iff : ∀ {as bs : List Value}, arePlain as → arePlain bs →
    (cmpItems as bs = .eq ↔ widenedItems as = widenedItems bs)
  | [], [], _, _ => by simp [cmpItems, widenedItems]
  | [], _ :: _, _, _ => by simp [cmpItems, widenedItems]
  | _ :: _, [], _, _ => by simp [cmpItems, widenedItems]
  | a :: as, b :: bs, ha, hb => by
    simp only [arePlain, Bool.and_eq_true] at ha hb
    rw [cmpItems, Ordering.then_eq_eq, cmp_eq_iff ha.1 hb.1, cmpItems_eq_iff ha.2 hb.2,
      widenedItems, widenedItems, List.cons.injEq]

theorem cmpEntries_eq_iff : ∀ {as bs : List (String × Value)}, arePlainEntries as →
    arePlainEntries bs → (cmpEntries as bs = .eq ↔ widenedEntries as = widenedEntries bs)
  | [], [], _, _ => by simp [cmpEntries, widenedEntries]
  | [], _ :: _, _, _ => by simp [cmpEntries, widenedEntries]
  | _ :: _, [], _, _ => by simp [cmpEntries, widenedEntries]
  | (k, v) :: as, (l, w) :: bs, ha, hb => by
    simp only [arePlainEntries, Bool.and_eq_true] at ha hb
    rw [cmpEntries, Ordering.then_eq_eq, Ordering.then_eq_eq, cmp_eq_iff ha.1 hb.1,
      cmpEntries_eq_iff ha.2 hb.2, compare_eq_iff_eq, widenedEntries, widenedEntries,
      List.cons.injEq, Prod.mk.injEq, and_assoc]

end

theorem beq_iff_widened (ha : a.isPlain) (hb : b.isPlain) : a == b ↔ a.widened = b.widened := by
  rw [← cmp_eq_iff ha hb]
  exact beq_iff_eq (a := a.cmp b) (b := .eq)

end ShardedQuery.Value
