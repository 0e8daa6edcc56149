import Mathlib.Order.Defs.PartialOrder
import ShardedQuery.Value

/-!
# The order of item types

`ItemType.Below` gives the rules of the subtype relation, and `ItemType.isSubtypeOf_iff` says that
`isSubtypeOf` decides them. They define a partial order with `empty` at the bottom and `any` at the
top. A union is an upper bound of its operands in this order, though not always the least one: `json`
is above some of the atomic types, and so is `anyAtomic`.
-/

namespace ShardedQuery

open List

variable {t c w a b : ItemType} {ts : List ItemType}

namespace ItemType

/-! ## Rules -/

/-- The rules of the subtype relation. -/
inductive Below : ItemType → ItemType → Prop where
  | refl (a : ItemType) : Below a a
  | top (a : ItemType) : Below a any
  | bottom (b : ItemType) : Below empty b
  | atomic {a : ItemType} : a.isAtomic → Below a anyAtomic
  | numeric {a : ItemType} : a.isNumeric → Below a number
  | widen : Below integer long
  | scalar {a : ItemType} : a.isJsonScalar → Below a json
  | array {a b : ItemType} : Below a b → Below (array a) (array b)
  | map {a b : ItemType} : Below a b → Below (map a) (map b)

theorem below_of_isSubtypeOf (h : a.isSubtypeOf b) : Below a b := by
  fun_induction isSubtypeOf a b with
  | case1 a b htop =>
    obtain rfl | rfl | rfl := htop
    · exact .refl a
    · exact .top a
    · exact .bottom b
  | case2 a => exact .atomic h
  | case3 a => exact .numeric h
  | case4 a => exact of_decide_eq_true h ▸ .widen
  | case5 a => exact .scalar h
  | case6 b a _ ih => exact .array (ih h)
  | case7 b a _ ih => exact .map (ih h)
  | case8 => cases h

theorem Below.isSubtypeOf (h : Below a b) : a.isSubtypeOf b := by
  induction h with
  | refl a | top a | bottom b => unfold ItemType.isSubtypeOf; simp
  | atomic h | numeric h | scalar h => unfold ItemType.isSubtypeOf; simp [h]
  | widen => rfl
  | array h ih | map h ih => unfold ItemType.isSubtypeOf; simp [ih]

/-- The subtype relation is decided by its rules. -/
theorem isSubtypeOf_iff : a.isSubtypeOf b ↔ Below a b :=
  ⟨below_of_isSubtypeOf, Below.isSubtypeOf⟩

/-! ## Partial order -/

theorem isAtomic_of_isNumeric (h : a.isNumeric) : a.isAtomic := by
  cases a with
  | integer | long | double | number => rfl
  | _ => cases h

theorem isJsonScalar_of_isNumeric (h : a.isNumeric) : a.isJsonScalar := by
  cases a with
  | integer | long | double | number => rfl
  | _ => cases h

theorem Below.eq_empty (h : Below a empty) : a = empty := by
  cases h <;> rfl

theorem Below.eq_any (h : Below any a) : a = any := by
  cases h with
  | refl | top => rfl
  | atomic h | numeric h | scalar h => cases h

/-- Below a type of numbers are such types and the bottom. -/
theorem Below.isNumeric (h : Below a b) (hb : b.isNumeric) : a = empty ∨ a.isNumeric := by
  cases h with
  | refl => exact .inr hb
  | bottom => exact .inl rfl
  | numeric h => exact .inr h
  | widen => exact .inr rfl
  | top | atomic | scalar | array | map => cases hb

theorem Below.isAtomic (h : Below a b) (hb : b.isAtomic) : a = empty ∨ a.isAtomic := by
  cases h with
  | refl => exact .inr hb
  | bottom => exact .inl rfl
  | atomic h => exact .inr h
  | numeric h => exact .inr (isAtomic_of_isNumeric h)
  | widen => exact .inr rfl
  | top | scalar | array | map => cases hb

theorem Below.isJsonScalar (h : Below a b) (hb : b.isJsonScalar) : a = empty ∨ a.isJsonScalar := by
  cases h with
  | refl => exact .inr hb
  | bottom => exact .inl rfl
  | numeric h => exact .inr (isJsonScalar_of_isNumeric h)
  | widen => exact .inr rfl
  | top | atomic | scalar | array | map => cases hb

theorem Below.trans (hab : Below a b) (hbc : Below b c) : Below a c := by
  induction hbc generalizing a with
  | refl => exact hab
  | top => exact .top a
  | bottom => exact hab.eq_empty ▸ .bottom _
  | atomic hb =>
    obtain rfl | ha := hab.isAtomic hb
    · exact .bottom _
    · exact .atomic ha
  | numeric hb =>
    obtain rfl | ha := hab.isNumeric hb
    · exact .bottom _
    · exact .numeric ha
  | widen =>
    cases hab with
    | refl => exact .widen
    | bottom => exact .bottom _
  | scalar hb =>
    obtain rfl | ha := hab.isJsonScalar hb
    · exact .bottom _
    · exact .scalar ha
  | array h ih =>
    cases hab with
    | refl => exact .array h
    | bottom => exact .bottom _
    | array hab => exact .array (ih hab)
  | map h ih =>
    cases hab with
    | refl => exact .map h
    | bottom => exact .bottom _
    | map hab => exact .map (ih hab)

theorem Below.antisymm (hab : Below a b) (hba : Below b a) : a = b := by
  induction hab with
  | refl => rfl
  | top => exact hba.eq_any
  | bottom => exact hba.eq_empty.symm
  | atomic ha =>
    cases hba with
    | refl | atomic => rfl
    | top => cases ha
    | numeric h | scalar h => cases h
  | numeric ha =>
    cases hba with
    | refl | numeric => rfl
    | top | atomic | scalar => cases ha
  | widen => cases hba
  | scalar ha =>
    cases hba with
    | refl | scalar => rfl
    | top => cases ha
    | atomic h | numeric h => cases h
  | array _ ih =>
    cases hba with
    | refl => rfl
    | array h => rw [ih h]
  | map _ ih =>
    cases hba with
    | refl => rfl
    | map h => rw [ih h]

theorem isSubtypeOf_refl (a : ItemType) : a.isSubtypeOf a := (Below.refl a).isSubtypeOf

theorem isSubtypeOf_trans (hab : a.isSubtypeOf b) (hbc : b.isSubtypeOf c) : a.isSubtypeOf c :=
  ((below_of_isSubtypeOf hab).trans (below_of_isSubtypeOf hbc)).isSubtypeOf

theorem isSubtypeOf_antisymm (hab : a.isSubtypeOf b) (hba : b.isSubtypeOf a) : a = b :=
  (below_of_isSubtypeOf hab).antisymm (below_of_isSubtypeOf hba)

/-- Item types in the order of the subtype relation. -/
instance : PartialOrder ItemType where
  le a b := a.isSubtypeOf b
  le_refl := isSubtypeOf_refl
  le_trans _ _ _ := isSubtypeOf_trans
  le_antisymm _ _ := isSubtypeOf_antisymm

instance (a b : ItemType) : Decidable (a ≤ b) := inferInstanceAs (Decidable (a.isSubtypeOf b = true))

theorem le_iff : a ≤ b ↔ Below a b := isSubtypeOf_iff

theorem empty_le (a : ItemType) : empty ≤ a := (Below.bottom a).isSubtypeOf

theorem le_any (a : ItemType) : a ≤ any := (Below.top a).isSubtypeOf

/-- Above an array type are such types and the top. -/
theorem array_le_iff : array a ≤ w ↔ w = any ∨ ∃ v, w = array v ∧ a ≤ v := by
  constructor
  · intro h
    cases le_iff.1 h with
    | refl => exact .inr ⟨a, rfl, le_refl a⟩
    | top => exact .inl rfl
    | array hbelow => exact .inr ⟨_, rfl, hbelow.isSubtypeOf⟩
    | atomic h | numeric h | scalar h => cases h
  · rintro (rfl | ⟨v, rfl, h⟩)
    · exact le_any _
    · exact (Below.array (le_iff.1 h)).isSubtypeOf

/-- Below an array type are such types and the bottom. -/
theorem le_array_iff : a ≤ array w ↔ a = empty ∨ ∃ b, a = array b ∧ b ≤ w := by
  constructor
  · intro h
    cases le_iff.1 h with
    | refl => exact .inr ⟨w, rfl, le_refl w⟩
    | bottom => exact .inl rfl
    | array hbelow => exact .inr ⟨_, rfl, hbelow.isSubtypeOf⟩
  · rintro (rfl | ⟨b, rfl, h⟩)
    · exact empty_le _
    · exact (Below.array (le_iff.1 h)).isSubtypeOf

theorem array_le_array : array a ≤ array b ↔ a ≤ b := by
  simp [array_le_iff]

/-- Above a map type are such types and the top. -/
theorem map_le_iff : map a ≤ w ↔ w = any ∨ ∃ v, w = map v ∧ a ≤ v := by
  constructor
  · intro h
    cases le_iff.1 h with
    | refl => exact .inr ⟨a, rfl, le_refl a⟩
    | top => exact .inl rfl
    | map hbelow => exact .inr ⟨_, rfl, hbelow.isSubtypeOf⟩
    | atomic h | numeric h | scalar h => cases h
  · rintro (rfl | ⟨v, rfl, h⟩)
    · exact le_any _
    · exact (Below.map (le_iff.1 h)).isSubtypeOf

/-- Below a map type are such types and the bottom. -/
theorem le_map_iff : a ≤ map w ↔ a = empty ∨ ∃ b, a = map b ∧ b ≤ w := by
  constructor
  · intro h
    cases le_iff.1 h with
    | refl => exact .inr ⟨w, rfl, le_refl w⟩
    | bottom => exact .inl rfl
    | map hbelow => exact .inr ⟨_, rfl, hbelow.isSubtypeOf⟩
  · rintro (rfl | ⟨b, rfl, h⟩)
    · exact empty_le _
    · exact (Below.map (le_iff.1 h)).isSubtypeOf

theorem map_le_map : map a ≤ map b ↔ a ≤ b := by
  simp [map_le_iff]

/-! ## Unions -/

/-- The rules of unions. Of two types that are not related, numbers have the class of numbers in
common and atomic types the class of atomic types, and containers of one kind are joined inside. -/
inductive IsUnion : ItemType → ItemType → ItemType → Prop where
  | right {a b : ItemType} : a ≤ b → IsUnion a b b
  | left {a b : ItemType} : b ≤ a → IsUnion a b a
  | numbers {a b : ItemType} : ¬a ≤ b → ¬b ≤ a → a.isNumeric → b.isNumeric → IsUnion a b number
  | atoms {a b : ItemType} : ¬a ≤ b → ¬b ≤ a → a.isAtomic → b.isAtomic →
      ¬(a.isNumeric ∧ b.isNumeric) → IsUnion a b anyAtomic
  | arrays {a b c : ItemType} : IsUnion a b c → IsUnion (array a) (array b) (array c)
  | maps {a b c : ItemType} : IsUnion a b c → IsUnion (map a) (map b) (map c)
  | apart {a b : ItemType} : ¬a ≤ b → ¬b ≤ a → ¬(a.isAtomic ∧ b.isAtomic) →
      ¬(a.isArray ∧ b.isArray) → ¬(a.isMap ∧ b.isMap) → IsUnion a b any

theorem isUnion_union (a b : ItemType) : IsUnion a b (union a b) := by
  fun_induction union a b with
  | case1 a b hab => exact .right hab
  | case2 a b _ hba => exact .left hba
  | case3 a b hab hba hn =>
    rw [Bool.and_eq_true] at hn
    exact .numbers hab hba hn.1 hn.2
  | case4 a b hab hba hn ha =>
    rw [Bool.and_eq_true] at hn ha
    exact .atoms hab hba ha.1 ha.2 hn
  | case5 a b _ _ _ _ ih => exact .arrays ih
  | case6 a b _ _ _ _ ih => exact .maps ih
  | case7 a b hab hba _ ha harrays hmaps =>
    rw [Bool.and_eq_true] at ha
    refine .apart hab hba ha ?_ ?_
    · cases a <;> cases b <;> simp [isArray] at harrays ⊢
    · cases a <;> cases b <;> simp [isMap] at hmaps ⊢

theorem IsUnion.symm (h : IsUnion a b c) : IsUnion b a c := by
  induction h with
  | right hab => exact .left hab
  | left hba => exact .right hba
  | numbers hab hba ha hb => exact .numbers hba hab hb ha
  | atoms hab hba ha hb hn => exact .atoms hba hab hb ha fun h => hn h.symm
  | arrays _ ih => exact .arrays ih
  | maps _ ih => exact .maps ih
  | apart hab hba ha harrays hmaps =>
    exact .apart hba hab (fun h => ha h.symm) (fun h => harrays h.symm) fun h => hmaps h.symm

theorem IsUnion.le_left (h : IsUnion a b c) : a ≤ c := by
  induction h with
  | right hab => exact hab
  | left => exact le_refl _
  | numbers _ _ ha _ => exact le_iff.2 (.numeric ha)
  | atoms _ _ ha _ _ => exact le_iff.2 (.atomic ha)
  | arrays _ ih => exact array_le_array.2 ih
  | maps _ ih => exact map_le_map.2 ih
  | apart => exact le_any _

theorem union_eq_right (h : a ≤ b) : union a b = b := by
  unfold union
  exact if_pos h

theorem union_eq_left (h : b ≤ a) : union a b = a := by
  by_cases hab : a ≤ b
  · rw [union_eq_right hab]
    exact le_antisymm h hab
  · unfold union
    exact (if_neg hab).trans (if_pos h)

theorem union_self (a : ItemType) : union a a = a := union_eq_right (le_refl a)

theorem union_array (a b : ItemType) : union (array a) (array b) = array (union a b) := by
  by_cases hab : a ≤ b
  · rw [union_eq_right hab, union_eq_right (array_le_array.2 hab)]
  · by_cases hba : b ≤ a
    · rw [union_eq_left hba, union_eq_left (array_le_array.2 hba)]
    · rw [union]
      exact (if_neg fun h => hab (array_le_array.1 h)).trans
        (if_neg fun h => hba (array_le_array.1 h))

theorem union_map (a b : ItemType) : union (map a) (map b) = map (union a b) := by
  by_cases hab : a ≤ b
  · rw [union_eq_right hab, union_eq_right (map_le_map.2 hab)]
  · by_cases hba : b ≤ a
    · rw [union_eq_left hba, union_eq_left (map_le_map.2 hba)]
    · rw [union]
      exact (if_neg fun h => hab (map_le_map.1 h)).trans (if_neg fun h => hba (map_le_map.1 h))

/-- Unions are computed by their rules. -/
theorem IsUnion.eq (h : IsUnion a b c) : union a b = c := by
  induction h with
  | right hab => exact union_eq_right hab
  | left hba => exact union_eq_left hba
  | numbers hab hba ha hb =>
    unfold union
    exact (if_neg hab).trans ((if_neg hba).trans (if_pos (by simp [ha, hb])))
  | atoms hab hba ha hb hn =>
    unfold union
    rw [← Bool.and_eq_true] at hn
    exact (if_neg hab).trans ((if_neg hba).trans ((if_neg hn).trans (if_pos (by simp [ha, hb]))))
  | arrays _ ih => rw [union_array, ih]
  | maps _ ih => rw [union_map, ih]
  | @apart a b hab hba ha harrays hmaps =>
    have hn : ¬(a.isNumeric ∧ b.isNumeric) := fun h =>
      ha ⟨isAtomic_of_isNumeric h.1, isAtomic_of_isNumeric h.2⟩
    rw [← Bool.and_eq_true] at hn ha
    unfold union
    refine (if_neg hab).trans ((if_neg hba).trans ((if_neg hn).trans ((if_neg ha).trans ?_)))
    split
    · exact absurd ⟨rfl, rfl⟩ harrays
    · exact absurd ⟨rfl, rfl⟩ hmaps
    · rfl

theorem union_comm (a b : ItemType) : union a b = union b a := (isUnion_union b a).symm.eq

theorem le_union_left (a b : ItemType) : a ≤ union a b := (isUnion_union a b).le_left

theorem le_union_right (a b : ItemType) : b ≤ union a b := union_comm a b ▸ le_union_left b a

theorem union_eq_right_iff : union a b = b ↔ a ≤ b :=
  ⟨fun h => h ▸ le_union_left a b, union_eq_right⟩

/-! ## Unions of many types -/

theorem le_foldl_union (t : ItemType) (ts : List ItemType) : t ≤ ts.foldl union t := by
  induction ts generalizing t with
  | nil => exact le_refl t
  | cons u ts ih => exact le_trans (le_union_left t u) (ih _)

theorem le_foldl_union_of_mem {u : ItemType} (h : u ∈ ts) : u ≤ ts.foldl union t := by
  induction ts generalizing t with
  | nil => cases h
  | cons v ts ih =>
    cases h with
    | head => exact le_trans (le_union_right t u) (le_foldl_union _ ts)
    | tail _ h => exact ih h

theorem le_unionAll {fallback : ItemType} (h : t ∈ ts) : t ≤ unionAll fallback ts := by
  cases h with
  | head => exact le_foldl_union t _
  | tail _ h => exact le_foldl_union_of_mem h

end ItemType

/-! ## Containers -/

theorem Value.itemTypes_eq_map (items : List Value) : itemTypes items = items.map itemType := by
  induction items with
  | nil => rfl
  | cons v vs ih => rw [itemTypes, ih, map_cons]

theorem Value.entryTypes_eq_map (entries : List (String × Value)) :
    entryTypes entries = entries.map fun e => e.2.itemType := by
  induction entries with
  | nil => rfl
  | cons e es ih => rw [entryTypes, ih, map_cons]

theorem Value.itemType_le_of_mem_items {v : Value} {items : List Value} (h : v ∈ items) :
    v.itemType ≤ (array items).itemType.elementType := by
  rw [itemType, itemTypes_eq_map]
  exact ItemType.le_unionAll (mem_map_of_mem h)

theorem Value.itemType_le_of_mem_entries {e : String × Value} {entries : List (String × Value)}
    (h : e ∈ entries) : e.2.itemType ≤ (map entries).itemType.elementType := by
  rw [itemType, entryTypes_eq_map]
  exact ItemType.le_unionAll (mem_map.2 ⟨e, h, rfl⟩)

/-- The subtype relation is a partial order. The union of two types is above both of them, whichever
comes first, and it is one of them exactly if this one is above the other. So the parts of a container
are of the type that the container has for its parts. -/
theorem ItemType.subtype_laws :
    (∀ a : ItemType, a.isSubtypeOf a) ∧
    (∀ a b c : ItemType, a.isSubtypeOf b → b.isSubtypeOf c → a.isSubtypeOf c) ∧
    (∀ a b : ItemType, a.isSubtypeOf b → b.isSubtypeOf a → a = b) ∧
    (∀ a b : ItemType, union a b = union b a) ∧
    (∀ a : ItemType, union a a = a) ∧
    (∀ a b : ItemType, a.isSubtypeOf (union a b) ∧ b.isSubtypeOf (union a b)) ∧
    (∀ a b : ItemType, union a b = b ↔ a.isSubtypeOf b) ∧
    (∀ items : List Value, ∀ v ∈ items,
      v.itemType.isSubtypeOf (Value.array items).itemType.elementType) ∧
    (∀ entries : List (String × Value), ∀ e ∈ entries,
      e.2.itemType.isSubtypeOf (Value.map entries).itemType.elementType) :=
  ⟨isSubtypeOf_refl, fun _ _ _ => isSubtypeOf_trans, fun _ _ => isSubtypeOf_antisymm, union_comm,
    union_self, fun a b => ⟨le_union_left a b, le_union_right a b⟩, fun _ _ => union_eq_right_iff,
    fun _ _ => Value.itemType_le_of_mem_items, fun _ _ => Value.itemType_le_of_mem_entries⟩

theorem ItemType.subtype_laws_mixed :
    let x := Value.map [("k", .string "x"), ("l", .integer 1)]
    let y := Value.map [("k", .double (.ofInt 2))]
    (Value.array [x, y, .empty]).itemType = array (map anyAtomic) ∧
    y.itemType.isSubtypeOf (map anyAtomic) ∧
    ItemType.isSubtypeOf string anyAtomic ∧
    union (map number) (map anyAtomic) = map anyAtomic ∧
    y.itemType.isSubtypeOf (map json) := by
  intro x y
  obtain ⟨-, htrans, -, -, -, -, hunion, hitems, hentries⟩ := subtype_laws
  have hnumber : y.itemType.isSubtypeOf (map number) := by decide +kernel
  refine ⟨by decide +kernel, hitems [x, y, .empty] y (by simp), ?_, ?_, ?_⟩
  · exact hentries [("k", .string "x"), ("l", .integer 1)] ("k", .string "x") (by simp)
  · exact (hunion (map number) (map anyAtomic)).2 (by decide +kernel)
  · exact htrans _ _ _ hnumber (by decide +kernel)

end ShardedQuery
