/-!
# Item types

An `ItemType` says what one item of a query result looks like: an atomic value, a record with
named fields, an array, a map, or a wildcard. `Empty` is the type of the items of the empty
sequence, of which there are none.
-/

namespace ShardedQuery

/-- What one item looks like. -/
inductive ItemType where
  | any
  | anyAtomic
  | boolean
  | integer
  | long
  | double
  | number
  | string
  | timestamp
  | binary
  | json
  | record (fields : List (String × ItemType))
  | array (element : ItemType)
  | map (value : ItemType)
  | empty
  deriving Repr, Inhabited

namespace ItemType

/-! ## Equality -/

mutual

/-- Structural equality; record fields are compared in order. -/
def same : ItemType → ItemType → Bool
  | any, any => true
  | anyAtomic, anyAtomic => true
  | boolean, boolean => true
  | integer, integer => true
  | long, long => true
  | double, double => true
  | number, number => true
  | string, string => true
  | timestamp, timestamp => true
  | binary, binary => true
  | json, json => true
  | record fs, record gs => sameFields fs gs
  | array a, array b => same a b
  | map a, map b => same a b
  | empty, empty => true
  | _, _ => false

/-- Equality of field lists: same names and same types, in the same order. -/
def sameFields : List (String × ItemType) → List (String × ItemType) → Bool
  | [], [] => true
  | (n, t) :: fs, (m, u) :: gs => n == m && same t u && sameFields fs gs
  | _, _ => false

end

mutual

theorem same_refl : ∀ t : ItemType, same t t = true
  | any | anyAtomic | boolean | integer | long | double | number | string | timestamp | binary
  | json | empty => by simp [same]
  | record fs => by simp [same, sameFields_refl fs]
  | array a => by simp [same, same_refl a]
  | map a => by simp [same, same_refl a]

theorem sameFields_refl : ∀ fs : List (String × ItemType), sameFields fs fs = true
  | [] => by simp [sameFields]
  | (_, t) :: fs => by simp [sameFields, same_refl t, sameFields_refl fs]

end

mutual

theorem eq_of_same : ∀ {a b : ItemType}, same a b = true → a = b
  | record fs, b, h => by
      cases b <;> simp [same] at h
      rw [eq_of_sameFields h]
  | array a, b, h => by
      cases b <;> simp [same] at h
      rw [eq_of_same h]
  | map a, b, h => by
      cases b <;> simp [same] at h
      rw [eq_of_same h]
  | any, b, h | anyAtomic, b, h | boolean, b, h | integer, b, h | long, b, h | double, b, h
  | number, b, h | string, b, h | timestamp, b, h | binary, b, h | json, b, h
  | empty, b, h => by cases b <;> simp [same] at h ⊢

theorem eq_of_sameFields :
    ∀ {fs gs : List (String × ItemType)}, sameFields fs gs = true → fs = gs
  | [], [], _ => rfl
  | [], _ :: _, h => by simp [sameFields] at h
  | _ :: _, [], h => by simp [sameFields] at h
  | (n, t) :: fs, (m, u) :: gs, h => by
      simp only [sameFields, Bool.and_eq_true, beq_iff_eq] at h
      obtain ⟨⟨rfl, ht⟩, hfs⟩ := h
      rw [eq_of_same ht, eq_of_sameFields hfs]

end

theorem same_iff_eq {a b : ItemType} : same a b = true ↔ a = b :=
  ⟨eq_of_same, fun h => h ▸ same_refl a⟩

instance : DecidableEq ItemType := fun _ _ => decidable_of_iff _ same_iff_eq

/-! ## Classes of types -/

def isAtomic : ItemType → Bool
  | anyAtomic | boolean | integer | long | double | number | string | timestamp | binary => true
  | _ => false

def isNumeric : ItemType → Bool
  | integer | long | double | number => true
  | _ => false

def isArray : ItemType → Bool
  | array _ => true
  | _ => false

def isMap : ItemType → Bool
  | map _ => true
  | _ => false

def isRecord : ItemType → Bool
  | record _ => true
  | _ => false

/-- Types whose items are not known before the query runs. -/
def isWildcard : ItemType → Bool
  | any | anyAtomic | json => true
  | _ => false

/-! ## Navigation -/

/-- The type of the elements of an array or the values of a map. -/
def elementType : ItemType → ItemType
  | array e => e
  | map v => v
  | json => json
  | empty => empty
  | _ => any

/-- The type a field step selects, `none` where the field cannot exist. A field step over an
array applies to each element. -/
def fieldType? (name : String) : ItemType → Option ItemType
  | record fields => fields.lookup name
  | map v => some v
  | json => some json
  | any => some any
  | array e => e.fieldType? name
  | empty => some empty
  | _ => none

/-! ## Text -/

mutual

/-- The text of a type, as in `ARRAY(LONG)` and `RECORD(a INTEGER, b STRING)`. -/
def text : ItemType → String
  | any => "ANY"
  | anyAtomic => "ANY_ATOMIC"
  | boolean => "BOOLEAN"
  | integer => "INTEGER"
  | long => "LONG"
  | double => "DOUBLE"
  | number => "NUMBER"
  | string => "STRING"
  | timestamp => "TIMESTAMP"
  | binary => "BINARY"
  | json => "JSON"
  | record fields => "RECORD(" ++ ", ".intercalate (fieldTexts fields) ++ ")"
  | array e => "ARRAY(" ++ e.text ++ ")"
  | map v => "MAP(" ++ v.text ++ ")"
  | empty => "EMPTY"

/-- The texts of the fields of a record, each a name and a type. -/
def fieldTexts : List (String × ItemType) → List String
  | [] => []
  | (name, t) :: fields => (name ++ " " ++ t.text) :: fieldTexts fields

end

end ItemType

end ShardedQuery
