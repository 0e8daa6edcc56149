import ShardedQuery.ItemType

/-!
# Comparability, subtypes and unions of item types

* `comparable a b`: a comparison of an item of `a` with an item of `b` can succeed.
* `isSubtypeOf a b`: every item of `a` is an item of `b`.
* `union a b`: a type that covers both, the larger one if they are related.
-/

namespace ShardedQuery.ItemType

/-- Comparing items of the two types can succeed. A wildcard may turn out comparable, and the
empty sequence compares with everything. -/
def comparable : ItemType → ItemType → Bool
  | a, b =>
    if a.isWildcard || b.isWildcard then true
    else if a = empty ∨ b = empty then true
    else if a.isNumeric && b.isNumeric then true
    else
      match a, b with
      | boolean, boolean | string, string | timestamp, timestamp | binary, binary => true
      | array a, array b => comparable a b
      | map a, map b => comparable a b
      | record _, record _ => true
      | _, _ => false

/-- Types that are spelled alike in a JSON document. -/
def isJsonScalar : ItemType → Bool
  | integer | long | double | number | string | boolean => true
  | _ => false

/-- Every item of the first type is an item of the second. Arrays and maps are covariant;
records are related only to themselves and to `any`. -/
def isSubtypeOf : ItemType → ItemType → Bool
  | a, b =>
    if a = b ∨ b = any ∨ a = empty then true
    else
      match b, a with
      | anyAtomic, a => a.isAtomic
      | number, a => a.isNumeric
      | long, a => a = integer
      | json, a => a.isJsonScalar
      | array b, array a => isSubtypeOf a b
      | map b, map a => isSubtypeOf a b
      | _, _ => false

/-- A type that covers both: the larger of two related types, else the common class of numbers
or of atomic types, else `any`. Arrays and maps are joined element by element. -/
def union : ItemType → ItemType → ItemType
  | a, b =>
    if a.isSubtypeOf b then b
    else if b.isSubtypeOf a then a
    else if a.isNumeric && b.isNumeric then number
    else if a.isAtomic && b.isAtomic then anyAtomic
    else
      match a, b with
      | array a, array b => array (union a b)
      | map a, map b => map (union a b)
      | _, _ => any

/-- The union of a list of types, `fallback` for the empty list. -/
def unionAll (fallback : ItemType) : List ItemType → ItemType
  | [] => fallback
  | t :: ts => ts.foldl union t

end ShardedQuery.ItemType
