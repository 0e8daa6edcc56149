import ShardedQuery.Value

/-!
# The order of values

`Value.compareAtomic` is what a comparison operator of a query sees: it relates atomic values of
one kind, and numbers of any width. `Value.cmp` extends it to all values. Values of different
kinds are ranked by kind, containers compare part by part, and a NaN stands above every other
number and equals itself. Equality of values is `cmp = .eq`.
-/

namespace ShardedQuery.Value

/-- The order of two atomic values of one kind, or of two numbers. A double compares with an
integer through the double nearest to the integer. -/
def compareAtomic : Value → Value → Option Ordering
  | boolean a, boolean b => some (compare a b)
  | string a, string b => some (compare a b)
  | timestamp a, timestamp b => some (compare a.toInt b.toInt)
  | binary a, binary b => some (List.compareLex compare a b)
  | double x, b => b.toBinary64?.bind fun y => x.compare? y
  | a, double y => a.toBinary64?.bind fun x => x.compare? y
  | a, b => a.toInt?.bind fun m => b.toInt?.map fun n => compare m n

/-- The rank of a value's kind. All numbers are of one kind. -/
def rank : Value → Nat
  | empty => 0
  | null => 1
  | jsonNull => 2
  | boolean _ => 3
  | integer _ | long _ | double _ => 4
  | string _ => 5
  | timestamp _ => 6
  | binary _ => 7
  | array _ => 8
  | map _ => 9

/-- The order of values that are not both arrays or both maps. -/
def cmpFlat (a b : Value) : Ordering :=
  if a.isNumber && b.isNumber && (a.isNaN || b.isNaN) then compare a.isNaN b.isNaN
  else (a.compareAtomic b).getD (compare a.rank b.rank)

mutual

/-- The order of all values. -/
def cmp : Value → Value → Ordering
  | array as, array bs => cmpItems as bs
  | map as, map bs => cmpEntries as bs
  | a, b => cmpFlat a b

/-- Arrays compare element by element; a proper beginning comes first. -/
def cmpItems : List Value → List Value → Ordering
  | [], [] => .eq
  | [], _ :: _ => .lt
  | _ :: _, [] => .gt
  | a :: as, b :: bs => (cmp a b).then (cmpItems as bs)

/-- Maps compare entry by entry, key before value. -/
def cmpEntries : List (String × Value) → List (String × Value) → Ordering
  | [], [] => .eq
  | [], _ :: _ => .lt
  | _ :: _, [] => .gt
  | (k, v) :: as, (l, w) :: bs => (compare k l).then ((cmp v w).then (cmpEntries as bs))

end

instance : Ord Value := ⟨cmp⟩

instance : BEq Value := ⟨fun a b => a.cmp b == .eq⟩

end ShardedQuery.Value
