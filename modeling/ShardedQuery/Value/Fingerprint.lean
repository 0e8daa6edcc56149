import ShardedQuery.Value.Order

/-!
# The bytes a value feeds to a hash function

Equal values must feed the same bytes. The rank of the kind comes first. A number goes through
its double: an integral one feeds its integer part, clamped to 64 bits, so that equal numbers of
different widths agree; any other one feeds its bits. Texts end in a byte that no text contains,
other sequences start with their length.
-/

namespace ShardedQuery.Value

/-- Eight bytes, the lowest first. -/
def wordBytes (n : Nat) : List UInt8 :=
  (List.range 8).map fun i => UInt8.ofNat (n / Nat.pow 256 i)

def textBytes (s : String) : List UInt8 := s.toUTF8.toList ++ [0xff]

/-- The bytes of a number, given as a double. -/
def numberBytes (x : Binary64) : List UInt8 :=
  if x.isIntegral then wordBytes x.toInt64Clamped.toUInt64.toNat else wordBytes x.bits.toNat

mutual

/-- The bytes a value feeds to a hash function. -/
def fingerprint (v : Value) : List UInt8 :=
  UInt8.ofNat v.rank ::
    match v with
    | null | jsonNull | empty => []
    | boolean b => [if b then 1 else 0]
    | integer n => numberBytes (.ofInt n.toInt)
    | long n => numberBytes (.ofInt n.toInt)
    | double x => numberBytes x
    | string s => textBytes s
    | timestamp t => wordBytes t.toUInt64.toNat
    | binary bytes => wordBytes bytes.length ++ bytes
    | array items => wordBytes items.length ++ itemsFingerprint items
    | map entries => wordBytes entries.length ++ entriesFingerprint entries

/-- The bytes of the elements of an array, one after the other. -/
def itemsFingerprint : List Value → List UInt8
  | [] => []
  | v :: vs => v.fingerprint ++ itemsFingerprint vs

/-- The bytes of the entries of a map, each key before its value. -/
def entriesFingerprint : List (String × Value) → List UInt8
  | [] => []
  | (k, v) :: es => textBytes k ++ v.fingerprint ++ entriesFingerprint es

end

end ShardedQuery.Value
