import ShardedQuery.Binary64
import ShardedQuery.ItemType.Order

/-!
# Constant values

A `Value` is a constant that a query can mention: a literal, or a key pushed into an index scan.
The entries of a map stand in the order of their keys, each key once; `Value.ofEntries` puts them
there.
-/

namespace ShardedQuery

/-- A constant item, or the empty sequence. -/
inductive Value where
  | null
  | jsonNull
  | boolean (b : Bool)
  | integer (n : Int32)
  | long (n : Int64)
  | double (x : Binary64)
  | string (s : String)
  /-- Milliseconds since the epoch. -/
  | timestamp (millis : Int64)
  | binary (bytes : List UInt8)
  | array (items : List Value)
  | map (entries : List (String × Value))
  | empty
  deriving Repr, Inhabited

namespace Value

/-- Puts an entry in its place among entries in key order; an entry with that key is replaced. -/
def insertEntry (key : String) (value : Value) : List (String × Value) → List (String × Value)
  | [] => [(key, value)]
  | (k, v) :: rest =>
    match compare key k with
    | .lt => (key, value) :: (k, v) :: rest
    | .eq => (key, value) :: rest
    | .gt => (k, v) :: insertEntry key value rest

/-- The map with the given entries; of two entries with one key the later stands. -/
def ofEntries (entries : List (String × Value)) : Value :=
  map (entries.foldl (fun done e => insertEntry e.1 e.2 done) [])

/-! ## Classes of values -/

def isNull : Value → Bool
  | null | jsonNull => true
  | _ => false

def isEmpty : Value → Bool
  | empty => true
  | _ => false

/-- Neither a container nor the empty sequence. -/
def isAtomic : Value → Bool
  | array _ | map _ | empty => false
  | _ => true

def isNumber : Value → Bool
  | integer _ | long _ | double _ => true
  | _ => false

def isNaN : Value → Bool
  | double x => x.isNaN
  | _ => false

/-! ## Views -/

def toBool? : Value → Option Bool
  | boolean b => some b
  | _ => none

/-- The value of an integral number. -/
def toInt? : Value → Option Int
  | integer n => some n.toInt
  | long n => some n.toInt
  | _ => none

/-- A number as a double, rounded if it has more than fifty-three significant bits. -/
def toBinary64? : Value → Option Binary64
  | integer n => some (.ofInt n.toInt)
  | long n => some (.ofInt n.toInt)
  | double x => some x
  | _ => none

def toString? : Value → Option String
  | string s => some s
  | _ => none

/-! ## Types -/

mutual

/-- The item type of a value. A container has the union of the types of its parts, `any` when it
has none. -/
def itemType : Value → ItemType
  | null => .any
  | jsonNull => .json
  | boolean _ => .boolean
  | integer _ => .integer
  | long _ => .long
  | double _ => .double
  | string _ => .string
  | timestamp _ => .timestamp
  | binary _ => .binary
  | array items => .array (.unionAll .any (itemTypes items))
  | map entries => .map (.unionAll .any (entryTypes entries))
  | empty => .empty

/-- The item types of the elements of an array. -/
def itemTypes : List Value → List ItemType
  | [] => []
  | v :: vs => v.itemType :: itemTypes vs

/-- The item types of the values of a map. -/
def entryTypes : List (String × Value) → List ItemType
  | [] => []
  | (_, v) :: es => v.itemType :: entryTypes es

end

end Value

end ShardedQuery
