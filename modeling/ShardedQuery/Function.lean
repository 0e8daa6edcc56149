/-!
# Operators and built-in functions

A `Comparison` is one of the six comparison operators. As a function it comes in two forms: a
value comparison relates single items, and an any comparison holds when some items of the two
sequences are related. `Function.all` lists the built-in functions.
-/

namespace ShardedQuery

/-- A comparison operator. -/
inductive Comparison where
  | eq
  | ne
  | gt
  | ge
  | lt
  | le
  deriving DecidableEq, Repr, Inhabited

namespace Comparison

/-- The operator with its operands exchanged. -/
def swap : Comparison → Comparison
  | gt => lt
  | ge => le
  | lt => gt
  | le => ge
  | op => op

/-- The left operand has the right one below it. -/
def isLower : Comparison → Bool
  | gt | ge => true
  | _ => false

/-- The left operand has the right one above it. -/
def isUpper : Comparison → Bool
  | lt | le => true
  | _ => false

/-- The operator holds between equal operands. -/
def isInclusive : Comparison → Bool
  | eq | ge | le => true
  | _ => false

/-- The operator holds when the left operand stands so to the right one. -/
def holds : Comparison → Ordering → Bool
  | eq, o => o == .eq
  | ne, o => o != .eq
  | gt, o => o == .gt
  | ge, o => o != .lt
  | lt, o => o == .lt
  | le, o => o != .gt

def text : Comparison → String
  | eq => "="
  | ne => "!="
  | gt => ">"
  | ge => ">="
  | lt => "<"
  | le => "<="

/-- All comparison operators. -/
def all : List Comparison := [eq, ne, gt, ge, lt, le]

end Comparison

/-- A built-in function or operator. -/
inductive Function where
  | and
  | or
  | not
  /-- A comparison of single items, or of any items of two sequences. -/
  | compare (op : Comparison) (any : Bool)
  | add
  | sub
  | mul
  | div
  | negate
  | size
  /-- The sequence has an item. -/
  | present
  /-- The sequence has no item. -/
  | absent
  | isNull
  | isNotNull
  | concat
  deriving DecidableEq, Repr, Inhabited

/-- How many arguments a function takes; no `most` means any number. -/
structure Arity where
  least : Nat
  most : Option Nat
  deriving DecidableEq, Repr

def Arity.accepts (a : Arity) (n : Nat) : Bool := a.least ≤ n && a.most.all (n ≤ ·)

namespace Function

/-- All functions: connectives, value comparisons, any comparisons, arithmetic, then the rest. -/
def all : List Function :=
  [and, or, not]
    ++ Comparison.all.map (compare · false)
    ++ Comparison.all.map (compare · true)
    ++ [add, sub, mul, div, negate, size, present, absent, isNull, isNotNull, concat]

def name : Function → String
  | and => "and"
  | or => "or"
  | not => "not"
  | compare op false => op.text
  | compare op true => op.text ++ "any"
  | add => "+"
  | sub => "-"
  | mul => "*"
  | div => "/"
  | negate => "negate"
  | size => "size"
  | present => "exists"
  | absent => "not_exists"
  | isNull => "is_null"
  | isNotNull => "is_not_null"
  | concat => "concat"

def arity : Function → Arity
  | and | or | add | mul => ⟨2, none⟩
  | concat => ⟨1, none⟩
  | compare _ _ | sub | div => ⟨2, some 2⟩
  | _ => ⟨1, some 1⟩

/-- The function of a name. -/
def ofName? (name : String) : Option Function := all.find? (·.name == name)

/-- The operator of a comparison, and whether it compares any items. -/
def comparison? : Function → Option (Comparison × Bool)
  | compare op any => some (op, any)
  | _ => none

/-- The function yields a boolean. -/
def isBoolean : Function → Bool
  | compare _ _ | and | or | not | present | absent | isNull | isNotNull => true
  | _ => false

def isArithmetic : Function → Bool
  | add | sub | mul | div | negate => true
  | _ => false

end Function

end ShardedQuery
