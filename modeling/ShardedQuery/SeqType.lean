import ShardedQuery.ItemType.Order

/-!
# Types of sequences

An expression produces a sequence of items. A `SeqType` pairs the type of the items with a
`Quantifier`, which says how many there may be.
-/

namespace ShardedQuery

/-- How many items a sequence may hold. -/
inductive Quantifier where
  | one
  | optional
  | star
  | plus
  deriving DecidableEq, Repr, Inhabited

namespace Quantifier

/-- At most one item. -/
def isScalar : Quantifier → Bool
  | one | optional => true
  | _ => false

def allowsEmpty : Quantifier → Bool
  | optional | star => true
  | _ => false

/-- The least quantifier that covers both. -/
def union : Quantifier → Quantifier → Quantifier
  | one, one => one
  | plus, plus => plus
  | optional, optional | one, optional | optional, one => optional
  | one, plus | plus, one => plus
  | _, _ => star

/-- The quantifier of a sequence of sequences, read as one sequence. -/
def product : Quantifier → Quantifier → Quantifier
  | one, q | q, one => q
  | optional, optional => optional
  | plus, plus => plus
  | _, _ => star

def text : Quantifier → String
  | one => ""
  | optional => "?"
  | star => "*"
  | plus => "+"

end Quantifier

/-- The type of a sequence: the type of its items and their number. -/
structure SeqType where
  item : ItemType
  quantifier : Quantifier
  deriving DecidableEq, Repr, Inhabited

namespace SeqType

def one (item : ItemType) : SeqType := ⟨item, .one⟩

def optional (item : ItemType) : SeqType := ⟨item, .optional⟩

def star (item : ItemType) : SeqType := ⟨item, .star⟩

/-- The type of the empty sequence. -/
def empty : SeqType := ⟨.empty, .optional⟩

def boolean : SeqType := one .boolean

def isScalar (t : SeqType) : Bool := t.quantifier.isScalar

def isEmpty (t : SeqType) : Bool := t.item = .empty

def withQuantifier (t : SeqType) (q : Quantifier) : SeqType := { t with quantifier := q }

/-- A type that covers both. The empty sequence only makes the other type optional. -/
def union (a b : SeqType) : SeqType :=
  if a.isEmpty then b.withQuantifier (b.quantifier.union .optional)
  else if b.isEmpty then a.withQuantifier (a.quantifier.union .optional)
  else ⟨a.item.union b.item, a.quantifier.union b.quantifier⟩

/-- The text of the item type followed by the quantifier. -/
def text (t : SeqType) : String := t.item.text ++ t.quantifier.text

end SeqType

end ShardedQuery
