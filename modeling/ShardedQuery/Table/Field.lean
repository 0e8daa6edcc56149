import ShardedQuery.ItemType

/-!
# Fields of a table row
-/

namespace ShardedQuery

/-- A top-level field of a table row. -/
structure Field where
  name : String
  itemType : ItemType
  /-- The field may hold a null. -/
  nullable : Bool := true
  /-- The place of the field in the row. -/
  position : Nat := 0
  deriving DecidableEq, Repr, Inhabited

namespace Field

/-- The field can be a component of a primary key. -/
def isKeyCandidate (f : Field) : Bool := f.itemType.isAtomic && f.itemType != .binary

/-- Two declarations of one field: same name and same type. -/
def declaresSame (f g : Field) : Bool := f.name == g.name && f.itemType = g.itemType

end Field

end ShardedQuery
