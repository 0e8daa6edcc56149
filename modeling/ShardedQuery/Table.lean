import ShardedQuery.Table.Field
import ShardedQuery.Table.Index

/-!
# Tables

A `Table` describes the rows of one table: its fields, its primary key, how many leading
components of the key choose the shard, and its secondary indexes.
-/

namespace ShardedQuery

/-- The description of a table. -/
structure Table where
  name : String
  fields : List Field
  /-- Names of the key components, in key order. -/
  primaryKey : List String
  /-- The number of leading key components that form the shard key. -/
  shardKeyLength : Nat
  indexes : List Index
  deriving DecidableEq, Repr, Inhabited

namespace Table

def field? (t : Table) (name : String) : Option Field := t.fields.find? (·.name == name)

def fieldPosition? (t : Table) (name : String) : Option Nat := t.fields.findIdx? (·.name == name)

def keyPosition? (t : Table) (name : String) : Option Nat := t.primaryKey.findIdx? (· == name)

/-- Places of the key components in the row, in key order. -/
def keyFieldPositions (t : Table) : List Nat := t.primaryKey.filterMap t.fieldPosition?

def index? (t : Table) (name : String) : Option Index := t.indexes.find? (·.name == name)

/-- The type of a row. -/
def rowType (t : Table) : ItemType := .record (t.fields.map fun f => (f.name, f.itemType))

end Table

end ShardedQuery
