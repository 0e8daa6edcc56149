import ShardedQuery.Access.QueryPath
import ShardedQuery.Table

/-!
# Access paths

An `AccessPath` is one way to scan a table: through its primary index, whose fields are the
components of the primary key, or through a secondary index.
-/

namespace ShardedQuery

/-- A field of an access path. -/
structure AccessField where
  path : IndexPath
  itemType : ItemType
  /-- A row has many entries for this field. -/
  fansOut : Bool
  deriving DecidableEq, Repr, Inhabited

/-- One way to scan a table. -/
structure AccessPath where
  /-- The secondary index; without one, the scan goes through the primary index. -/
  index : Option Index
  fields : List AccessField
  deriving DecidableEq, Repr, Inhabited

namespace AccessPath

/-- Through the primary index. -/
def primary (t : Table) : AccessPath :=
  { index := none
    fields := t.primaryKey.map fun name =>
      ⟨⟨[.field name]⟩, ((t.field? name).map (·.itemType)).getD .any, false⟩ }

/-- Through a secondary index. -/
def secondary (i : Index) : AccessPath :=
  { index := some i
    fields := i.paths.mapIdx fun pos p => ⟨p, i.typeAt pos, p.fansOut⟩ }

/-- Through a secondary index, or the primary one if there is none. -/
def ofIndex (t : Table) : Option Index → AccessPath
  | none => primary t
  | some i => secondary i

/-- All ways to scan a table, the primary index first. -/
def all (t : Table) : List AccessPath := primary t :: t.indexes.map secondary

def isPrimary (p : AccessPath) : Bool := p.index.isNone

def name? (p : AccessPath) : Option String := p.index.map (·.name)

def label (p : AccessPath) : String := p.name?.getD "primary"

def isMultiKey (p : AccessPath) : Bool := p.fields.any (·.fansOut)

def fansOutAt (p : AccessPath) (pos : Nat) : Bool := (p.fields[pos]?).any (·.fansOut)

def typeAt (p : AccessPath) (pos : Nat) : ItemType := ((p.fields[pos]?).map (·.itemType)).getD .any

/-- The position of the keys of a map whose values are in the index, too. -/
def mapKeys? (p : AccessPath) : Option Nat := p.index.bind (·.mapKeysPosition?)

/-- The position of the values of that map. -/
def mapValues? (p : AccessPath) : Option Nat := p.index.bind (·.mapValuesPosition?)

/-- The fields a query path meets, by position. Only the values of a map whose keys are in the
index can be met by a key. -/
def meetings (p : AccessPath) (q : QueryPath) : List (Nat × PathMatch) :=
  p.fields.zipIdx.filterMap fun (f, pos) =>
    (q.matchPath f.path (p.mapValues? == some pos)).map fun m => (pos, m)

/-- A field without fan-out holds exactly the items of the query path. -/
def AccessField.holds (f : AccessField) (q : QueryPath) : Bool := !f.fansOut && q.isExactly f.path

/-- The first field that holds exactly the items of an expression over the row variable. -/
def position? (p : AccessPath) (g : Graph) (rowVar expr : NodeId) : Option Nat := do
  let q ← g.queryPath? rowVar expr
  if q.unnested.isSome then none else p.fields.findIdx? fun f => AccessField.holds f q

end AccessPath

end ShardedQuery
