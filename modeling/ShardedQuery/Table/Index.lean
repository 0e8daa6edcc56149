import ShardedQuery.IndexPath

/-!
# Secondary indexes

An index holds, for each row, the items its paths lead to. It is a multi-key index when some path
fans out. It covers a map on both sides when it holds the keys of a map and also values of the
same map; a comparison of one entry of that map can then use both fields together.
-/

namespace ShardedQuery

/-- A secondary index of a table. -/
structure Index where
  name : String
  table : String
  paths : List IndexPath
  /-- The type of the items each path leads to, known once the table is built. -/
  types : List ItemType
  deriving DecidableEq, Repr, Inhabited

namespace Index

/-- An index whose types are not known yet. -/
def declare (name table : String) (paths : List IndexPath) : Index :=
  ⟨name, table, paths, paths.map fun _ => .any⟩

/-- The name with the table's in front. -/
def qualifiedName (i : Index) : String := i.table ++ "." ++ i.name

def typeAt (i : Index) (pos : Nat) : ItemType := i.types.getD pos .any

def isMultiKey (i : Index) : Bool := i.paths.any (·.fansOut)

def isMultiKeyAt (i : Index) (pos : Nat) : Bool := (i.paths[pos]?).any (·.fansOut)

/-- The first path to the values of the given map. -/
def valuesPosition? (i : Index) (map : List PathStep) : Option Nat :=
  i.paths.findIdx? fun p => p.splitAtValues?.any (·.1 == map)

/-- The first path to the keys of a map that the index also holds values of. -/
def mapKeysPosition? (i : Index) : Option Nat :=
  i.paths.findIdx? fun p => p.keysMap?.any fun map => (i.valuesPosition? map).isSome

/-- The index holds keys and values of one map. -/
def coversMap (i : Index) : Bool := i.mapKeysPosition?.isSome

/-- The position of the values that belong to the keys at `mapKeysPosition?`. -/
def mapValuesPosition? (i : Index) : Option Nat := do
  let keys ← i.mapKeysPosition?
  let path ← i.paths[keys]?
  let map ← path.keysMap?
  i.valuesPosition? map

/-- Two declarations of one index: same name in the same table. -/
def declaresSame (i j : Index) : Bool := i.name == j.name && i.table == j.table

end Index

end ShardedQuery
