import ShardedQuery.Table

/-!
# The catalog and the options of a compilation
-/

namespace ShardedQuery

/-- The tables known to the compiler, in the order of their names. -/
structure Catalog where
  tables : List Table := []
  deriving Repr, Inhabited

namespace Catalog

/-- Puts a table in its place among tables in name order; one of that name is replaced. -/
def insertTable (t : Table) : List Table → List Table
  | [] => [t]
  | u :: rest =>
    match compare t.name u.name with
    | .lt => t :: u :: rest
    | .eq => t :: rest
    | .gt => u :: insertTable t rest

def register (c : Catalog) (t : Table) : Catalog := ⟨insertTable t c.tables⟩

def get? (c : Catalog) (name : String) : Option Table := c.tables.find? (·.name == name)

/-- The table of a name, or the failure that there is none. -/
def table (c : Catalog) (name : String) : Except CompileError Table :=
  match c.get? name with
  | some t => .ok t
  | none => CompileError.raise (.tableNotFound name)

end Catalog

/-- What each use of a comparison adds to the score of an index. Scores are machine words, and sums of
weights wrap around. -/
structure Weights where
  /-- For each equality key. -/
  equality : Int32 := 32
  /-- For each bound of a range on a field that does not fan out. -/
  range : Int32 := 16
  /-- For each bound of a range on a field that fans out. -/
  multiKeyRange : Int32 := 8
  /-- For each filter on a field that does not fan out. -/
  filtering : Int32 := 16
  /-- For each filter on a field that fans out. -/
  multiKeyFiltering : Int32 := 8
  deriving DecidableEq, Repr, Inhabited

/-- Options of one compilation. -/
structure Options where
  /-- Comparing incomparable types is an error; otherwise it selects nothing. -/
  strict : Bool := true
  weights : Weights := {}
  deriving DecidableEq, Repr, Inhabited

end ShardedQuery
