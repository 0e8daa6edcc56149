import ShardedQuery.Table

/-!
# Drafting a table

A `TableDraft` collects the parts of a table step by step and refuses the first step that breaks
a rule. `TableDraft.build` checks what only the whole draft shows: there is a primary key, and
each index path leads from the row to atomic items. The bracket step of a path over a map stands
for its values and is stored as such.
-/

namespace ShardedQuery

/-- A table under construction. -/
structure TableDraft where
  name : String
  fields : List Field := []
  primaryKey : List String := []
  shardKeyLength : Option Nat := none
  /-- Names of the indexes with the texts of their paths. -/
  indexes : List (String × List String) := []
  deriving DecidableEq, Repr, Inhabited

/-- One step in the making of a table. -/
inductive TableStep where
  | field (name : String) (type : ItemType)
  | notNull (names : List String)
  | primaryKey (names : List String)
  | shardKey (names : List String)
  | index (name : String) (paths : List String)
  deriving Repr

/-- A failure that names a fault of the schema. -/
def schemaFault {α : Type} (message : String) : Except CompileError α :=
  CompileError.raise (.invalidSchema message)

/-- Names start with a letter or an underscore and go on with letters, digits and underscores. -/
def checkName (name : String) : Except CompileError Unit :=
  match name.toList with
  | [] => schemaFault "Name cannot be empty"
  | first :: rest =>
    if !(first.isAlpha || first == '_') then
      schemaFault s!"Name must start with letter or underscore: {name}"
    else if !rest.all (fun c => c.isAlphanum || c == '_') then
      schemaFault s!"Name contains invalid characters: {name}"
    else .ok ()

namespace TableDraft

/-- Starts a draft. -/
def start (name : String) : Except CompileError TableDraft := do
  checkName name
  return { name := name }

def addField (d : TableDraft) (name : String) (type : ItemType) :
    Except CompileError TableDraft := do
  checkName name
  if d.fields.any (·.name == name) then schemaFault s!"Field already exists: {name}"
  else return { d with fields := d.fields ++ [⟨name, type, true, 0⟩] }

/-- Fields under the given names no longer hold nulls; other names are passed over. -/
def addNotNull (d : TableDraft) (names : List String) : TableDraft :=
  { d with fields := d.fields.map fun f =>
      if names.contains f.name then { f with nullable := false } else f }

/-- Each name must be a field that can be a key component. -/
def checkKey (d : TableDraft) : List String → Except CompileError Unit
  | [] => .ok ()
  | name :: names =>
    match d.fields.find? (·.name == name) with
    | none => schemaFault s!"Field not found: {name}"
    | some f =>
      if f.isKeyCandidate then d.checkKey names
      else schemaFault s!"Field cannot be a primary key component: {name}"

/-- Sets the primary key; its fields hold no nulls. -/
def setPrimaryKey (d : TableDraft) (names : List String) : Except CompileError TableDraft := do
  if names.isEmpty then schemaFault "Primary key cannot be empty"
  else
    d.checkKey names
    return { d.addNotNull names with primaryKey := names }

/-- Sets the shard key, a beginning of the primary key as it is now. -/
def setShardKey (d : TableDraft) (names : List String) : Except CompileError TableDraft :=
  if names.isEmpty || !names.isPrefixOf d.primaryKey then
    schemaFault "Shard key must be a non-empty prefix of the primary key"
  else .ok { d with shardKeyLength := some names.length }

/-- Adds an index; its paths are read when the table is built. -/
def addIndex (d : TableDraft) (name : String) (paths : List String) :
    Except CompileError TableDraft := do
  checkName name
  if paths.isEmpty then schemaFault s!"Index {name} has no fields"
  else if d.indexes.any (·.1 == name) then schemaFault s!"Index already exists: {name}"
  else return { d with indexes := d.indexes ++ [(name, paths)] }

/-- Takes one step. -/
def step (d : TableDraft) : TableStep → Except CompileError TableDraft
  | .field name type => d.addField name type
  | .notNull names => .ok (d.addNotNull names)
  | .primaryKey names => d.setPrimaryKey names
  | .shardKey names => d.setShardKey names
  | .index name paths => d.addIndex name paths

/-- Takes the steps in order, up to the first that fails. -/
def run (d : TableDraft) : List TableStep → Except CompileError TableDraft
  | [] => .ok d
  | s :: steps => do (← d.step s).run steps

end TableDraft

/-! ## Resolving index paths -/

/-- Where one path step leads from items of the given type, with the step as it is stored. A JSON
item may hold anything. -/
def PathStep.resolve (table text : String) :
    PathStep → ItemType → Except CompileError (PathStep × ItemType)
  | step, .json => .ok (step, .json)
  | .field name, t@(.record _) | .field name, t@(.map _) =>
    match t.fieldType? name with
    | some next => .ok (.field name, next)
    | none => CompileError.raise (.columnNotFound table name)
  | .elements, .array e => .ok (.elements, e)
  | .elements, .map v => .ok (.values, v)
  | .values, .map v => .ok (.values, v)
  | .keys, .map _ => .ok (.keys, .string)
  | _, _ => schemaFault s!"Index path {text} does not match the type of table {table}"

/-- Where a list of steps leads, with the steps as they are stored. -/
def PathStep.resolveAll (table text : String) :
    List PathStep → ItemType → Except CompileError (List PathStep × ItemType)
  | [], t => .ok ([], t)
  | s :: rest, t => do
    let (stored, next) ← s.resolve table text t
    let (tail, last) ← PathStep.resolveAll table text rest next
    return (stored :: tail, last)

/-- Resolves a path against the row type; it must lead to atomic or JSON items. -/
def IndexPath.resolve (table : String) (row : ItemType) (p : IndexPath) :
    Except CompileError (IndexPath × ItemType) := do
  let (steps, last) ← PathStep.resolveAll table p.text p.steps row
  if last.isAtomic || last = .json then return (⟨steps⟩, last)
  else schemaFault s!"Index path {p.text} does not select atomic values"

/-- Builds one index: all its paths are read before the first is resolved. -/
def Index.build (table : String) (row : ItemType) (name : String) (texts : List String) :
    Except CompileError Index := do
  let paths ← texts.mapM IndexPath.parse
  let resolved ← paths.mapM (IndexPath.resolve table row)
  return ⟨name, table, resolved.map (·.1), resolved.map (·.2)⟩

/-- Builds the table. Without a shard key, the whole primary key chooses the shard. -/
def TableDraft.build (d : TableDraft) : Except CompileError Table := do
  if d.primaryKey.isEmpty then schemaFault s!"Table {d.name} has no primary key"
  else
    let table : Table :=
      { name := d.name
        fields := d.fields.mapIdx fun i f => { f with position := i }
        primaryKey := d.primaryKey
        shardKeyLength := d.shardKeyLength.getD d.primaryKey.length
        indexes := [] }
    let indexes ← d.indexes.mapM fun (name, texts) =>
      Index.build d.name table.rowType name texts
    return { table with indexes := indexes }

end ShardedQuery
