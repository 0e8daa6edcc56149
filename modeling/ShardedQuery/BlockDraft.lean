import ShardedQuery.Catalog
import ShardedQuery.Graph.Build
import ShardedQuery.Graph.Edit

/-!
# Drafting a query block

A `BlockDraft` collects the clauses of a block over nodes that are already in the graph. Table,
column and index names are checked as they come up, so that a query that names something unknown
is refused before anything else is done with it. `BlockDraft.build` adds the block.
-/

namespace ShardedQuery

/-! ## Hints -/

/-- Each hint is new and names an index the table has. -/
def checkHintList (t : Table) (seen : List Hint) : List Hint → Except CompileError Unit
  | [] => .ok ()
  | h :: rest =>
    if seen.contains h then CompileError.raise (.duplicateHint h.text)
    else
      match h.target with
      | .index name =>
        if (t.index? name).isSome then checkHintList t (seen ++ [h]) rest
        else CompileError.raise (.indexNotFound t.name name)
      | .primary => checkHintList t (seen ++ [h]) rest

/-- No hint comes twice, each names an index of the table, and at most one index is forced. -/
def checkHints (t : Table) (hints : List Hint) : Except CompileError Unit := do
  checkHintList t [] hints
  if 1 < (hints.filter (·.isForce)).length then
    CompileError.raise (.duplicateHint "FORCE_INDEX")

/-! ## Drafts -/

/-- A FROM entry of a draft; the first one scans a table. -/
structure Source where
  entry : FromEntry
  table : Option String
  deriving Repr, Inhabited

/-- A query block under construction. -/
structure BlockDraft where
  sources : List Source := []
  conjuncts : List NodeId := []
  select : List SelectField := []
  star : Bool := false
  sort : List SortKey := []
  offset : Option NodeId := none
  limit : Option NodeId := none
  location : Option Location := none
  deriving Repr, Inhabited

namespace BlockDraft

/-- Adds the variable of a FROM entry. -/
def addSource (d : BlockDraft) (g : Graph) (domain : NodeId) (name : String)
    (table : Option String) : NodeId × BlockDraft × Graph :=
  let (var, g) := g.addVar ("$" ++ name) .row
  (var, { d with sources := d.sources ++ [⟨⟨domain, var⟩, table⟩] }, g)

/-- Adds the table the block scans, which comes first, and gives its row variable. -/
def scanTable (d : BlockDraft) (g : Graph) (c : Catalog) (table name : String)
    (hints : List Hint) : Except CompileError (NodeId × BlockDraft × Graph) :=
  locateFailure d.location do
    if !d.sources.isEmpty then
      CompileError.raise (.unsupported "the table must be the first FROM entry")
    else
      let t ← c.table table
      checkHints t hints
      let (domain, g) := g.add (.scan { table := t.name, hints := hints, rowType := t.rowType })
      return d.addSource g domain name (some t.name)

/-- Adds a FROM entry over an expression, and gives its variable. -/
def rangeOver (d : BlockDraft) (g : Graph) (domain : NodeId) (name : String) :
    Except CompileError (NodeId × BlockDraft × Graph) :=
  if d.sources.isEmpty then
    locateFailure d.location
      (CompileError.raise (.unsupported "a query block must start with a table"))
  else .ok (d.addSource g domain name none)

/-- The table whose rows a variable of the draft stands for. -/
def tableOf? (d : BlockDraft) (var : NodeId) : Option String :=
  (d.sources.find? (·.entry.var == var)).bind (·.table)

/-- A column of a variable. A row of a table must have it. -/
def column (d : BlockDraft) (g : Graph) (c : Catalog) (var : NodeId) (name : String) :
    Except CompileError (NodeId × Graph) :=
  match d.tableOf? var with
  | none => .ok (g.addField var name)
  | some table => do
    let t ← c.table table
    if (t.field? name).isSome then return g.addField var name
    else locateFailure d.location (CompileError.raise (.columnNotFound table name))

/-- Adds a conjunct to the WHERE clause. A conjunction that nothing else uses is taken apart. -/
def restrict (d : BlockDraft) (g : Graph) (condition : NodeId) : BlockDraft × Graph :=
  match g.expr condition with
  | .call .and args =>
    if (g.parents condition).isEmpty then
      ({ d with conjuncts := d.conjuncts ++ args }, g.dissolve condition args)
    else ({ d with conjuncts := d.conjuncts ++ [condition] }, g)
  | _ => ({ d with conjuncts := d.conjuncts ++ [condition] }, g)

/-- Adds a named entry to the select list. The names differ. -/
def addSelect (d : BlockDraft) (g : Graph) (name : String) (expr : NodeId) :
    Except CompileError BlockDraft :=
  if d.select.any (·.name == name) then
    locateFailure ((g.location expr).or d.location) (CompileError.raise (.duplicateColumn name))
  else .ok { d with select := d.select ++ [⟨name, expr⟩] }

def addSort (d : BlockDraft) (expr : NodeId) (spec : SortSpec) : BlockDraft :=
  { d with sort := d.sort ++ [⟨expr, spec⟩] }

/-- The block of a draft, with the node of its WHERE clause. -/
def block (d : BlockDraft) (condition : Option NodeId) : Block :=
  { entries := d.sources.map (·.entry)
    condition := condition
    select := if d.star || d.select.isEmpty then [] else d.select
    star := d.star || d.select.isEmpty
    sort := d.sort
    offset := d.offset
    limit := d.limit }

/-- Adds the block to the graph. An empty select list selects the items as they are. -/
def build (d : BlockDraft) (g : Graph) : Except CompileError (NodeId × Graph) :=
  if d.sources.isEmpty then
    locateFailure d.location (CompileError.raise (.unsupported "query block without FROM"))
  else
    let (condition, g) := g.addCondition d.conjuncts
    .ok (g.addDeclaring (.block (d.block condition)) d.location)

end BlockDraft

end ShardedQuery
