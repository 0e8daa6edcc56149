import ShardedQuery.Plan.Generate
import ShardedQuery.Split

/-!
# Compiling queries

A `Compiler` takes one query after another through its stages: reading and laying out the query,
which a front end does, then inferring types, choosing access paths, splitting blocks at the
receive boundary, and generating the plan. The first failure is kept and ends the work on the
query; the graph stays as the stages left it. Schema statements are handed back to the caller.
-/

namespace ShardedQuery

/-! ## Passes -/

/-- A pass over the graph of a query. -/
inductive Pass where
  | indexSelection
  | distribution
  deriving DecidableEq, Repr, Inhabited

namespace Pass

def name : Pass → String
  | indexSelection => "index_selection"
  | distribution => "distributor"

/-- The passes every query goes through, in order. -/
def all : List Pass := [indexSelection, distribution]

def run (c : Catalog) (o : Options) (g : Graph) : Pass → Graph × Except CompileError Unit
  | indexSelection => selectIndexes c o g
  | distribution => splitBlocks c g

/-- Runs passes in order, up to the first that fails. -/
def runAll (c : Catalog) (o : Options) : List Pass → Graph → Graph × Except CompileError Unit
  | [], g => (g, .ok ())
  | p :: ps, g =>
    match p.run c o g with
    | (g, .ok ()) => runAll c o ps g
    | (g, .error e) => (g, .error e)

/-- Infers types, then runs passes in order. -/
def optimize (c : Catalog) (o : Options) (passes : List Pass) (g : Graph) :
    Graph × Except CompileError Unit :=
  runAll c o passes g.inferTypes

end Pass

/-! ## Front ends -/

/-- Kinds of schema statements. -/
inductive SchemaOperation where
  | createTable
  | dropTable
  | alterTable
  | createIndex
  | dropIndex
  deriving DecidableEq, Repr, Inhabited

def SchemaOperation.text : SchemaOperation → String
  | createTable => "CREATE TABLE"
  | dropTable => "DROP TABLE"
  | alterTable => "ALTER TABLE"
  | createIndex => "CREATE INDEX"
  | dropIndex => "DROP INDEX"

/-- A schema statement and the table or index it is about. -/
structure SchemaStatement where
  operation : SchemaOperation
  target : String
  deriving DecidableEq, Repr, Inhabited

/-- What a query text stands for. -/
inductive Request where
  | query (g : Graph)
  | statement (s : SchemaStatement)
  deriving Repr, Inhabited

/-- A reader of query texts. -/
structure Frontend (Tree : Type) where
  parse : String → Except CompileError Tree
  /-- Lays out a query in a graph, or recognises a schema statement. -/
  layOut : Tree → Catalog → Except CompileError Request

/-! ## The compiler -/

/-- What is known about the last query. -/
structure Compiler where
  catalog : Catalog
  options : Options := {}
  graph : Option Graph := none
  compiled : Option CompiledQuery := none
  statement : Option SchemaStatement := none
  error : Option CompileError := none
  deriving Repr, Inhabited

namespace Compiler

/-- Forgets the last query. -/
def reset (c : Compiler) : Compiler := { catalog := c.catalog, options := c.options }

/-- The last query gave a plan or a schema statement. -/
def succeeded (c : Compiler) : Bool :=
  c.error.isNone && (c.compiled.isSome || c.statement.isSome)

/-- Takes the graph of a query through the stages. -/
def compileGraph (c : Compiler) (g : Graph) : Compiler :=
  let c := c.reset
  match Pass.optimize c.catalog c.options Pass.all g with
  | (g, .error e) => { c with graph := some g, error := some e }
  | (g, .ok ()) =>
    match g.generate with
    | .ok q => { c with graph := some g, compiled := some q }
    | .error e => { c with graph := some g, error := some e }

/-- Compiles a query text. -/
def compile {Tree : Type} (c : Compiler) (f : Frontend Tree) (text : String) : Compiler :=
  match f.parse text >>= fun tree => f.layOut tree c.catalog with
  | .error e => { c.reset with error := some e }
  | .ok (.statement s) => { c.reset with statement := some s }
  | .ok (.query g) => c.compileGraph g

def registerCount (c : Compiler) : Nat := (c.compiled.map (·.numRegisters)).getD 0

def stepCount (c : Compiler) : Nat := (c.compiled.map (·.numSteps)).getD 0

/-- The variables the caller has to supply values for. -/
def externals (c : Compiler) : List ExternalVar := (c.compiled.map (·.externals)).getD []

def planText? (c : Compiler) : Option String := c.compiled.map (·.plan.text)

end Compiler

end ShardedQuery
