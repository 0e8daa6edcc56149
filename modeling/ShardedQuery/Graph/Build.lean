import ShardedQuery.Graph

/-!
# Building expressions

Small steps by which a front end lays out a query in a graph. Nodes are added
after the nodes they use.
-/

namespace ShardedQuery.Graph

def addLiteral (g : Graph) (v : Value) : NodeId × Graph := g.add (.literal v)

def addField (g : Graph) (input : NodeId) (name : String) : NodeId × Graph :=
  g.add (.field input name)

def addCall (g : Graph) (f : Function) (args : List NodeId) : NodeId × Graph :=
  g.add (.call f args)

/-- A call of the function of a name, which must take that many arguments. -/
def addNamedCall (g : Graph) (name : String) (args : List NodeId) :
    Except CompileError (NodeId × Graph) :=
  match Function.ofName? name with
  | none => CompileError.raise (.unsupported s!"unknown function {name}")
  | some f =>
    if f.arity.accepts args.length then .ok (g.addCall f args)
    else
      CompileError.raise
        (.unsupported s!"function {name} does not accept {args.length} arguments")

/-- A conjunction or disjunction. A single argument stands for itself. -/
def addConnective (g : Graph) (f : Function) (args : List NodeId) : NodeId × Graph :=
  match args with
  | [arg] => (arg, g)
  | args => g.addCall f args

/-- A variable that is not declared yet. -/
def addVar (g : Graph) (name : String) (kind : VarKind) : NodeId × Graph :=
  g.add (.var { name := name, kind := kind })

/-- Adds a block or a path step and declares its variables. -/
def addDeclaring (g : Graph) (e : Expr) (l : Option Location) : NodeId × Graph :=
  let (id, g) := g.addAt e l
  (id, e.declared.foldl (fun g v => g.declare v id) g)

/-- The elements of an array that meet a condition, which is laid out from the element. -/
def addArrayFilter {m : Type → Type} [Monad m] (g : Graph) (input : NodeId)
    (condition : NodeId → Graph → m (NodeId × Graph)) : m (NodeId × Graph) := do
  let (element, g) := g.addVar "$element" .element
  let (c, g) ← condition element g
  return g.addDeclaring (.filter input (some c) [element]) none

/-- The keys or values of the entries of a map that meet a condition, which is laid out from the key
and the value. -/
def addMapFilter {m : Type → Type} [Monad m] (g : Graph) (part : MapPart) (input : NodeId)
    (condition : NodeId → NodeId → Graph → m (NodeId × Graph)) : m (NodeId × Graph) := do
  let (key, g) := g.addVar "$key" .key
  let (value, g) := g.addVar "$value" .element
  let (c, g) ← condition key value g
  return g.addDeclaring (.mapFilter part input (some c) [key, value]) none

/-- The node of the conjunction of the given conditions. -/
def addCondition (g : Graph) : List NodeId → Option NodeId × Graph
  | [] => (none, g)
  | [c] => (some c, g)
  | cs =>
    let (id, g) := g.add (.call .and cs)
    (some id, g)

end ShardedQuery.Graph
