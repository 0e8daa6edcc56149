import ShardedQuery.Expr

/-!
# Expression graphs

A `Graph` holds the nodes of one query. A node is named by its place, and places are never given
away twice: a node that is removed stays where it is and is marked dead. Each node knows its
parents, with one entry for every child slot that holds it, so that the parents of a node are a
multiset; the order of the list carries no meaning.

Reading a place where nothing was ever added gives `Node.absent`, a dead node.
-/

namespace ShardedQuery

/-- A node of the graph with its links and what is known about it. -/
structure Node where
  expr : Expr
  /-- One entry for each slot that holds this node. -/
  parents : List NodeId := []
  /-- The type of the expression, once inferred. -/
  type : Option SeqType := none
  location : Option Location := none
  live : Bool := true
  deriving Repr

/-- What is read where no node was added. -/
def Node.absent : Node := { expr := .literal .empty, live := false }

instance : Inhabited Node := ⟨Node.absent⟩

/-- An expression graph. -/
structure Graph where
  nodes : Array Node := #[]
  root : Option NodeId := none
  /-- The external variables, in the order in which they were declared. -/
  externals : List NodeId := []
  deriving Repr, Inhabited

namespace Graph

/-! ## Reading -/

/-- The number of nodes ever added. -/
def size (g : Graph) : Nat := g.nodes.size

def node (g : Graph) (id : NodeId) : Node := g.nodes.getD id Node.absent

def expr (g : Graph) (id : NodeId) : Expr := (g.node id).expr

def parents (g : Graph) (id : NodeId) : List NodeId := (g.node id).parents

def children (g : Graph) (id : NodeId) : List NodeId := (g.expr id).children

def isLive (g : Graph) (id : NodeId) : Bool := (g.node id).live

def location (g : Graph) (id : NodeId) : Option Location := (g.node id).location

/-- The type found for a node earlier, if any. -/
def type? (g : Graph) (id : NodeId) : Option SeqType := (g.node id).type

/-- The ids of all live nodes, in order. -/
def liveIds (g : Graph) : List NodeId := (List.range g.size).filter g.isLive

def block? (g : Graph) (id : NodeId) : Option Block :=
  match g.expr id with
  | .block b => some b
  | _ => none

def scan? (g : Graph) (id : NodeId) : Option TableScan :=
  match g.expr id with
  | .scan s => some s
  | _ => none

def var? (g : Graph) (id : NodeId) : Option Variable :=
  match g.expr id with
  | .var v => some v
  | _ => none

/-- The domain a FROM variable ranges over, found through the block that declares it. -/
def domain? (g : Graph) (var : NodeId) : Option NodeId := do
  let decl ← (← g.var? var).decl
  let entry ← (← g.block? decl).entries.find? (·.var == var)
  return entry.domain

/-- The top-level conjuncts of the WHERE clause of a block. -/
def conjuncts (g : Graph) (block : NodeId) : List NodeId :=
  match (g.block? block).bind (·.condition) with
  | none => []
  | some c =>
    match g.expr c with
    | .call .and args => args
    | _ => [c]

/-! ## Writing -/

def modify (g : Graph) (id : NodeId) (f : Node → Node) : Graph :=
  { g with nodes := g.nodes.modify id f }

def modifyExpr (g : Graph) (id : NodeId) (f : Expr → Expr) : Graph :=
  g.modify id fun n => { n with expr := f n.expr }

/-- Replaces the expression at a node. Links are left as they are. -/
def setExpr (g : Graph) (id : NodeId) (e : Expr) : Graph := g.modifyExpr id fun _ => e

def setType (g : Graph) (id : NodeId) (t : SeqType) : Graph :=
  g.modify id fun n => { n with type := some t }

def setLocation (g : Graph) (id : NodeId) (l : Option Location) : Graph :=
  g.modify id fun n => { n with location := l }

def setRoot (g : Graph) (id : NodeId) : Graph := { g with root := some id }

/-- Changes the block at a node; a node that is no block is left alone. -/
def modifyBlock (g : Graph) (id : NodeId) (f : Block → Block) : Graph :=
  g.modifyExpr id fun
    | .block b => .block (f b)
    | e => e

/-- Changes the scan at a node; a node that is no scan is left alone. -/
def modifyScan (g : Graph) (id : NodeId) (f : TableScan → TableScan) : Graph :=
  g.modifyExpr id fun
    | .scan s => .scan (f s)
    | e => e

/-- Records one more slot of `parent` that holds `child`. -/
def link (g : Graph) (parent child : NodeId) : Graph :=
  g.modify child fun n => { n with parents := n.parents ++ [parent] }

/-- Takes the first entry for `p` out of a parent list; the last entry moves into its place. -/
def withoutOne (p : NodeId) (parents : List NodeId) : List NodeId :=
  match parents.findIdx? (· == p) with
  | none => parents
  | some i => (parents.set i (parents.getLastD p)).dropLast

/-- Removes the record of one slot of `parent` that holds `child`. -/
def unlink (g : Graph) (parent child : NodeId) : Graph :=
  g.modify child fun n => { n with parents := withoutOne parent n.parents }

/-- Adds a node and links it to its children. -/
def add (g : Graph) (e : Expr) : NodeId × Graph :=
  let id := g.size
  let linked := e.children.foldl (fun g c => g.link id c) g
  (id, { linked with nodes := linked.nodes.push { expr := e } })

/-- Adds a node with a place in the query text. -/
def addAt (g : Graph) (e : Expr) (l : Option Location) : NodeId × Graph :=
  let (id, g) := g.add e
  (id, g.setLocation id l)

/-- Names the block or step that declares a variable. -/
def declare (g : Graph) (var decl : NodeId) : Graph :=
  g.modifyExpr var fun
    | .var v => .var { v with decl := some decl }
    | e => e

/-- Adds an external variable; these are numbered in the order of their declaration. -/
def addExternal (g : Graph) (name : String) (declared : SeqType) : NodeId × Graph :=
  let (id, h) := g.add (.var { name := name, kind := .external g.externals.length declared })
  (id, { h with externals := h.externals ++ [id] })

end Graph

end ShardedQuery
