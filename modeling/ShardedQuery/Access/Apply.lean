import ShardedQuery.Access.Analysis
import ShardedQuery.Graph.Build
import ShardedQuery.Graph.Edit
import ShardedQuery.Work

/-!
# Putting an analysis to work

`Analysis.applyInPlace` changes a block so that its scan goes through the analysed access path: the
scan takes over keys, range and filter, the WHERE clause keeps what is left, and FROM entries that
nothing uses any more are dropped. It is an internal error if the block scans no table, or if the
scan is to have the key of a map and none is chosen. `Analysis.apply` is what it comes to when neither
is the case.
-/

namespace ShardedQuery

namespace KeySource

/-- The node of an equality key. The key of a map is a new constant. -/
def grow (key : Option String) : KeySource → Work NodeId
  | predicate p => pure p.operand
  | mapKey =>
    match key with
    | some key => Work.grow (·.addLiteral (.string key))
    | none => Work.ask fun _ => CompileError.raise (.internal "map key bound without a key")

/-- The nodes of the equality keys, in order. -/
def growAll (key : Option String) : List KeySource → Work (List NodeId)
  | [] => pure []
  | k :: ks => do
    let id ← k.grow key
    let ids ← growAll key ks
    return id :: ids

/-- The node of an equality key, where `key` is that of a map. -/
def node (key : String) (g : Graph) : KeySource → NodeId × Graph
  | predicate p => (p.operand, g)
  | mapKey => g.addLiteral (.string key)

/-- The nodes of the equality keys, where `key` is that of a map. -/
def nodes (key : String) (g : Graph) : List KeySource → List NodeId × Graph
  | [] => ([], g)
  | k :: ks =>
    let (id, g) := k.node key g
    let (ids, g) := nodes key g ks
    (id :: ids, g)

end KeySource

/-- The range of a scan over the operands of the predicates. -/
def RangeBounds.toFieldRange (r : RangeBounds) : FieldRange :=
  { position := r.position
    start := r.lower.map (·.operand)
    startInclusive := r.lower.any (·.op.isInclusive)
    stop := r.upper.map (·.operand)
    stopInclusive := r.upper.any (·.op.isInclusive) }

/-- What a scan becomes when it goes through the analysed access path. -/
def TableScan.accessed (s : TableScan) (a : Analysis) (t : Table) (keys : List NodeId)
    (filter : Option NodeId) : TableScan :=
  { s with
    index := a.path.name?
    keys := keys
    range := a.bounds.range.map (·.toFieldRange)
    filter := filter
    covering := a.covering
    dedup := a.dedup
    singlePartition := a.isCompleteShardKey t }

namespace Graph

/-- The scan of a block. -/
def scanOf (g : Graph) (block : NodeId) : Except CompileError NodeId :=
  match (g.block? block).bind (·.firstDomain?) with
  | some scan =>
    if (g.scan? scan).isSome then .ok scan
    else CompileError.raise (.internal "query block does not scan a table")
  | none => CompileError.raise (.internal "query block does not scan a table")

/-- The node is a scan. -/
def checkScan (g : Graph) (scan : NodeId) : Except CompileError Unit :=
  if (g.scan? scan).isSome then .ok ()
  else CompileError.raise (.internal "query block does not scan a table")

/-- Drops the FROM entry at a position, with its variable. -/
def dropEntry (g : Graph) (block : NodeId) (pos : Nat) (e : FromEntry) : Graph :=
  let g := g.modifyBlock block fun b => { b with entries := b.entries.eraseIdx pos }
  let g := (g.unlink block e.domain).destroyIfUnused e.domain
  g.destroy e.var

/-- A FROM entry may go: nothing uses it, and it stands for exactly one item or is absorbed by the
index. -/
def drops (g : Graph) (absorbed : List NodeId) (e : FromEntry) : Bool :=
  (g.parents e.var).isEmpty
    && ((g.exprType e.domain).quantifier == .one || absorbed.contains e.var)

/-- What is done about a FROM entry and its position. -/
def dropTurn (block : NodeId) (absorbed : List NodeId) (g : Graph) (x : FromEntry × Nat) : Graph :=
  if g.drops absorbed x.1 then g.dropEntry block x.2 x.1 else g

/-- Drops the FROM entries after the first that may go, from the last to the first. -/
def dropUnused (g : Graph) (block : NodeId) (absorbed : List NodeId) : Graph :=
  let entries := ((g.block? block).map (·.entries)).getD []
  (entries.zipIdx.drop 1).reverse.foldl (dropTurn block absorbed) g

/-- Sets what a scan uses of an index, and links the scan to the nodes involved. -/
def setAccess (g : Graph) (scan : NodeId) (a : Analysis) (t : Table) (keys : List NodeId)
    (filter : Option NodeId) : Graph :=
  let range := a.bounds.range.map (·.toFieldRange)
  let slots := keys ++ (range.map (·.ends)).getD [] ++ filter.toList
  slots.foldl (fun g c => g.link scan c) (g.modifyScan scan (·.accessed a t keys filter))

end Graph

namespace Analysis

/-- Makes the scan of a block go through the analysed access path. That there is a scan is asked
before nodes are added for it and again when it takes them over. -/
def applyInPlace (a : Analysis) (t : Table) (site : Site) : Work Unit := do
  let scan ← Work.ask (·.scanOf site.block)
  let keys ← KeySource.growAll a.mapKey a.bounds.keys
  let filter ← Work.grow (·.addCondition a.filterConjuncts)
  Work.ask (·.checkScan scan)
  Work.change (·.setAccess scan a t keys filter)
  Work.change fun g => g.setConjuncts site.block (a.remaining g site)
  Work.change (·.dropUnused site.block a.absorbed)

/-- The nodes of the equality keys, in order. -/
def keyNodes (a : Analysis) (g : Graph) : List NodeId × Graph :=
  KeySource.nodes (a.mapKey.getD "") g a.bounds.keys

/-- The graph with the new constants among the equality keys. -/
def keyedGraph (a : Analysis) (g : Graph) : Graph := (a.keyNodes g).2

/-- The graph with all new nodes of the scan. -/
def grownGraph (a : Analysis) (g : Graph) : Graph :=
  ((a.keyedGraph g).addCondition a.filterConjuncts).2

/-- The graph before the block changes: the scan uses the new nodes. -/
def accessGraph (a : Analysis) (g : Graph) (t : Table) (scan : NodeId) : Graph :=
  (a.grownGraph g).setAccess scan a t (a.keyNodes g).1
    ((a.keyedGraph g).addCondition a.filterConjuncts).1

/-- The graph before FROM entries go: the WHERE clause has the conjuncts that remain. -/
def remainingGraph (a : Analysis) (g : Graph) (t : Table) (site : Site) (scan : NodeId) : Graph :=
  (a.accessGraph g t scan).setConjuncts site.block (a.remaining (a.accessGraph g t scan) site)

/-- What becomes of the graph when the given scan goes through the analysed access path. -/
def apply (a : Analysis) (g : Graph) (t : Table) (site : Site) (scan : NodeId) : Graph :=
  (a.remainingGraph g t site scan).dropUnused site.block a.absorbed

end Analysis

end ShardedQuery
