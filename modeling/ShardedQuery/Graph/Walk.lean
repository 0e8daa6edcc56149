import ShardedQuery.Graph

/-!
# Walking a graph

`Graph.postorder` lists the nodes below a node, each once and after the nodes it uses. What is
reachable from a node, and in which order query blocks are handled, is read off this list. The
walk goes no deeper than there are nodes, which an acyclic graph never exceeds.
-/

namespace ShardedQuery.Graph

/-- Appends the nodes below `id` that are not yet listed, going at most `depth` levels down. -/
def visit (g : Graph) : Nat → List NodeId → NodeId → List NodeId
  | 0, done, _ => done
  | depth + 1, done, id =>
    if done.contains id then done
    else (g.children id).foldl (visit g depth) done ++ [id]

/-- All nodes reachable from `id` through child slots, each once, after the nodes it uses. -/
def postorder (g : Graph) (id : NodeId) : List NodeId := g.visit (g.size + 1) [] id

/-- `target` is `id` or lies below it. -/
def reaches (g : Graph) (id target : NodeId) : Bool := (g.postorder id).contains target

/-- Some node at or below `id` satisfies `p`. -/
def anyBelow (g : Graph) (id : NodeId) (p : NodeId → Bool) : Bool := (g.postorder id).any p

/-- The query blocks reachable from the root, inner blocks first. -/
def queryBlocks (g : Graph) : List NodeId :=
  match g.root with
  | none => []
  | some r => (g.postorder r).filter fun id => (g.expr id).isBlock

end ShardedQuery.Graph
