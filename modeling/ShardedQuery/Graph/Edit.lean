import ShardedQuery.Graph.Build
import ShardedQuery.Graph.Typing

/-!
# Editing a graph

* `destroy` removes a node that nothing uses, and then all that nothing uses any more.
* `replace` puts one node in the place of another.
* `insertAbove` puts a new node between a node and its parents.
* `setConjuncts` gives a block a new WHERE clause.

The edits keep the parent lists in step with the child slots and derive the types of the affected
nodes anew.
-/

namespace ShardedQuery.Graph

/-! ## Removing nodes -/

/-- Marks a node as dead. -/
def bury (g : Graph) (id : NodeId) : Graph := g.modify id fun n => { n with live := false }

/-- Forgets what uses a node. -/
def detach (g : Graph) (id : NodeId) : Graph := g.modify id fun n => { n with parents := [] }

/-- Marks a node as dead and forgets what used it. -/
def kill (g : Graph) (id : NodeId) : Graph :=
  g.modify id fun n => { n with live := false, parents := [] }

/-- Takes the slots of a removed node out of the parent lists of its children, and gives the
children that nothing uses any more. Variables are not among these: they live as long as the node
that declares them. -/
def release (g : Graph) (id : NodeId) : List NodeId → List NodeId × Graph
  | [] => ([], g)
  | c :: cs =>
    let g := g.unlink id c
    let (orphans, h) := g.release id cs
    if (g.parents c).isEmpty && !(g.expr c).isVar then (c :: orphans, h) else (orphans, h)

/-- Works through a stack of nodes to remove. Of the children of a node that nothing uses any more
the last one is removed first, with all that it leaves unused. The order shows in the parent lists
of the nodes that stay, since taking an entry out of such a list moves its last entry. -/
def sweep : Nat → List NodeId → Graph → Graph
  | 0, _, g => g
  | _, [], g => g
  | steps + 1, id :: work, g =>
    if g.isLive id then
      let (orphans, h) := (g.kill id).release id (g.children id)
      sweep steps (orphans.reverse ++ work) ((g.expr id).declared.foldl bury h)
    else sweep steps work g

/-- The number of child slots of all nodes. -/
def slotCount (g : Graph) : Nat := g.nodes.foldl (fun n node => n + node.expr.children.length) 0

/-- Removes a node and every node below it that nothing uses any more, with the variables they
declare. Each slot puts at most one node on the list of nodes to remove. -/
def destroy (g : Graph) (id : NodeId) : Graph := sweep (g.slotCount + 1) [id] g

/-- Removes a node if nothing uses it. -/
def destroyIfUnused (g : Graph) (id : NodeId) : Graph :=
  if (g.parents id).isEmpty then g.destroy id else g

/-! ## Replacing nodes -/

/-- `new` where `old` stands, everything else as it is. -/
def redirect (old new id : NodeId) : NodeId := if id = old then new else id

/-- Puts `new` into the slots of `parent` that hold `old`, and records these slots at `new`. -/
def redirectSlots (g : Graph) (old new parent : NodeId) : Graph :=
  let slots := (g.children parent).count old
  let g := g.modifyExpr parent (·.mapChildren (redirect old new))
  g.modify new fun n => { n with parents := n.parents ++ List.replicate slots parent }

/-- The slots of several nodes are redirected. -/
def redirectAll (old new : NodeId) (ps : List NodeId) (g : Graph) : Graph :=
  ps.foldl (fun g p => g.redirectSlots old new p) g

/-- The recorded parents of a node, in order and each once. -/
def parentsInOrder (g : Graph) (id : NodeId) : List NodeId :=
  ((g.parents id).mergeSort fun a b => a ≤ b).eraseReps

/-- The new node in the place of the old one, before anything is removed or refreshed. -/
def redirected (g : Graph) (old new : NodeId) : Graph :=
  let h := redirectAll old new (g.parentsInOrder old) (g.detach old)
  if h.root = some old then h.setRoot new else h

/-- The new node in the place of the old one, before anything is refreshed. -/
def rewired (g : Graph) (old new : NodeId) (dispose : Bool) : Graph :=
  if dispose then (g.redirected old new).destroy old else g.redirected old new

/-- Puts `new` in the place of `old` in every slot, and at the root. With `dispose`, `old` is
removed together with what only it used. -/
def replace (g : Graph) (old new : NodeId) (dispose : Bool) : Graph :=
  if old = new then g else (g.parentsInOrder old).foldl refresh (g.rewired old new dispose)

/-- A node put between `id` and its parents, before any type is derived anew and wherever the root
is. -/
def spliced (g : Graph) (id : NodeId) (make : NodeId → Expr) : Graph :=
  let h := ((g.detach id).add (make id)).2
  let h := (g.parents id).foldl
    (fun h p => h.modifyExpr p (·.mapChildren (redirect id g.size))) h
  h.modify g.size fun n => { n with parents := g.parents id }

/-- A node put between `id` and its parents, and at the root, before any type is derived anew. -/
def inserted (g : Graph) (id : NodeId) (make : NodeId → Expr) : Graph :=
  if g.root = some id then (g.spliced id make).setRoot g.size else g.spliced id make

/-- Adds a node over `id` and puts it into every slot that held `id`, and at the root. -/
def insertAbove (g : Graph) (id : NodeId) (make : NodeId → Expr) : NodeId × Graph :=
  (g.size, (g.parents id).foldl refresh (g.inserted id make))

/-! ## WHERE clauses -/

/-- Takes a conjunction apart: its arguments are released, and the call itself is removed. -/
def dissolve (g : Graph) (call : NodeId) (args : List NodeId) : Graph :=
  let g := args.foldl (fun g a => g.unlink call a) g
  (g.setExpr call (.call .and [])).destroy call

/-- The graph without the old WHERE clause of a block: the clause is unlinked and, if it is a
conjunction, taken apart. -/
def withoutCondition (g : Graph) (block : NodeId) : Graph :=
  match (g.block? block).bind (·.condition) with
  | none => g
  | some old =>
    let g := g.unlink block old
    match g.expr old with
    | .call .and args => g.dissolve old args
    | _ => g

/-- The graph with the node of a new WHERE clause in the place of the old clause, which the block
does not have yet. -/
def withCondition (g : Graph) (block : NodeId) (cs : List NodeId) : Graph :=
  ((g.withoutCondition block).addCondition cs).2

/-- The node of a new WHERE clause. -/
def newCondition (g : Graph) (block : NodeId) (cs : List NodeId) : Option NodeId :=
  ((g.withoutCondition block).addCondition cs).1

/-- The graph in which a new WHERE clause knows its block. -/
def linkedCondition (g : Graph) (block : NodeId) (cs : List NodeId) : Graph :=
  (g.newCondition block cs).toList.foldl (fun k c => k.link block c) (g.withCondition block cs)

/-- The graph with a new WHERE clause, before old conjuncts that nothing uses are removed. -/
def reconditioned (g : Graph) (block : NodeId) (cs : List NodeId) : Graph :=
  (g.linkedCondition block cs).modifyBlock block fun b =>
    { b with condition := g.newCondition block cs }

/-- Gives a block the conjunction of `cs` as its WHERE clause. The old conjunction goes, and so do
the old conjuncts that are not among the new ones and that nothing else uses. -/
def setConjuncts (g : Graph) (block : NodeId) (cs : List NodeId) : Graph :=
  (g.conjuncts block).foldl (fun g c => if cs.contains c then g else g.destroyIfUnused c)
    (g.reconditioned block cs)

end ShardedQuery.Graph
