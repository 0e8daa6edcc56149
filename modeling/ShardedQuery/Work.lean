import ShardedQuery.Error
import ShardedQuery.Graph

/-!
# Work on a graph

The passes edit one graph in place. `Work` spells this out: questions and changes follow one another,
and a failure ends the work and leaves the graph as the changes so far have made it.
-/

namespace ShardedQuery

/-- Work on a graph in place. A failure ends it and leaves the graph as it is then. -/
abbrev Work (α : Type) := Graph → Graph × Except CompileError α

namespace Work

instance : Monad Work where
  pure a := fun g => (g, .ok a)
  bind x f := fun g =>
    match x g with
    | (g, .ok a) => f a g
    | (g, .error e) => (g, .error e)

/-- Reads something off the graph. -/
def read {α : Type} (f : Graph → α) : Work α := fun g => (g, .ok (f g))

/-- Asks the graph something that may be answered with an error. -/
def ask {α : Type} (f : Graph → Except CompileError α) : Work α := fun g => (g, f g)

/-- Adds nodes to the graph. -/
def grow {α : Type} (f : Graph → α × Graph) : Work α := fun g => ((f g).2, .ok (f g).1)

def change (f : Graph → Graph) : Work Unit := fun g => (f g, .ok ())

/-- The graph that the work makes of a given one, unless it fails. -/
def outcome (w : Work Unit) (g : Graph) : Except CompileError Graph :=
  match w g with
  | (h, .ok ()) => .ok h
  | (_, .error e) => .error e

end Work

end ShardedQuery
