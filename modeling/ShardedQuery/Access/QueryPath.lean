import ShardedQuery.Graph.Typing
import ShardedQuery.IndexPath

/-!
# Paths in queries

A query path is the chain of navigation steps from the row variable of a block to an expression.
It may go through one further FROM variable of the block, whose domain is then a path of the row;
the items of that domain are unnested. `QueryPath.matchPath` decides whether an index path leads
to the items the query path selects, or to more.
-/

namespace ShardedQuery

/-- One navigation step. A step is restricted when a condition or bounds keep only some items. -/
inductive QueryStep where
  | field (name : String)
  | elements (restricted : Bool)
  | keys (restricted : Bool)
  | values (restricted : Bool)
  deriving DecidableEq, Repr, Inhabited

def QueryStep.text : QueryStep → String
  | field name => "." ++ name
  | elements false => "[]"
  | elements true => "[..]"
  | keys _ => ".keys()"
  | values _ => ".values()"

/-- A navigation step with the type of the items it starts from. -/
structure Navigation where
  step : QueryStep
  input : ItemType
  deriving DecidableEq, Repr, Inhabited

/-- A path from the row variable of a block. -/
structure QueryPath where
  steps : List Navigation
  /-- The type of the items the path selects. -/
  result : ItemType
  /-- The further FROM variable the path goes through. -/
  unnested : Option NodeId
  deriving DecidableEq, Repr, Inhabited

def QueryPath.text (q : QueryPath) : String := q.steps.foldl (fun s n => s ++ n.step.text) "$"

namespace Graph

/-- The step a node takes and the node it takes it from, if it is a navigation step. The bracket
step over a map runs over its values. -/
def navigation? (g : Graph) (id : NodeId) : Option (QueryStep × NodeId) :=
  match g.expr id with
  | .field input name => some (.field name, input)
  | .filter input condition _ =>
    if (g.exprType input).item.isMap then some (.values condition.isSome, input)
    else some (.elements condition.isSome, input)
  | .slice input low high _ => some (.elements (low.isSome || high.isSome), input)
  | .mapFilter .keys input condition _ => some (.keys condition.isSome, input)
  | .mapFilter .values input condition _ => some (.values condition.isSome, input)
  | _ => none

/-- Goes up a chain of at most `depth` navigation steps and puts them in front of `steps`. -/
def climb (g : Graph) : Nat → NodeId → List Navigation → NodeId × List Navigation
  | 0, id, steps => (id, steps)
  | depth + 1, id, steps =>
    match g.navigation? id with
    | none => (id, steps)
    | some (step, input) => g.climb depth input (⟨step, (g.exprType input).item⟩ :: steps)

/-- The path from a row variable to an expression. -/
def queryPath? (g : Graph) (rowVar expr : NodeId) : Option QueryPath := do
  let row ← g.var? rowVar
  let result := (g.exprType expr).item
  let (base, steps) := g.climb (g.size + 1) expr []
  if base = rowVar then return ⟨steps, result, none⟩
  else
    let v ← g.var? base
    if v.kind = .row ∧ v.decl = row.decl then
      let domain ← g.domain? base
      let (start, steps) := g.climb (g.size + 1) domain steps
      if start = rowVar then return ⟨steps, result, some base⟩ else none
    else none

end Graph

/-- How an index path meets a query path. -/
structure PathMatch where
  /-- The index path leads to more items than the query path: a step of the query is restricted
  and the step of the index is not. -/
  widened : Bool
  /-- The key that the query path selects where the index path has all values of a map. -/
  mapKey : Option String
  deriving DecidableEq, Repr, Inhabited

/-- The two paths lead to the same items. -/
def PathMatch.isExact (m : PathMatch) : Bool := !m.widened && m.mapKey.isNone

/-- Matches the steps of an index path with those of a query path, given what was found so far.
A bracket step of the index that the query leaves out is implied where the query navigates an
array, or ends in one. With `allowKey`, a field step over a map meets a values step of the index
and its name is the key. -/
def matchSteps (allowKey : Bool) :
    List PathStep → List Navigation → ItemType → PathMatch → Option PathMatch
  | [], [], _, found => some found
  | [], _ :: _, _, _ => none
  | step :: rest, [], last, found =>
    if step = .elements ∧ last.isArray then matchSteps allowKey rest [] last.elementType found
    else none
  | step :: rest, q :: qs, last, found =>
    match step, q.step with
    | .field a, .field b => if a = b then matchSteps allowKey rest qs last found else none
    | .elements, .field _ =>
      if q.input.isArray then matchSteps allowKey rest (q :: qs) last found else none
    | .elements, .elements restricted | .values, .values restricted | .keys, .keys restricted =>
      matchSteps allowKey rest qs last { found with widened := found.widened || restricted }
    | .values, .field key =>
      if allowKey && q.input.isMap && found.mapKey.isNone then
        matchSteps allowKey rest qs last { found with mapKey := some key }
      else none
    | _, _ => none

/-- How an index path meets the query path, if it does. -/
def QueryPath.matchPath (q : QueryPath) (p : IndexPath) (allowKey : Bool) : Option PathMatch :=
  matchSteps allowKey p.steps q.steps q.result ⟨false, none⟩

/-- The index path leads to exactly the items of the query path. -/
def QueryPath.isExactly (q : QueryPath) (p : IndexPath) : Bool :=
  (q.matchPath p false).any (·.isExact)

end ShardedQuery
