import ShardedQuery.Access.Path
import ShardedQuery.Access.Predicate
import ShardedQuery.Catalog
import ShardedQuery.Graph.Walk

/-!
# What an access path can do for a block

`Analysis.run` reads the comparisons of a WHERE clause that an access path can use, settles the
conflicts between them, and decides which of them bound the scan and which filter index entries.
The bounds are equality keys on a beginning of the index fields, then at most one range on the
next field. A clause that contradicts itself has no analysis: the block selects nothing.
-/

namespace ShardedQuery

/-- The block under analysis and the variable that stands for the rows of its table. -/
structure Site where
  block : NodeId
  rowVar : NodeId
  deriving DecidableEq, Repr, Inhabited

namespace Graph

/-- The expression mentions constants and external variables only. -/
def isRowIndependent (g : Graph) (id : NodeId) : Bool :=
  !g.anyBelow id fun n =>
    match g.expr n with
    | .var v => !v.kind.isExternal
    | .block _ | .scan _ | .receive _ => true
    | _ => false

end Graph

/-! ## Reading comparisons -/

/-- Reads a comparison with its path operand on the left. There is no result when the operands
are not a path of the row that the access path meets and an operand that does not depend on the
row; the result is empty when they are, but the comparison cannot be pushed. -/
def readOriented (g : Graph) (path : AccessPath) (rowVar conjunct : NodeId) (left right : NodeId)
    (op : Comparison) (any : Bool) : Option (Except CompileError (Option Predicate)) :=
  if !g.isRowIndependent right then none
  else
    match g.queryPath? rowVar left with
    | none => none
    | some q =>
      match path.meetings q with
      | [] => none
      | (pos, m) :: others =>
        if !others.isEmpty && ((pos, m) :: others).any (·.2.mapKey.isSome) then
          some (locateFailure (g.location conjunct)
            (CompileError.raise (.ambiguousMapKey q.text)))
        -- A value comparison of many items fails when the query runs, and must do so.
        else if !any && !(g.exprType left).isScalar then some (.ok none)
        else if !(path.typeAt pos).comparable (g.exprType right).item then some (.ok none)
        else
          let predicate (value : Option Value) : Predicate :=
            { ordinal := 0, conjunct := conjunct, operand := right, value := value, op := op,
              any := any, position := pos, mapKey := m.mapKey, widened := m.widened,
              unnested := q.unnested }
          match g.expr right with
          | .literal v =>
            if v.isNull || !v.isAtomic then some (.ok none)
            else some (.ok (some (predicate (some v))))
          | _ => some (.ok (some (predicate none)))

/-- Reads a conjunct as a predicate on an index field, with the operands either way round. -/
def readPredicate (g : Graph) (path : AccessPath) (rowVar conjunct : NodeId) :
    Except CompileError (Option Predicate) :=
  match g.expr conjunct with
  | .call (.compare op any) [a, b] =>
    match readOriented g path rowVar conjunct a b op any with
    | some r => r
    | none => (readOriented g path rowVar conjunct b a op.swap any).getD (.ok none)
  | _ => .ok none

/-- The predicates of a WHERE clause, numbered in order. -/
def readPredicates (g : Graph) (path : AccessPath) (site : Site) :
    Except CompileError (List Predicate) := do
  let read ← (g.conjuncts site.block).mapM (readPredicate g path site.rowVar)
  return (read.filterMap id).mapIdx fun i p => { p with ordinal := i }

/-! ## One key of a map -/

/-- What a predicate on an entry of a map is worth. -/
def Predicate.keyScore (w : Weights) (p : Predicate) : Int32 :=
  if p.isFilterOnly then w.multiKeyFiltering else if p.isEquality then w.equality else w.range

/-- The key with the most valuable predicates; of equally valuable keys the smallest. -/
def bestMapKey (w : Weights) (ps : List Predicate) : Option String :=
  let keys := ((ps.filterMap (·.mapKey)).mergeSort (fun a b => (compare a b).isLE)).eraseReps
  let score (key : String) : Int32 :=
    ((ps.filter (·.mapKey == some key)).map (·.keyScore w)).foldl (· + ·) 0
  keys.foldl (fun best key =>
    match best with
    | none => some key
    | some k => if score key > score k then some key else some k) none

/-- What becomes of a predicate once a key is chosen. Other keys are skipped; a predicate on the
keys is implied if it asks for the same key; other predicates on the values are skipped. -/
def Predicate.underKey (path : AccessPath) (key : String) (p : Predicate) : Predicate :=
  match p.mapKey with
  | some k => if k = key then p else { p with status := .skip }
  | none =>
    if path.mapKeys? = some p.position then
      if p.isEquality && !p.widened && p.value.bind (·.toString?) == some key then
        { p with status := .implied }
      else { p with status := .skip }
    else if path.mapValues? = some p.position then { p with status := .skip }
    else p

/-- Keeps the predicates of one key of a map only. -/
def chooseMapKey (w : Weights) (path : AccessPath) (ps : List Predicate) :
    Option String × List Predicate :=
  if path.mapKeys?.isNone then (none, ps)
  else
    match bestMapKey w ps with
    | none => (none, ps)
    | some key => (some key, ps.map (Predicate.underKey path key))

/-! ## Fields with fan-out -/

/-- Any entry of the row may satisfy the predicate. -/
def Predicate.isIndependent (path : AccessPath) (p : Predicate) : Bool :=
  p.isKept && path.fansOutAt p.position && p.unnested.isNone && p.mapKey.isNone

/-- Predicates that any entry may satisfy constrain only one field, since different entries may
satisfy them; they all give way to predicates on an unnested item. -/
def restrictMultiKey (path : AccessPath) (ps : List Predicate) : List Predicate :=
  let unnested := ps.any fun p => p.isKept && path.fansOutAt p.position && p.unnested.isSome
  let first := ((ps.filter (·.isIndependent path)).map (·.position)).min?
  ps.map fun p =>
    if p.isIndependent path && (unnested || first != some p.position) then
      { p with status := .skip }
    else p

/-! ## Bounds of the scan -/

/-- Where an equality key comes from. -/
inductive KeySource where
  | predicate (p : Predicate)
  /-- The chosen key of a map. -/
  | mapKey
  deriving Repr, Inhabited

def KeySource.isMapKey : KeySource → Bool
  | mapKey => true
  | _ => false

/-- The range on the field after the equality keys. -/
structure RangeBounds where
  position : Nat
  lower : Option Predicate
  upper : Option Predicate
  deriving Repr, Inhabited

/-- How many ends a range has. -/
def RangeBounds.count (r : RangeBounds) : Nat := r.lower.toList.length + r.upper.toList.length

/-- The bounds of a scan. -/
structure Bounds where
  keys : List KeySource
  range : Option RangeBounds
  deriving Repr, Inhabited

namespace Bounds

/-- The predicates that bound the scan, by their ordinals. -/
def ordinals (b : Bounds) : List Nat :=
  (b.keys.filterMap fun
    | .predicate p => some p.ordinal
    | .mapKey => none)
  ++ match b.range with
    | none => []
    | some r => r.lower.toList.map (·.ordinal) ++ r.upper.toList.map (·.ordinal)

def uses (b : Bounds) (p : Predicate) : Bool := b.ordinals.contains p.ordinal

def hasMapKey (b : Bounds) : Bool := b.keys.any (·.isMapKey)

/-- How many comparisons bound the scan. -/
def count (b : Bounds) : Nat := b.keys.length + (b.range.map (·.count)).getD 0

end Bounds

/-- The predicate can bound the scan at a position. -/
def Predicate.boundsAt (pos : Nat) (p : Predicate) : Bool :=
  p.isKept && p.position == pos && !p.isFilterOnly

/-- The range that the predicates put on a field. -/
def rangeAt (ps : List Predicate) (pos : Nat) : Option RangeBounds :=
  let lower := ps.find? fun p => p.boundsAt pos && p.op.isLower
  let upper := ps.find? fun p => p.boundsAt pos && p.op.isUpper
  if lower.isSome || upper.isSome then some ⟨pos, lower, upper⟩ else none

/-- The equality key at a position, if there is one. `keysAt` is the position of the keys of a map and
`mapKey` the chosen key. -/
def keyAt? (keysAt : Option Nat) (mapKey : Option String) (ps : List Predicate) (pos : Nat) :
    Option KeySource :=
  if keysAt = some pos ∧ mapKey.isSome then some .mapKey
  else (ps.find? fun p => p.boundsAt pos && p.isEquality).map .predicate

/-- The bounds on the `n` fields from a position on. -/
def boundsFrom (keysAt : Option Nat) (mapKey : Option String) (ps : List Predicate) :
    Nat → Nat → Bounds
  | 0, _ => ⟨[], none⟩
  | n + 1, pos =>
    match keyAt? keysAt mapKey ps pos with
    | some s =>
      let rest := boundsFrom keysAt mapKey ps n (pos + 1)
      { rest with keys := s :: rest.keys }
    | none => ⟨[], rangeAt ps pos⟩

/-- What becomes of a settled predicate under the bounds. It is skipped if it is about one entry of
a map and the key does not bound the scan, or if the key that does not bound the scan implied it,
or if it looks at fewer items than an index entry stands for and does not bound the scan. -/
def Predicate.release (path : AccessPath) (mapKey : Option String) (b : Bounds) (p : Predicate) :
    Predicate :=
  let unkeyed := mapKey.isSome && !b.hasMapKey
    && (p.mapKey.isSome || (p.status = .implied && path.mapKeys? = some p.position))
  if unkeyed || (p.widened && p.isKept && !b.uses p) then { p with status := .skip } else p

/-! ## The analysis -/

/-- What an access path can do for a block. -/
structure Analysis where
  path : AccessPath
  /-- The key of a map whose entries the scan is after. -/
  mapKey : Option String := none
  predicates : List Predicate
  bounds : Bounds
  /-- Conjuncts that are no predicates on index fields but can be checked on index entries. -/
  indexFilters : List NodeId := []
  /-- Further FROM variables that are still used after pushing; the predicates on them stay in the
  WHERE clause. -/
  retained : List NodeId := []
  /-- Further FROM variables that are used by pushed predicates only. -/
  absorbed : List NodeId := []
  covering : Bool := false
  dedup : Bool := false
  score : Int32 := 0
  deriving Repr, Inhabited

namespace Analysis

def numKeys (a : Analysis) : Nat := a.bounds.keys.length

/-- The equality keys cover every index field. -/
def isCompleteKey (a : Analysis) : Bool :=
  !a.path.fields.isEmpty && a.numKeys == a.path.fields.length

/-- The scan goes through the primary index and its equality keys cover the shard key. -/
def isCompleteShardKey (a : Analysis) (t : Table) : Bool :=
  a.path.isPrimary && t.shardKeyLength ≤ a.numKeys

/-- The predicate filters index entries. -/
def filters (a : Analysis) (p : Predicate) : Bool := p.isKept && !a.bounds.uses p

/-- The predicate is taken over by the scan: a bound, a filter, or implied by one. -/
def pushes (a : Analysis) (p : Predicate) : Bool :=
  a.bounds.uses p || p.isKept || p.status = .implied

def pushed (a : Analysis) : List Predicate := a.predicates.filter a.pushes

/-- The conjuncts checked on index entries. -/
def filterConjuncts (a : Analysis) : List NodeId :=
  (a.predicates.filter a.filters).map (·.conjunct) ++ a.indexFilters

/-- Sorts the further FROM variables of pushed predicates by whether anything else uses them. -/
def sortVariables (a : Analysis) (g : Graph) : Analysis :=
  let vars := a.pushed.filterMap (·.unnested)
  let isRetained (v : NodeId) : Bool := vars.count v < (g.parents v).length
  { a with
    retained := vars.eraseDups.filter isRetained
    absorbed := vars.eraseDups.filter (!isRetained ·) }

/-- The conjunct stays in the WHERE clause although the scan uses it. -/
def retains (a : Analysis) (p : Predicate) : Bool :=
  p.widened || p.unnested.any a.retained.contains

/-- The conjuncts that leave the WHERE clause. -/
def consumed (a : Analysis) : List NodeId :=
  (a.pushed.filter fun p => p.status = .implied || !a.retains p).map (·.conjunct)
    ++ a.indexFilters

/-- The conjuncts that stay in the WHERE clause. -/
def remaining (a : Analysis) (g : Graph) (site : Site) : List NodeId :=
  (g.conjuncts site.block).filter (!a.consumed.contains ·)

/-! ### Evaluation on index entries -/

/-- Index entries hold what the path selects. Every entry carries the primary key. -/
def isResident (t : Table) (path : AccessPath) (q : QueryPath) : Bool :=
  (match q.steps with
    | [⟨.field name, _⟩] => (t.keyPosition? name).isSome
    | _ => false)
  || path.fields.any fun f => AccessPath.AccessField.holds f q

/-- An expression at most `depth` levels deep can be evaluated on an index entry. -/
def evaluableWithin (g : Graph) (t : Table) (path : AccessPath) (rowVar : NodeId) :
    Nat → NodeId → Bool
  | 0, _ => false
  | depth + 1, id =>
    match g.queryPath? rowVar id with
    | some q => q.unnested.isNone && isResident t path q
    | none =>
      match g.expr id with
      | .var v => v.kind != .row
      | .block _ | .scan _ | .receive _ => false
      | e => e.children.all (evaluableWithin g t path rowVar depth)

/-- The expression can be evaluated on an index entry. -/
def isEvaluable (g : Graph) (t : Table) (path : AccessPath) (rowVar id : NodeId) : Bool :=
  evaluableWithin g t path rowVar (g.size + 1) id

/-- Adds the conjuncts that mention the row and can be checked on index entries. -/
def addIndexFilters (a : Analysis) (g : Graph) (t : Table) (site : Site) : Analysis :=
  let used := (a.predicates.filter (·.status != .skip)).map (·.conjunct)
  let free := (g.conjuncts site.block).eraseDups.filter (!used.contains ·)
  { a with indexFilters := free.filter fun c =>
      g.anyBelow c (· == site.rowVar) && isEvaluable g t a.path site.rowVar c }

/-- Index entries hold everything the block needs. -/
def isCovering (a : Analysis) (g : Graph) (t : Table) (site : Site) : Bool :=
  if a.path.isPrimary || a.path.isMultiKey then false
  else
    match g.block? site.block with
    | none => false
    | some b =>
      if b.star || 1 < b.entries.length then false
      else
        (b.select.map (·.expr) ++ b.sort.map (·.expr) ++ a.remaining g site).all
          (isEvaluable g t a.path site.rowVar)

/-- A row may come up more than once: it has many entries in the index, and no bound ties the
scan to a single one of them. -/
def needsDedup (a : Analysis) : Bool :=
  if !a.path.isMultiKey then false
  else if !a.retained.isEmpty then true
  else
    let kept := a.pushed.filter (·.isKept)
    let anyPushed := kept.any fun p => p.any || p.widened
    let rangeFansOut := a.bounds.range.any fun r => a.path.fansOutAt r.position
    let byEntry :=
      a.bounds.hasMapKey
        || kept.any fun p => a.path.fansOutAt p.position && p.unnested.isSome
    anyPushed || rangeFansOut || !byEntry

/-- The score of a complete key. No score is above it. -/
def completeScore : Int32 := Int32.maxValue

/-- The score of an analysis: what its keys, range and filters are worth. -/
def computeScore (a : Analysis) (w : Weights) : Int32 :=
  if a.isCompleteKey then completeScore
  else
    let rangeScore : Int32 :=
      match a.bounds.range with
      | none => 0
      | some r => (if a.path.fansOutAt r.position then w.multiKeyRange else w.range) * .ofNat r.count
    let filterScore : Int32 :=
      ((a.predicates.filter a.filters).map fun p =>
        if a.path.fansOutAt p.position then w.multiKeyFiltering else w.filtering).foldl (· + ·) 0
    .ofNat a.numKeys * w.equality + rangeScore + filterScore +
      .ofNat a.indexFilters.length * w.filtering

/-- The predicates on which conflicts are settled. -/
def contenders (w : Weights) (path : AccessPath) (ps : List Predicate) : List Predicate :=
  restrictMultiKey path (chooseMapKey w path ps).2

/-- The chosen key of a map and the predicates of a clause as the access path can use them, with the
bounds they make. -/
def choose (w : Weights) (path : AccessPath) (ps : List Predicate) :
    Option (Option String × List Predicate × Bounds) :=
  (resolveConflicts path.fansOutAt (contenders w path ps)).map fun rs =>
    let mapKey := (chooseMapKey w path ps).1
    let bounds := boundsFrom path.mapKeys? mapKey rs path.fields.length 0
    (mapKey, rs.map (·.release path mapKey bounds), bounds)

/-- Analyses an access path for a block. There is no analysis when the WHERE clause contradicts
itself. -/
def run (g : Graph) (t : Table) (w : Weights) (site : Site) (path : AccessPath) :
    Except CompileError (Option Analysis) := do
  let ps ← readPredicates g path site
  match choose w path ps with
  | none => return none
  | some (mapKey, ps, bounds) =>
    let a : Analysis := { path := path, mapKey := mapKey, predicates := ps, bounds := bounds }
    let a := (a.sortVariables g).addIndexFilters g t site
    let a := { a with covering := a.isCovering g t site, dedup := a.needsDedup }
    return some { a with score := a.computeScore w }

end Analysis

end ShardedQuery
