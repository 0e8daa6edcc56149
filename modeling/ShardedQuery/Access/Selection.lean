import ShardedQuery.Access.Apply
import ShardedQuery.BlockDraft

/-!
# Choosing how a block scans its table

`Selection.decide` picks an access path for a block. In this order:

* a complete primary key wins, and no sort is needed;
* a forced index is taken; it is an error if it cannot deliver the requested order and another
  index can;
* a complete shard key selects the primary index;
* an index in the requested order delivers it;
* otherwise the best analysis by `Analysis.cmp` wins.

`selectIndexes` decides for each block and changes the graph accordingly.
-/

namespace ShardedQuery

/-! ## Incomparable operands -/

/-- The types of the operands of a comparison, the path first, if they are a path of the row and
an operand that does not depend on the row. -/
def operandTypes? (g : Graph) (rowVar left right : NodeId) : Option (ItemType × ItemType) :=
  if g.isRowIndependent right && (g.queryPath? rowVar left).isSome then
    some ((g.exprType left).item, (g.exprType right).item)
  else none

/-- The operand types of a conjunct that compares items that are never comparable. -/
def mismatch? (g : Graph) (rowVar conjunct : NodeId) : Option (ItemType × ItemType) :=
  match g.expr conjunct with
  | .call (.compare _ _) [a, b] =>
    match (operandTypes? g rowVar a b).or (operandTypes? g rowVar b a) with
    | some (left, right) => if left.comparable right then none else some (left, right)
    | none => none
  | _ => none

/-- Some conjunct compares items that are never comparable. This is an error in strict mode. -/
def hasMismatch (g : Graph) (site : Site) (strict : Bool) : Except CompileError Bool :=
  let found := (g.conjuncts site.block).findSome? fun c =>
    (mismatch? g site.rowVar c).map fun types => (c, types)
  match found with
  | none => .ok false
  | some (c, left, right) =>
    if strict then
      locateFailure (g.location c)
        (CompileError.raise (.incomparableTypes left.text right.text))
    else .ok true

/-! ## Order -/

/-- Sort keys from position `pos` on are the index fields from there on, in one direction and with
nulls where the index has them. -/
def keysFollow (g : Graph) (path : AccessPath) (rowVar : NodeId) (desc : Bool) :
    Nat → List SortKey → Bool
  | _, [] => true
  | pos, k :: ks =>
    k.spec.desc == desc && k.spec.hasNaturalNulls && path.position? g rowVar k.expr == some pos
      && keysFollow g path rowVar desc (pos + 1) ks

/-- A scan through the access path delivers the requested order: forwards, or backwards if the
result is true. -/
def deliversOrder? (g : Graph) (site : Site) (path : AccessPath) : Option Bool := do
  let b ← g.block? site.block
  let first ← b.sort.head?
  if !path.isMultiKey && keysFollow g path site.rowVar first.spec.desc 0 b.sort then
    return first.spec.desc
  else none

/-! ## The best analysis -/

/-- Lexicographic order of the ranks that decide between equal scores: a full scan goes through
the primary index, then hints count, then indexes without fan-out, then indexes with few
fields. -/
def Analysis.tieBreak (a b : Analysis) (hintedA hintedB : Bool) : Ordering :=
  let full (x : Analysis) : Bool := x.path.isPrimary && x.score == 0
  (compare (full a) (full b)).then <|
  (compare hintedA hintedB).then <|
  (compare (!a.path.isMultiKey) (!b.path.isMultiKey)).then <|
  compare b.path.fields.length a.path.fields.length

/-- How good an analysis is compared to another; `preferred` tells which access paths a hint
prefers. A complete key comes first. A covering index wins over one that is not, unless a hint
says otherwise or it bounds the scan less. Then the score counts. -/
def Analysis.cmp (preferred : AccessPath → Bool) (a b : Analysis) : Ordering :=
  if a.isCompleteKey != b.isCompleteKey then compare a.isCompleteKey b.isCompleteKey
  else
    let (hintedA, hintedB) := (preferred a.path, preferred b.path)
    if a.covering != b.covering then
      if hintedA != hintedB then compare hintedA hintedB
      else if a.covering then (if b.bounds.count ≤ a.bounds.count then .gt else .lt)
      else (if a.bounds.count ≤ b.bounds.count then .lt else .gt)
    else if a.score != b.score then compare a.score b.score
    else a.tieBreak b hintedA hintedB

/-- The first of the best analyses. -/
def Analysis.best (preferred : AccessPath → Bool) (first : Analysis) (rest : List Analysis) :
    Analysis :=
  rest.foldl (fun best a => if a.cmp preferred best = .gt then a else best) first

/-! ## Deciding -/

/-- What becomes of the ORDER BY clause of a block. -/
inductive SortUse where
  | keep
  /-- At most one row is left: no sort is needed. -/
  | drop
  /-- The scan delivers the order, backwards if `reverse`. -/
  | byIndex (reverse : Bool)
  deriving DecidableEq, Repr, Inhabited

/-- What to do with a block. -/
inductive Selection where
  /-- The block scans no table. -/
  | leave
  /-- The block selects nothing. -/
  | empty
  /-- The scan goes through the analysed access path. -/
  | access (table : Table) (site : Site) (scan : NodeId) (analysis : Analysis) (sort : SortUse)
  deriving Repr, Inhabited

namespace Selection

/-- A hint names an access path. -/
def hintNames (h : Hint) (p : AccessPath) : Bool := h.target.indexName? == p.name?

/-- Scans through one access path, unless the WHERE clause contradicts itself. -/
def through (g : Graph) (t : Table) (o : Options) (site : Site) (scan : NodeId)
    (path : AccessPath) (sort : SortUse) : Except CompileError Selection := do
  match ← Analysis.run g t o.weights site path with
  | none => return .empty
  | some a => return .access t site scan a sort

/-- Analyses access paths in turn, up to the first contradiction. -/
def analyseAll (g : Graph) (t : Table) (o : Options) (site : Site) :
    List AccessPath → Except CompileError (Option (List Analysis))
  | [] => .ok (some [])
  | p :: ps => do
    match ← Analysis.run g t o.weights site p with
    | none => return none
    | some a => return (← analyseAll g t o site ps).map (a :: ·)

/-- Decides about a block that scans a table, given the analysis of the primary index and the first
access path that delivers the requested order. -/
def decideAccess (g : Graph) (t : Table) (o : Options) (site : Site) (scan : NodeId)
    (hints : List Hint) (primary : Analysis) (ordered : Option (AccessPath × Bool)) :
    Except CompileError Selection :=
  if primary.isCompleteKey then .ok (.access t site scan primary .drop)
  else
    match hints.find? (·.isForce) with
    | some forced =>
      let path := AccessPath.ofIndex t (forced.target.indexName?.bind t.index?)
      match deliversOrder? g site path, ordered with
      | none, some (other, _) =>
        locateFailure (g.location scan)
          (CompileError.raise (.forcedIndexConflict path.label other.label))
      | none, none => through g t o site scan path .keep
      | some reverse, _ => through g t o site scan path (.byIndex reverse)
    | none =>
      if primary.isCompleteShardKey t then
        match ordered with
        | some (path, reverse) =>
          .ok (.access t site scan primary (if path.isPrimary then .byIndex reverse else .keep))
        | none => .ok (.access t site scan primary .keep)
      else
        match ordered with
        | some (path, reverse) => through g t o site scan path (.byIndex reverse)
        | none => do
          match ← analyseAll g t o site (t.indexes.map AccessPath.secondary) with
          | none => return .empty
          | some others =>
            let preferred (p : AccessPath) : Bool :=
              hints.any fun h => !h.isForce && hintNames h p
            return .access t site scan (Analysis.best preferred primary others) .keep

/-- Decides how a block scans its table. -/
def decide (g : Graph) (c : Catalog) (o : Options) (block : NodeId) :
    Except CompileError Selection :=
  match (g.block? block).bind (·.entries.head?) with
  | none => .ok .leave
  | some entry =>
    match g.scan? entry.domain with
    | none => .ok .leave
    | some s => do
      let site : Site := ⟨block, entry.var⟩
      let place := g.location entry.domain
      let t ← locateFailure place (c.table s.table)
      locateFailure place (checkHints t s.hints)
      if ← hasMismatch g site o.strict then return .empty
      else
        let ordered := (AccessPath.all t).findSome? fun p =>
          (deliversOrder? g site p).map fun reverse => (p, reverse)
        match ← Analysis.run g t o.weights site (.primary t) with
        | none => return .empty
        | some primary => decideAccess g t o site entry.domain s.hints primary ordered

/-! ## Carrying out -/

/-- Puts the empty sequence in the place of a block. -/
def makeEmpty (g : Graph) (block : NodeId) : Graph :=
  let (id, g) := g.addLiteral .empty
  g.replace block id true

/-- Removes the sort keys of a block. -/
def dropSort (g : Graph) (block : NodeId) : Graph :=
  let keys := ((g.block? block).map (·.sort)).getD []
  let g := g.modifyBlock block fun b => { b with sort := [], sortByIndex := false }
  keys.foldl (fun g k => (g.unlink block k.expr).destroyIfUnused k.expr) g

/-- Lets the scan deliver the order of a block. -/
def sortByIndex (g : Graph) (block scan : NodeId) (reverse : Bool) : Graph :=
  let g := g.modifyBlock block fun b => { b with sortByIndex := true }
  g.modifyScan scan fun s => { s with reverse := reverse }

/-- Makes the scan of a block go through an access path and settles the order of the block. -/
def useInPlace (t : Table) (site : Site) (scan : NodeId) (a : Analysis) (sort : SortUse) :
    Work Unit := do
  a.applyInPlace t site
  match sort with
  | .keep => pure ()
  | .drop => Work.change (dropSort · site.block)
  | .byIndex reverse => Work.change (sortByIndex · site.block scan reverse)

/-- Decides about one block and changes the graph. -/
def select (c : Catalog) (o : Options) (g : Graph) (block : NodeId) :
    Except CompileError Graph := do
  match ← decide g c o block with
  | leave => return g
  | empty => return makeEmpty g block
  | access t site scan a sort => (useInPlace t site scan a sort).outcome g

/-- What becomes of the graph when a decision about a block is carried out. -/
def carryOut (g : Graph) (block : NodeId) : Selection → Graph
  | leave => g
  | empty => makeEmpty g block
  | access t site scan a sort =>
    let g := a.apply g t site scan
    match sort with
    | .keep => g
    | .drop => dropSort g block
    | .byIndex reverse => sortByIndex g block scan reverse

end Selection

/-- Handles blocks in turn, those that are still alive. The first failure ends it, and the graph
stays as the blocks before left it. -/
def editBlocks (edit : Graph → NodeId → Except CompileError Graph) :
    List NodeId → Graph → Graph × Except CompileError Unit
  | [], g => (g, .ok ())
  | b :: bs, g =>
    if g.isLive b then
      match edit g b with
      | .ok g => editBlocks edit bs g
      | .error e => (g, .error e)
    else editBlocks edit bs g

/-- Chooses how each block scans its table, inner blocks first. -/
def selectIndexes (c : Catalog) (o : Options) (g : Graph) : Graph × Except CompileError Unit :=
  editBlocks (Selection.select c o) g.queryBlocks g

end ShardedQuery
