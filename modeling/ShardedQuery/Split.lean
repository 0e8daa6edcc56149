import ShardedQuery.Access.Selection
import ShardedQuery.Graph.Matching

/-!
# Splitting blocks at the receive boundary

Each block that scans a table gets a receive node above it, where the rows of all partitions or
shards meet. When rows come from more than one place and the block sorts, windows or removes
duplicates, it is split in two. The server part, below the boundary, returns the requested fields
and after them the sort keys and primary-key columns that the boundary needs. It returns the rows
up to the end of the window. The client part, above, selects the requested fields again and
applies the window.
-/

namespace ShardedQuery

/-- Where the rows of a scan come from. -/
def TableScan.distribution (s : TableScan) : Distribution :=
  if s.singlePartition then .singlePartition
  else if s.isPrimary then .allPartitions
  else .allShards

/-- The value of an integral constant. -/
def Expr.toInt? : Expr → Option Int
  | .literal v => v.toInt?
  | _ => none

namespace Graph

/-- The graph with one more column, known to the block. -/
def withColumn (g : Graph) (block rowVar : NodeId) (name : String) : Graph :=
  (g.addField rowVar name).2.link block g.size

/-- Adds one field step for each column, linked to the block that is to select it. -/
def addColumns (g : Graph) (block rowVar : NodeId) : List String → List SelectField × Graph
  | [] => ([], g)
  | name :: names =>
    let added := (g.withColumn block rowVar name).addColumns block rowVar names
    (⟨name, g.size⟩ :: added.1, added.2)

/-- Selects every column by name instead of the rows as they are. -/
def expandStar (g : Graph) (block rowVar : NodeId) : Graph :=
  if ((g.block? block).map (·.star)).getD false then
    match (g.exprType rowVar).item with
    | .record fields =>
      let (select, g) := g.addColumns block rowVar (fields.map (·.1))
      g.modifyBlock block fun b => { b with select := select, star := false }
    | _ => g
  else g

/-- The graph in which the block selects one more field, whose expression knows it. -/
def withField (g : Graph) (block : NodeId) (f : SelectField) : Graph :=
  (g.link block f.expr).modifyBlock block fun b => { b with select := b.select ++ [f] }

/-- The position of the select field that computes an expression; a field is added under the
given name if there is none. -/
def findOrAppend (g : Graph) (block expr : NodeId) (name : String) : Nat × Graph :=
  let select := ((g.block? block).map (·.select)).getD []
  match select.findIdx? fun f => g.alike f.expr expr with
  | some pos => (pos, g.destroyIfUnused expr)
  | none => (select.length, g.withField block ⟨name, expr⟩)

/-- The positions of the sort keys from the `k`-th on among the select fields. -/
def sortColumns (g : Graph) (block : NodeId) : Nat → List SortKey → List Nat × Graph
  | _, [] => ([], g)
  | k, key :: keys =>
    let (pos, g) := g.findOrAppend block key.expr s!"sort_gen{k}"
    let (rest, g) := g.sortColumns block (k + 1) keys
    (pos :: rest, g)

/-- The expression is a given field of the row variable. -/
def isColumn (g : Graph) (rowVar : NodeId) (name : String) (expr : NodeId) : Bool :=
  match g.expr expr with
  | .field input n => input == rowVar && n == name
  | _ => false

theorem isColumn_iff {g : Graph} {rowVar expr : NodeId} {name : String} :
    g.isColumn rowVar name expr ↔ g.expr expr = .field rowVar name := by
  unfold isColumn
  split <;> simp_all

/-- The positions of the key columns from the `k`-th on among the select fields. -/
def keyColumns (g : Graph) (block rowVar : NodeId) : Nat → List String → List Nat × Graph
  | _, [] => ([], g)
  | k, name :: names =>
    let select := ((g.block? block).map (·.select)).getD []
    let (pos, g) :=
      match select.findIdx? fun f => g.isColumn rowVar name f.expr with
      | some pos => (pos, g)
      | none =>
        let (expr, g) := g.addField rowVar name
        g.findOrAppend block expr s!"pk_gen{k}"
    let (rest, g) := g.keyColumns block rowVar (k + 1) names
    (pos :: rest, g)

def constantInt? (g : Graph) (id : NodeId) : Option Int := (g.expr id).toInt?

/-- The number of rows up to the end of a window: a constant if both parts are constants and the
sum fits in 64 bits, else a sum to be computed. -/
def windowEnd (g : Graph) (offset limit : NodeId) : Expr :=
  match g.constantInt? offset, g.constantInt? limit with
  | some o, some l =>
    if Int64.minValue.toInt ≤ o + l ∧ o + l ≤ Int64.maxValue.toInt then
      .literal (.long (Int64.ofInt (o + l)))
    else .call .add [offset, limit]
  | _, _ => .call .add [offset, limit]

/-- The graph in which a block has no window and is not linked to the old one. -/
def withoutWindow (g : Graph) (block : NodeId) (offset limit : Option NodeId) : Graph :=
  (offset.toList ++ limit.toList).foldl (fun g e => g.unlink block e)
    (g.modifyBlock block fun b => { b with offset := none, limit := none })

/-- The graph in which a block without a window returns the rows up to a given number. -/
def withLimit (g : Graph) (block : NodeId) (limit : Option NodeId) : Graph :=
  (limit.toList.foldl (fun g e => g.link block e) g).modifyBlock block fun b =>
    { b with limit := limit }

/-- Takes the window off a block and leaves it the rows up to the end of the window. -/
def limitServer (g : Graph) (block : NodeId) (offset limit : Option NodeId) : Graph :=
  let g := g.withoutWindow block offset limit
  match offset, limit with
  | some o, some l => (g.add (g.windowEnd o l)).2.withLimit block (some g.size)
  | _, limit => g.withLimit block limit

/-- Adds one field step for each name. -/
def addFields (g : Graph) (input : NodeId) : List String → List SelectField × Graph
  | [] => ([], g)
  | name :: names =>
    let (expr, g) := g.addField input name
    let (rest, g) := g.addFields input names
    (⟨name, expr⟩ :: rest, g)

/-- The graph with the variable of the client part and the fields it selects. -/
def clientFields (g : Graph) (requested : List String) : List SelectField × Graph :=
  (g.addVar "$from" .row).2.addFields g.size requested

/-- The client part over its input: it selects the requested fields and applies the window. -/
def clientBlock (g : Graph) (requested : List String) (offset limit : Option NodeId)
    (input : NodeId) : Block :=
  { entries := [⟨input, g.size⟩]
    select := (g.clientFields requested).1
    offset := offset
    limit := limit }

/-- Puts the client part above the boundary. -/
def addClient (g : Graph) (boundary : NodeId) (requested : List String)
    (offset limit : Option NodeId) : NodeId × Graph :=
  let (client, h) := (g.clientFields requested).2.insertAbove boundary fun input =>
    .block (g.clientBlock requested offset limit input)
  (client, h.declare g.size client)

/-- What the boundary and the client part have to know about the server part. -/
structure ServerPart where
  /-- The names of the requested fields. -/
  requested : List String
  sortPositions : List Nat
  keyPositions : List Nat
  graph : Graph

/-- Turns a block into the server part. -/
def serverPart (g : Graph) (block rowVar : NodeId) (b : Block) (dedup : Bool) (key : List String) :
    ServerPart :=
  let g := g.expandStar block rowVar
  let requested := ((g.block? block).map (·.select.map (·.name))).getD []
  let (sortPositions, g) := g.sortColumns block 0 b.sort
  let (keyPositions, g) := if dedup then g.keyColumns block rowVar 0 key else ([], g)
  ⟨requested, sortPositions, keyPositions, g.limitServer block b.offset b.limit⟩

/-- What the boundary knows about the server part. -/
def ServerPart.receive (p : ServerPart) (b : Block) (r : Receive) : Receive :=
  { r with
    sortPositions := p.sortPositions
    sortSpecs := b.sort.map (·.spec)
    keyPositions := p.keyPositions }

/-- The graph in which the boundary knows where its columns are. -/
def ServerPart.received (p : ServerPart) (boundary : NodeId) (b : Block) : Graph :=
  p.graph.modifyExpr boundary fun
    | .receive r => .receive (p.receive b r)
    | e => e

/-- Splits a block below its boundary into a server part and a client part. -/
def splitBlock (g : Graph) (block boundary rowVar : NodeId) (b : Block) (dedup : Bool)
    (key : List String) : Graph :=
  let p := g.serverPart block rowVar b dedup key
  let g := p.received boundary b
  let (client, h) := g.addClient boundary p.requested b.offset b.limit
  ((h.refresh block).refresh g.size).refresh client

end Graph

namespace Split

/-- Puts the boundary above a block that scans a table, and splits the block if need be. -/
def distribute (c : Catalog) (g : Graph) (block : NodeId) (s : TableScan) :
    Except CompileError Graph := do
  let t ← c.table s.table
  let (boundary, g) := g.insertAbove block fun input =>
    .receive { input := input, distribution := s.distribution }
  if s.distribution = .singlePartition then return g
  else
    match g.block? block with
    | none => return g
    | some b =>
      if b.hasSort || b.offset.isSome || b.limit.isSome || s.dedup then
        match b.firstVar? with
        | none => return g
        | some rowVar => return g.splitBlock block boundary rowVar b s.dedup t.primaryKey
      else return g

/-- Handles a block if its first FROM entry scans a table. -/
def splitOne (c : Catalog) (g : Graph) (block : NodeId) : Except CompileError Graph :=
  match (g.block? block).bind (·.firstDomain?) with
  | none => .ok g
  | some scan =>
    match g.scan? scan with
    | none => .ok g
    | some s => distribute c g block s

end Split

/-- Puts the receive boundary above every block that scans a table, inner blocks first. -/
def splitBlocks (c : Catalog) (g : Graph) : Graph × Except CompileError Unit :=
  editBlocks (Split.splitOne c) g.queryBlocks g

end ShardedQuery
