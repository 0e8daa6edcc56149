import ShardedQuery.Error
import ShardedQuery.Function
import ShardedQuery.Value

/-!
# Expression nodes

An `Expr` is one node of an expression graph: its kind, its own data, and the ids of the nodes it
uses. `Expr.children` lists the used nodes slot by slot, in the order in which they are
evaluated; a node used twice stands there twice. `Expr.mapChildren` changes the slots and nothing
else, and `children_mapChildren` says how the two go together.

Variables that a block or a path step declares are not children of it: they are children of the
expressions that mention them.
-/

namespace ShardedQuery

/-- The id of a node: its place in the graph. -/
abbrev NodeId := Nat

/-- The text of a node id. -/
def nodeText (id : NodeId) : String := s!"#{id}"

/-! ## Variables -/

/-- What a variable stands for. -/
inductive VarKind where
  /-- An item of the domain of a FROM entry. -/
  | row
  /-- The input item of a path step. -/
  | item
  /-- The current element of an array filter, or the current value of a map filter. -/
  | element
  /-- The current key of a map filter. -/
  | key
  /-- The position of the current element. -/
  | position
  /-- A value that the caller supplies when the query runs. -/
  | external (number : Nat) (declared : SeqType)
  deriving DecidableEq, Repr, Inhabited

/-- Bound by a path step. -/
def VarKind.isContext : VarKind → Bool
  | item | element | key | position => true
  | _ => false

def VarKind.isExternal : VarKind → Bool
  | external _ _ => true
  | _ => false

/-- A variable. Each expression that mentions it has it as a child. -/
structure Variable where
  name : String
  kind : VarKind
  /-- The block or path step that declares it. -/
  decl : Option NodeId := none
  deriving DecidableEq, Repr, Inhabited

/-! ## Query blocks -/

/-- A FROM entry: a variable and the domain it ranges over. -/
structure FromEntry where
  domain : NodeId
  var : NodeId
  deriving DecidableEq, Repr, Inhabited

/-- A named entry of a select list. -/
structure SelectField where
  name : String
  expr : NodeId
  deriving DecidableEq, Repr, Inhabited

/-- The direction of a sort key and the place of the nulls. -/
structure SortSpec where
  desc : Bool
  nullsFirst : Bool
  deriving DecidableEq, Repr, Inhabited

namespace SortSpec

def asc : SortSpec := ⟨false, false⟩

def descending : SortSpec := ⟨true, true⟩

/-- Nulls stand where an index scan in this direction has them: last going up, first going
down. -/
def hasNaturalNulls (s : SortSpec) : Bool := s.desc == s.nullsFirst

def text (s : SortSpec) : String :=
  (if s.desc then "DESC" else "ASC") ++ " NULLS " ++ (if s.nullsFirst then "FIRST" else "LAST")

end SortSpec

/-- A key of an ORDER BY clause. -/
structure SortKey where
  expr : NodeId
  spec : SortSpec
  deriving DecidableEq, Repr, Inhabited

/-- A select-from-where block. -/
structure Block where
  entries : List FromEntry := []
  /-- The WHERE clause. -/
  condition : Option NodeId := none
  select : List SelectField := []
  /-- The block returns the items of its first variable as they are. -/
  star : Bool := false
  sort : List SortKey := []
  /-- The scan delivers the rows in the order of `sort`. -/
  sortByIndex : Bool := false
  offset : Option NodeId := none
  limit : Option NodeId := none
  deriving DecidableEq, Repr, Inhabited

namespace Block

def firstDomain? (b : Block) : Option NodeId := b.entries.head?.map (·.domain)

def firstVar? (b : Block) : Option NodeId := b.entries.head?.map (·.var)

def hasSort (b : Block) : Bool := !b.sort.isEmpty

/-- The block with other nodes in its slots. -/
def mapSlots (f : NodeId → NodeId) (b : Block) : Block :=
  { b with
    entries := b.entries.map fun e => { e with domain := f e.domain }
    condition := b.condition.map f
    select := b.select.map fun s => { s with expr := f s.expr }
    sort := b.sort.map fun k => { k with expr := f k.expr }
    offset := b.offset.map f
    limit := b.limit.map f }

end Block

/-! ## Table scans -/

/-- What a hint asks about: the primary index, or a secondary index by name. -/
inductive HintTarget where
  | primary
  | index (name : String)
  deriving DecidableEq, Repr, Inhabited

namespace HintTarget

def indexName? : HintTarget → Option String
  | primary => none
  | index name => some name

def text : HintTarget → String
  | primary => "primary"
  | index name => name

end HintTarget

/-- A hint on how to scan a table. -/
inductive Hint where
  | prefer (target : HintTarget)
  | force (target : HintTarget)
  deriving DecidableEq, Repr, Inhabited

namespace Hint

def target : Hint → HintTarget
  | prefer t | force t => t

def isForce : Hint → Bool
  | force _ => true
  | _ => false

def text : Hint → String
  | prefer .primary => "PREFER_PRIMARY_INDEX"
  | prefer (.index name) => s!"PREFER_INDEXES({name})"
  | force .primary => "FORCE_PRIMARY_INDEX"
  | force (.index name) => s!"FORCE_INDEX({name})"

end Hint

/-- A range of keys on one index field; a missing end is open. -/
structure FieldRange where
  position : Nat
  start : Option NodeId
  startInclusive : Bool
  stop : Option NodeId
  stopInclusive : Bool
  deriving DecidableEq, Repr, Inhabited

/-- The ends of a range, as far as there are any. -/
def FieldRange.ends (r : FieldRange) : List NodeId := r.start.toList ++ r.stop.toList

/-- A scan of a table through one of its indexes. -/
structure TableScan where
  table : String
  /-- The secondary index the scan goes through; without one, it goes through the primary index. -/
  index : Option String := none
  /-- Equality keys, one for each leading index field. -/
  keys : List NodeId := []
  range : Option FieldRange := none
  /-- A condition on index entries, checked before rows are fetched. -/
  filter : Option NodeId := none
  /-- The index entries hold all that the block needs. -/
  covering : Bool := false
  /-- One row may come up more than once. -/
  dedup : Bool := false
  /-- The index is scanned backwards. -/
  reverse : Bool := false
  /-- The equality keys fix the shard key. -/
  singlePartition : Bool := false
  hints : List Hint := []
  rowType : ItemType
  deriving DecidableEq, Repr, Inhabited

def TableScan.isPrimary (s : TableScan) : Bool := s.index.isNone

/-! ## The receive boundary -/

/-- Where the rows that cross the boundary come from. -/
inductive Distribution where
  /-- From one partition. -/
  | singlePartition
  /-- From every partition, through the primary index. -/
  | allPartitions
  /-- From every shard, through a secondary index. -/
  | allShards
  deriving DecidableEq, Repr, Inhabited

def Distribution.text : Distribution → String
  | singlePartition => "SINGLE_PARTITION"
  | allPartitions => "ALL_PARTITIONS"
  | allShards => "ALL_SHARDS"

/-- The boundary between evaluation on the shards and evaluation at the client. -/
structure Receive where
  input : NodeId
  distribution : Distribution
  /-- Places of the sort columns in the records that cross. -/
  sortPositions : List Nat := []
  sortSpecs : List SortSpec := []
  /-- Places of the primary-key columns, when duplicates have to go. -/
  keyPositions : List Nat := []
  deriving DecidableEq, Repr, Inhabited

/-! ## Nodes -/

/-- The part of a map a step selects. -/
inductive MapPart where
  | keys
  | values
  deriving DecidableEq, Repr, Inhabited

/-- One node of an expression graph. -/
inductive Expr where
  | block (b : Block)
  | scan (s : TableScan)
  | var (v : Variable)
  /-- `input.name` -/
  | field (input : NodeId) (name : String)
  /-- `input[low:high]` -/
  | slice (input : NodeId) (low high : Option NodeId) (context : List NodeId)
  /-- `input[condition]`; without a condition, all elements. -/
  | filter (input : NodeId) (condition : Option NodeId) (context : List NodeId)
  /-- `input.keys(condition)` or `input.values(condition)` -/
  | mapFilter (part : MapPart) (input : NodeId) (condition : Option NodeId)
      (context : List NodeId)
  | call (function : Function) (args : List NodeId)
  /-- A constant; the empty value is the empty sequence. -/
  | literal (v : Value)
  | case (branches : List (NodeId × NodeId)) (otherwise : Option NodeId)
  | cast (input : NodeId) (target : SeqType)
  | isOfType (input : NodeId) (targets : List SeqType) (negated : Bool)
  | promote (input : NodeId) (target : SeqType)
  | receive (r : Receive)
  | array (args : List NodeId) (conditional : Bool)
  /-- Keys and values in turn. -/
  | map (args : List NodeId)
  deriving Repr, Inhabited

namespace Expr

/-- The nodes a node uses, slot by slot, in the order of evaluation. -/
def children : Expr → List NodeId
  | block b =>
    b.entries.map (·.domain) ++ b.condition.toList ++ b.select.map (·.expr)
      ++ b.sort.map (·.expr) ++ b.offset.toList ++ b.limit.toList
  | scan s => s.keys ++ (s.range.map (·.ends)).getD [] ++ s.filter.toList
  | var _ | literal _ => []
  | field input _ | cast input _ | isOfType input _ _ | promote input _ => [input]
  | slice input low high _ => input :: (low.toList ++ high.toList)
  | filter input condition _ | mapFilter _ input condition _ => input :: condition.toList
  | call _ args | array args _ | map args => args
  | case branches otherwise => branches.flatMap (fun (w, t) => [w, t]) ++ otherwise.toList
  | receive r => [r.input]

/-- Changes each slot by `f`. -/
def mapChildren (f : NodeId → NodeId) : Expr → Expr
  | block b => block (b.mapSlots f)
  | scan s =>
    scan { s with
      keys := s.keys.map f
      range := s.range.map fun r => { r with start := r.start.map f, stop := r.stop.map f }
      filter := s.filter.map f }
  | var v => var v
  | literal v => literal v
  | field input name => field (f input) name
  | cast input t => cast (f input) t
  | isOfType input ts n => isOfType (f input) ts n
  | promote input t => promote (f input) t
  | slice input low high ctx => slice (f input) (low.map f) (high.map f) ctx
  | filter input condition ctx => filter (f input) (condition.map f) ctx
  | mapFilter part input condition ctx => mapFilter part (f input) (condition.map f) ctx
  | call function args => call function (args.map f)
  | case branches otherwise =>
    case (branches.map fun (w, t) => (f w, f t)) (otherwise.map f)
  | receive r => receive { r with input := f r.input }
  | array args c => array (args.map f) c
  | map args => map (args.map f)

theorem children_mapChildren (f : NodeId → NodeId) (e : Expr) :
    (e.mapChildren f).children = e.children.map f := by
  cases e with
  | block b => simp [mapChildren, Block.mapSlots, children, Option.toList_map, Function.comp_def]
  | scan s => cases h : s.range <;>
      simp [mapChildren, children, FieldRange.ends, h, Option.toList_map]
  | case branches otherwise =>
    simp [mapChildren, children, Option.toList_map, List.map_flatMap, List.flatMap_map]
  | _ => simp [mapChildren, children, Option.toList_map]

/-- The context variables a path step declares. -/
def context : Expr → List NodeId
  | slice _ _ _ ctx | filter _ _ ctx | mapFilter _ _ _ ctx => ctx
  | _ => []

/-- The variables a node declares: those of the FROM entries of a block, or the context variables
of a path step. -/
def declared : Expr → List NodeId
  | block b => b.entries.map (·.var)
  | e => e.context

/-- The input whose items a path step with context variables runs over. -/
def stepInput? : Expr → Option NodeId
  | slice input _ _ _ | filter input _ _ | mapFilter _ input _ _ => some input
  | _ => none

def isVar : Expr → Bool
  | var _ => true
  | _ => false

def isBlock : Expr → Bool
  | block _ => true
  | _ => false

def isScan : Expr → Bool
  | scan _ => true
  | _ => false

end Expr

end ShardedQuery
