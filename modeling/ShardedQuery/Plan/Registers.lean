import ShardedQuery.Expr

/-!
# Registers of a plan

Each node that a plan computes has a result register, and a node that yields tuples also has a
block of registers, one for each field. Registers are numbered in the order in which they are
handed out. A register gets its owner right after it was handed out and keeps it.
-/

namespace ShardedQuery

/-- The registers handed out so far. -/
structure Registers where
  /-- The node each register belongs to, once it has an owner. -/
  owners : Array (Option NodeId) := #[]
  /-- The result register of each node that has one. -/
  results : List (NodeId × Nat) := []
  /-- The tuple block of each node that has one. -/
  tuples : List (NodeId × List Nat) := []
  deriving DecidableEq, Repr, Inhabited

/-- A computation that hands out registers. What it did before a failure stays done. -/
abbrev RegisterM := EStateM CompileError Registers

/-- Fails for a reason that a query cannot be blamed for. -/
def RegisterM.fail {α : Type} (message : String) : RegisterM α :=
  throw { cause := .internal message }

namespace Registers

/-- The number of registers handed out. -/
def size (r : Registers) : Nat := r.owners.size

def get? (r : Registers) (id : NodeId) : Option Nat := r.results.lookup id

def tuple? (r : Registers) (id : NodeId) : Option (List Nat) := r.tuples.lookup id

/-- Hands out a register that belongs to no node yet. -/
def fresh : RegisterM Nat :=
  modifyGet fun r => (r.size, { r with owners := r.owners.push none })

/-- Names the result register of a node. A node keeps its register, and a register its owner. -/
def assign (id : NodeId) (reg : Nat) : RegisterM Unit := do
  let r ← get
  match r.get? id with
  | some old =>
    if old = reg then return ()
    else RegisterM.fail s!"register reassignment for node {nodeText id}: ${old} -> ${reg}"
  | none =>
    match r.owners[reg]? with
    | none =>
      RegisterM.fail s!"register ${reg} assigned to node {nodeText id} was never allocated"
    | some (some owner) =>
      RegisterM.fail s!"register ${reg} of node {nodeText owner} assigned to node {nodeText id}"
    | some none =>
      set { r with
        owners := r.owners.setIfInBounds reg (some id)
        results := (id, reg) :: r.results }

/-- The result register of a node; it gets one if it has none. -/
def alloc (id : NodeId) : RegisterM Nat := do
  match (← get).get? id with
  | some reg => return reg
  | none =>
    let reg ← fresh
    assign id reg
    return reg

/-- Hands out registers one after the other. -/
def freshBlock : Nat → RegisterM (List Nat)
  | 0 => return []
  | n + 1 => do
    let reg ← fresh
    let rest ← freshBlock n
    return reg :: rest

/-- Gives a node the registers of its tuple block. -/
def ownBlock (r : Registers) (id : NodeId) (block : List Nat) : Registers :=
  { r with
    owners := block.foldl (fun owners reg => owners.setIfInBounds reg (some id)) r.owners
    tuples := (id, block) :: r.tuples }

/-- The tuple block of a node; it gets one if it has none. A node keeps the length of its block. -/
def allocTuple (id : NodeId) (length : Nat) : RegisterM (List Nat) := do
  match (← get).tuple? id with
  | some block =>
    if block.length = length then return block
    else
      RegisterM.fail
        s!"tuple register reassignment for node {nodeText id}: {block.length} -> {length} registers"
  | none =>
    let block ← freshBlock length
    modify fun r => r.ownBlock id block
    return block

end Registers

end ShardedQuery
