import ShardedQuery.Graph.Edit
import ShardedQuery.Plan.Registers
import ShardedQuery.Plan.Step

/-!
# From graphs to plans

The plan of a node is the step of the node over the plans of its children, slot by slot: the graph
is unfolded into a tree, and a shared node comes up once for each use. The walk keeps a list of
visits and a stack of finished plans. The variables that a node declares get their registers when
the node is entered, before its children, which mention them.
-/

namespace ShardedQuery

/-- A variable that the caller has to supply a value for. -/
structure ExternalVar where
  number : Nat
  name : String
  declared : SeqType
  deriving DecidableEq, Repr, Inhabited

/-- The result of a compilation. -/
structure CompiledQuery where
  plan : Plan
  resultType : SeqType
  numRegisters : Nat
  numSteps : Nat
  externals : List ExternalVar
  deriving Repr, Inhabited

namespace Expr

/-- How a block step orders its output. -/
def sortMode (b : Block) : SortMode :=
  if !b.hasSort then .unsorted else if b.sortByIndex then .byIndex else .explicit

/-- The shape of a range. -/
def rangeShape (r : FieldRange) : RangeShape :=
  { position := r.position
    hasStart := r.start.isSome
    startInclusive := r.startInclusive
    hasStop := r.stop.isSome
    stopInclusive := r.stopInclusive }

/-- The number of fields of a record. -/
def fieldCount : ItemType → Nat
  | .record fields => fields.length
  | _ => 0

/-- The number of fields of the tuples a node yields, if it yields tuples. -/
def tupleLength? : Expr → Option Nat
  | scan s => some (fieldCount s.rowType)
  | block b => if b.star then none else some b.select.length
  | _ => none

/-- What the step of a node computes, given the registers of the variables that the node
declares. -/
def stepKind (vars : List Nat) : Expr → StepKind
  | literal v => .literal v
  | var v =>
    match v.kind with
    | .external number declared => .external number v.name declared
    | _ => .varRef v.name
  | field _ name => .field name
  | slice _ low high _ => .slice vars low.isSome high.isSome
  | filter _ condition _ => .filter vars condition.isSome
  | mapFilter part _ condition _ => .mapFilter part vars condition.isSome
  | call f _ => .call f
  | case branches otherwise => .case branches.length otherwise.isSome
  | cast _ target => .cast target
  | promote _ target => .promote target
  | isOfType _ targets negated => .isOfType targets negated
  | array _ conditional => .array conditional
  | map _ => .map
  | scan s =>
    .scan s.table s.index s.keys.length (s.range.map rangeShape) s.filter.isSome s.covering s.dedup
      s.reverse
  | block b =>
    .block vars b.condition.isSome (b.select.map (·.name)) (sortMode b) (b.sort.map (·.spec))
      b.offset.isSome b.limit.isSome
  | receive r => .receive r.distribution r.sortPositions r.sortSpecs r.keyPositions

end Expr

namespace Graph

/-! ## Steps -/

/-- The register of a declared variable. -/
def varRegister (var : NodeId) : RegisterM Nat := do
  match (← get).get? var with
  | some reg => return reg
  | none => RegisterM.fail s!"variable {nodeText var} has no register"

/-- Hands out the registers of the variables that a node declares. -/
def openScope (g : Graph) (id : NodeId) : RegisterM Unit :=
  (g.expr id).declared.forM fun v => discard (Registers.alloc v)

/-- The tuple block of a node, empty if it yields no tuples. -/
def tupleBlock (g : Graph) (id : NodeId) : RegisterM (List Nat) :=
  match (g.expr id).tupleLength? with
  | some length => Registers.allocTuple id length
  | none => return []

/-- Makes the step of a node out of the plans of its children. -/
def makeStep (g : Graph) (id : NodeId) (inputs : List Plan) : RegisterM Plan := do
  let result ← Registers.alloc id
  let tuple ← g.tupleBlock id
  let vars ← (g.expr id).declared.mapM varRegister
  return .step id ((g.expr id).stepKind vars) inputs result tuple

/-! ## Walking the graph -/

/-- What is to be done about a node: it is entered before its children and left after them. -/
inductive Visit where
  | enter (id : NodeId)
  | leave (id : NodeId)
  deriving DecidableEq, Repr, Inhabited

/-- Takes the plans of `n` inputs of a node off a stack and puts them before those taken so far. The
last input is on top. -/
def takeInputs (id : NodeId) : Nat → List Plan → List Plan → RegisterM (List Plan × List Plan)
  | 0, stack, inputs => return (inputs, stack)
  | _ + 1, [], _ => RegisterM.fail s!"working stack underflow at node {nodeText id}"
  | n + 1, p :: stack, inputs => takeInputs id n stack (p :: inputs)

/-- Works through a list of visits with a stack of finished plans. A node that is left takes the
plans of its children off the stack and puts its own there. Nothing is left of a walk that takes
more than the given number of visits. -/
def visitAll (g : Graph) : Nat → List Visit → List Plan → RegisterM (List Plan)
  | _, [], stack => return stack
  | 0, _ :: _, _ => return []
  | n + 1, .enter id :: work, stack => do
    g.openScope id
    g.visitAll n ((g.children id).map .enter ++ .leave id :: work) stack
  | n + 1, .leave id :: work, stack => do
    let (inputs, stack) ← takeInputs id (g.children id).length stack []
    let plan ← g.makeStep id inputs
    g.visitAll n work (plan :: stack)

/-- A number of visits that no walk exceeds: without cycles, no way down is longer than there are
nodes, and each node is entered and left once for every way down to it. -/
def visitBound (g : Graph) : Nat := 2 * Nat.pow (g.slotCount + 1) (g.size + 1)

/-- The plan of a node. -/
def layOut (g : Graph) (id : NodeId) : RegisterM Plan := do
  match ← g.visitAll g.visitBound [.enter id] [] with
  | [] => RegisterM.fail "code generation produced no plan"
  | [plan] => return plan
  | _ :: rest => RegisterM.fail s!"{rest.length} steps left on the working stack"

/-- The external variables of a graph, in the order of their declaration. -/
def externalVars (g : Graph) : List ExternalVar :=
  g.externals.filterMap fun id =>
    match g.var? id with
    | some ⟨name, .external number declared, _⟩ => some ⟨number, name, declared⟩
    | _ => none

/-- The plan of the root. -/
def generate (g : Graph) : Except CompileError CompiledQuery :=
  match g.root with
  | none => CompileError.raise (.internal "expression graph has no root")
  | some root =>
    match (g.layOut root).run {} with
    | .error e _ => .error e
    | .ok plan registers =>
      .ok {
        plan := plan
        resultType := g.exprType root
        numRegisters := registers.size
        numSteps := plan.numSteps
        externals := g.externalVars }

end Graph

end ShardedQuery
