import ShardedQuery.Expr
import ShardedQuery.Value.Text

/-!
# Plans

A `Plan` is a tree of steps. Each step computes one node of the graph from the results of its
inputs and writes its result to a register. `StepKind` says what a step does and, by its flags and
counts, which role each input has.
-/

namespace ShardedQuery

/-- How a block step orders its output. -/
inductive SortMode where
  | unsorted
  /-- The scan delivers the order. -/
  | byIndex
  /-- The step sorts. -/
  | explicit
  deriving DecidableEq, Repr, Inhabited

/-- The shape of the key range of a scan; its ends are inputs of the step. -/
structure RangeShape where
  position : Nat
  hasStart : Bool
  startInclusive : Bool
  hasStop : Bool
  stopInclusive : Bool
  deriving DecidableEq, Repr, Inhabited

/-- What a step computes. -/
inductive StepKind where
  | literal (v : Value)
  /-- Reads the register of a FROM or context variable. -/
  | varRef (name : String)
  /-- Reads the value the caller supplied. -/
  | external (number : Nat) (name : String) (declared : SeqType)
  /-- Input: the record. -/
  | field (name : String)
  /-- Inputs: the array, then the bounds there are. -/
  | slice (context : List Nat) (hasLow hasHigh : Bool)
  /-- Inputs: the array, then the condition if there is one. -/
  | filter (context : List Nat) (hasCondition : Bool)
  /-- Inputs: the map, then the condition if there is one. -/
  | mapFilter (part : MapPart) (context : List Nat) (hasCondition : Bool)
  /-- Inputs: the arguments. -/
  | call (function : Function)
  /-- Inputs: conditions and results in turn, then the ELSE branch if there is one. -/
  | case (branches : Nat) (hasElse : Bool)
  | cast (target : SeqType)
  | promote (target : SeqType)
  | isOfType (targets : List SeqType) (negated : Bool)
  | array (conditional : Bool)
  /-- Inputs: keys and values in turn. -/
  | map
  /-- Inputs: equality keys, then the ends of the range, then the filter. -/
  | scan (table : String) (index : Option String) (keys : Nat) (range : Option RangeShape)
      (hasFilter covering dedup reverse : Bool)
  /-- Inputs: FROM domains, WHERE, select fields, sort keys, offset, limit. No columns means the
  items as they are. -/
  | block (vars : List Nat) (hasWhere : Bool) (columns : List String) (sort : SortMode)
      (sortSpecs : List SortSpec) (hasOffset hasLimit : Bool)
  /-- Input: the server part. -/
  | receive (distribution : Distribution) (sortPositions : List Nat)
      (sortSpecs : List SortSpec) (keyPositions : List Nat)
  deriving Repr, Inhabited

/-- A plan: a step with the plans of its inputs. -/
inductive Plan where
  /-- The step of a node writes to register `result`; a step that yields tuples also writes one
  register for each field. -/
  | step (node : NodeId) (kind : StepKind) (inputs : List Plan) (result : Nat) (tuple : List Nat)
  deriving Repr, Inhabited

namespace Plan

def node : Plan → NodeId
  | step n _ _ _ _ => n

def kind : Plan → StepKind
  | step _ k _ _ _ => k

def inputs : Plan → List Plan
  | step _ _ is _ _ => is

def result : Plan → Nat
  | step _ _ _ r _ => r

def tuple : Plan → List Nat
  | step _ _ _ _ rs => rs

mutual

/-- The number of steps. -/
def numSteps : Plan → Nat
  | step _ _ inputs _ _ => 1 + numStepsAll inputs

/-- The number of steps of a list of plans. -/
def numStepsAll : List Plan → Nat
  | [] => 0
  | p :: ps => p.numSteps + numStepsAll ps

end

mutual

/-- All steps, each before its inputs. -/
def steps : Plan → List (NodeId × StepKind)
  | step n k inputs _ _ => (n, k) :: stepsAll inputs

/-- All steps of a list of plans, one plan after the other. -/
def stepsAll : List Plan → List (NodeId × StepKind)
  | [] => []
  | p :: ps => p.steps ++ stepsAll ps

end

end Plan

/-! ## Text -/

/-- A list of numbers, as in `[0, 2]`. -/
def numbersText (ns : List Nat) : String :=
  "[" ++ ", ".intercalate (ns.map fun (n : Nat) => toString n) ++ "]"

/-- A range, as in ` range@1[x,y)`: a bracket includes the end, a dash stands for an open end. -/
def RangeShape.text (r : RangeShape) : String :=
  let start := if !r.hasStart then "(-" else if r.startInclusive then "[x" else "(x"
  let stop := if !r.hasStop then ",-)" else if r.stopInclusive then ",y]" else ",y)"
  " range@" ++ toString r.position ++ start ++ stop

/-- The text if the flag is set. -/
def flagText (flag : Bool) (text : String) : String := if flag then text else ""

def SortMode.text : SortMode → String
  | unsorted => ""
  | byIndex => " sort=index"
  | explicit => " sort=explicit"

/-- The text of a step without its registers and inputs. -/
def StepKind.text : StepKind → String
  | literal v => "CONST " ++ v.text
  | varRef name => "VAR " ++ name
  | external number name declared => s!"EXTERNAL #{number} {name} {declared.text}"
  | field name => "FIELD " ++ name
  | slice _ _ _ => "SLICE"
  | filter _ _ => "ARRAY_FILTER"
  | mapFilter .keys _ _ => "KEYS"
  | mapFilter .values _ _ => "VALUES"
  | call f => "FUNC " ++ f.name
  | case _ _ => "CASE"
  | cast t => "CAST " ++ t.text
  | promote t => "PROMOTE " ++ t.text
  | isOfType _ negated => if negated then "IS NOT OF" else "IS OF"
  | array _ => "ARRAY"
  | map => "MAP"
  | scan table index keys range hasFilter covering dedup reverse =>
    "SCAN " ++ table ++ " via " ++ index.getD "primary"
      ++ flagText (0 < keys) (" eq=" ++ toString keys)
      ++ (range.map (·.text)).getD ""
      ++ flagText hasFilter " filter" ++ flagText covering " covering"
      ++ flagText dedup " dedup" ++ flagText reverse " reverse"
  | block _ _ columns sort _ hasOffset hasLimit =>
    "SFW" ++ (if columns.isEmpty then " *" else " [" ++ ", ".intercalate columns ++ "]")
      ++ sort.text ++ flagText hasOffset " offset" ++ flagText hasLimit " limit"
  | receive distribution sortPositions _ keyPositions =>
    "RECEIVE " ++ distribution.text
      ++ flagText (!sortPositions.isEmpty) (" merge=" ++ numbersText sortPositions)
      ++ flagText (!keyPositions.isEmpty) (" dedup=" ++ numbersText keyPositions)

namespace Plan

mutual

/-- The lines of a plan, the inputs of a step indented below it. -/
def textAt (depth : Nat) : Plan → String
  | step _ kind inputs result tuple =>
    String.ofList (List.replicate (2 * depth) ' ') ++ kind.text ++ " -> $" ++ toString result
      ++ flagText (!tuple.isEmpty) (" " ++ numbersText tuple) ++ "\n"
      ++ textAllAt (depth + 1) inputs

/-- The lines of a list of plans. -/
def textAllAt (depth : Nat) : List Plan → String
  | [] => ""
  | p :: ps => p.textAt depth ++ textAllAt depth ps

end

/-- The text of a plan, one line for each step. -/
def text (p : Plan) : String := p.textAt 0

end Plan

end ShardedQuery
