import ShardedQuery.Error

/-!
# Index paths

An index is declared over paths into the table row. A path is a list of steps: a field of a record
or an entry of a map, all elements of an array, all keys or all values of a map. A path that goes
through any step but a field fans out: one row then has many index entries.

The text of a path is a dotted list, as in `phones[].kind` and `props.keys()`. `IndexPath.parse`
reads it and `IndexPath.text` writes it.
-/

namespace ShardedQuery

/-- One step of an index path. -/
inductive PathStep where
  /-- A field of a record, or the entry of a map under that key. -/
  | field (name : String)
  /-- All elements of an array. -/
  | elements
  /-- All keys of a map. -/
  | keys
  /-- All values of a map. -/
  | values
  deriving DecidableEq, Repr, Inhabited

/-- The step leads to many items at once. -/
def PathStep.fansOut : PathStep → Bool
  | field _ => false
  | _ => true

/-- A path from the table row to the items an index holds. -/
structure IndexPath where
  steps : List PathStep
  deriving DecidableEq, Repr, Inhabited

namespace IndexPath

/-! ## Reading -/

/-- Characters a field name in a path is made of. -/
def isNameChar (c : Char) : Bool := c.isAlphanum || c == '_'

/-- Takes bracket pairs off the end of a reversed token and counts them. -/
def dropBrackets : List Char → Nat × List Char
  | ']' :: '[' :: rest =>
    let (n, name) := dropBrackets rest
    (n + 1, name)
  | name => (0, name)

/-- The steps one token of a path stands for: a field name with bracket pairs behind it, or one
of the words for the parts of a map. -/
def stepsOfToken? (token : String) : Option (List PathStep) :=
  if token = "keys()" then some [.keys]
  else if token = "values()" then some [.values]
  else
    let (brackets, reversed) := dropBrackets token.toList.reverse
    let name := reversed.reverse
    if name.isEmpty || !name.all isNameChar then none
    else some (.field (String.ofList name) :: List.replicate brackets .elements)

/-- Cuts a text at its dots. -/
def tokens : List Char → List (List Char)
  | [] => [[]]
  | c :: cs =>
    if c = '.' then [] :: tokens cs
    else
      match tokens cs with
      | [] => [[c]]
      | t :: ts => (c :: t) :: ts

/-- Reads the tokens of a path from the left; the first bad one is reported. -/
def stepsOfTokens (text : String) : List (List Char) → Except CompileError (List PathStep)
  | [] => .ok []
  | t :: ts =>
    let token := String.ofList t
    match stepsOfToken? token with
    | none => .error ⟨.invalidSchema s!"Invalid step '{token}' in index path {text}", none⟩
    | some steps => (stepsOfTokens text ts).map (steps ++ ·)

/-- Reads a path. It must start with a field. -/
def parse (text : String) : Except CompileError IndexPath :=
  if text.isEmpty then .error ⟨.invalidSchema "Index path cannot be empty", none⟩
  else
    match stepsOfTokens text (tokens text.toList) with
    | .error e => .error e
    | .ok (.field name :: rest) => .ok ⟨.field name :: rest⟩
    | .ok _ => .error ⟨.invalidSchema s!"Index path must start with a field name: {text}", none⟩

/-! ## Writing -/

/-- The text of the steps after the first. -/
def tailText : List PathStep → String
  | [] => ""
  | .field name :: rest => "." ++ name ++ tailText rest
  | .elements :: rest => "[]" ++ tailText rest
  | .keys :: rest => ".keys()" ++ tailText rest
  | .values :: rest => ".values()" ++ tailText rest

/-- The text of a path. A field at the start has no dot. -/
def text (p : IndexPath) : String :=
  match p.steps with
  | .field name :: rest => name ++ tailText rest
  | steps => tailText steps

/-! ## Parts -/

/-- The top-level field the path starts from, empty if it starts otherwise. -/
def rootField (p : IndexPath) : String :=
  match p.steps with
  | .field name :: _ => name
  | _ => ""

/-- The path leads to many items at once. -/
def fansOut (p : IndexPath) : Bool := p.steps.any (·.fansOut)

/-- The path is a single step. -/
def isTopLevel (p : IndexPath) : Bool := p.steps.length == 1

/-- The map whose keys the path ends in. -/
def keysMap? (p : IndexPath) : Option (List PathStep) :=
  match p.steps.getLast? with
  | some .keys => some p.steps.dropLast
  | _ => none

/-- The map whose values the path goes through first, and the steps behind them. -/
def splitAtValues? (p : IndexPath) : Option (List PathStep × List PathStep) :=
  if p.steps.contains .values then
    some (p.steps.takeWhile (· != .values), (p.steps.dropWhile (· != .values)).tail)
  else none

end IndexPath

end ShardedQuery
