import ShardedQuery.SeqType

/-!
# Why a compilation fails

A `CompileError` is a cause and, for a fault of the query itself, the place in the query text it
belongs to. Faults of the schema or of the compiler have no place.
-/

namespace ShardedQuery

/-- A span of the query text. -/
structure Location where
  startLine : Nat
  startColumn : Nat
  endLine : Nat
  endColumn : Nat
  deriving DecidableEq, Repr, Inhabited

/-- The text of a span, `line:column-line:column`. -/
def Location.text (l : Location) : String :=
  s!"{l.startLine}:{l.startColumn}-{l.endLine}:{l.endColumn}"

/-- Whose fault an error is. -/
inductive Category where
  /-- The query is at fault and can be corrected. -/
  | semantic
  /-- The compiler broke one of its own rules. -/
  | internal
  /-- The table descriptions are at fault. -/
  | environment
  deriving DecidableEq, Repr

/-- What went wrong. -/
inductive Cause where
  | tableNotFound (name : String)
  | columnNotFound (table column : String)
  | indexNotFound (table index : String)
  | incomparableTypes (left right : String)
  | duplicateHint (hint : String)
  | duplicateColumn (name : String)
  | ambiguousMapKey (path : String)
  | forcedIndexConflict (forced sortIndex : String)
  | unsupported (message : String)
  | invalidSchema (message : String)
  | metadata (message : String)
  | internal (message : String)
  deriving DecidableEq, Repr, Inhabited

namespace Cause

def category : Cause → Category
  | invalidSchema _ | metadata _ => .environment
  | internal _ => .internal
  | _ => .semantic

def message : Cause → String
  | tableNotFound name => s!"Table not found: {name}"
  | columnNotFound table column => s!"Column {column} not found in table {table}"
  | indexNotFound table index => s!"Index {index} not found in table {table}"
  | incomparableTypes left right => s!"Incompatible types for comparison: {left} and {right}"
  | duplicateHint hint => s!"Duplicate hint: {hint}"
  | duplicateColumn name => s!"Duplicate column name in select list: {name}"
  | ambiguousMapKey path => s!"Ambiguous map-key predicate on path {path}"
  | forcedIndexConflict forced sortIndex =>
    s!"Forced index {forced} conflicts with index {sortIndex} required by the order-by clause"
  | unsupported m => s!"Unsupported: {m}"
  | invalidSchema m => s!"Invalid schema: {m}"
  | metadata m => s!"Metadata error: {m}"
  | internal m => s!"Internal compiler error: {m}"

end Cause

/-- A failure with the place it belongs to, if it has one. -/
structure CompileError where
  cause : Cause
  location : Option Location := none
  deriving DecidableEq, Repr, Inhabited

namespace CompileError

def category (e : CompileError) : Category := e.cause.category

/-- Gives an error of the query a place, unless it already has one. -/
def locate (e : CompileError) (place : Option Location) : CompileError :=
  if e.category = .semantic then { e with location := e.location.or place } else e

/-- The message, followed by the place. -/
def message (e : CompileError) : String :=
  match e.location with
  | none => e.cause.message
  | some l => e.cause.message ++ " at " ++ l.text

/-- Fails for a given cause, without a place. -/
def raise {α : Type} (cause : Cause) : Except CompileError α := .error { cause := cause }

end CompileError

/-- Gives a failure a place, unless it already has one. -/
def locateFailure {α : Type} (place : Option Location) (r : Except CompileError α) :
    Except CompileError α :=
  r.mapError fun e => e.locate place

end ShardedQuery
