import ShardedQuery.Graph
import ShardedQuery.Value.Order

/-!
# Structural matching

`Graph.alike a b` holds when the expressions at `a` and `b` are written alike. Blocks and scans
match only themselves, and so do FROM variables. Context variables match when they are of one
kind: the steps that declare them are compared as well. The entries of map constructors may stand
in any order.
-/

namespace ShardedQuery.Graph

/-- Two optional operands match: both absent, or both there and alike. -/
def matchOptional (same : NodeId → NodeId → Bool) : Option NodeId → Option NodeId → Bool
  | none, none => true
  | some a, some b => same a b
  | _, _ => false

/-- Two operand lists match position by position. -/
def matchAll (same : NodeId → NodeId → Bool) : List NodeId → List NodeId → Bool
  | [], [] => true
  | a :: as, b :: bs => same a b && matchAll same as bs
  | _, _ => false

/-- Reads a list of keys and values in turn as entries; an odd list has no entries. -/
def entriesOf? : List NodeId → Option (List (NodeId × NodeId))
  | [] => some []
  | [_] => none
  | k :: v :: rest => (entriesOf? rest).map ((k, v) :: ·)

/-- Takes the first element that satisfies `p` out of a list. -/
def takeFirst? {α : Type} (p : α → Bool) : List α → Option (List α)
  | [] => none
  | x :: xs => if p x then some xs else (takeFirst? p xs).map (x :: ·)

/-- Pairs each entry of the first list with the first matching entry of the second that is still
free; none may be left over. -/
def matchEntries (same : NodeId → NodeId → Bool) :
    List (NodeId × NodeId) → List (NodeId × NodeId) → Bool
  | [], bs => bs.isEmpty
  | (k, v) :: as, bs =>
    match takeFirst? (fun e => same k e.1 && same v e.2) bs with
    | none => false
    | some rest => matchEntries same as rest

/-- Two variables match: of one kind and bound by path steps, or the same external variable. -/
def matchVars (a b : Variable) : Bool :=
  (a.kind.isContext && a.kind = b.kind) ||
    match a.kind, b.kind with
    | .external x _, .external y _ => x == y
    | _, _ => false

/-- One level of matching, where `same` matches the operands. -/
def matchExpr (same : NodeId → NodeId → Bool) : Expr → Expr → Bool
  | .var a, .var b => matchVars a b
  | .literal a, .literal b => a == b && a.itemType = b.itemType
  | .field a n, .field b m => n == m && same a b
  | .slice a l h _, .slice b l' h' _ =>
    same a b && matchOptional same l l' && matchOptional same h h'
  | .filter a p _, .filter b q _ => same a b && matchOptional same p q
  | .mapFilter x a p _, .mapFilter y b q _ => x = y && same a b && matchOptional same p q
  | .call f as, .call g bs => f = g && matchAll same as bs
  | .case bs e, .case bs' e' =>
    matchAll same (bs.flatMap fun b => [b.1, b.2]) (bs'.flatMap fun b => [b.1, b.2])
      && matchOptional same e e'
  | .cast a t, .cast b u => t = u && same a b
  | .promote a t, .promote b u => t = u && same a b
  | .isOfType a ts n, .isOfType b us m => n == m && ts = us && same a b
  | .receive r, .receive s => r.distribution = s.distribution && same r.input s.input
  | .array as c, .array bs d => c == d && matchAll same as bs
  | .map as, .map bs =>
    match entriesOf? as, entriesOf? bs with
    | some es, some fs => matchEntries same es fs
    | _, _ => false
  | _, _ => false

/-- Matching of expressions at most `depth` levels deep. -/
def matchWithin (g : Graph) : Nat → NodeId → NodeId → Bool
  | 0, _, _ => false
  | depth + 1, a, b => a == b || matchExpr (g.matchWithin depth) (g.expr a) (g.expr b)

/-- The expressions at the two nodes are written alike. -/
def alike (g : Graph) (a b : NodeId) : Bool := g.matchWithin (g.size + 1) a b

end ShardedQuery.Graph
