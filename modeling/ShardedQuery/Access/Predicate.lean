import ShardedQuery.Expr
import ShardedQuery.Value.Order

/-!
# Predicates on index fields

A `Predicate` is a conjunct of a WHERE clause that compares an index field with an operand that
does not depend on the row. Two predicates on one field can make each other superfluous, or
contradict each other: `resolvePair` decides, and `resolveConflicts` goes through all pairs.
-/

namespace ShardedQuery

/-- What becomes of a predicate. -/
inductive Status where
  /-- It can be pushed into the scan. -/
  | keep
  /-- Another predicate implies it. -/
  | implied
  /-- It is not pushed and stays in the WHERE clause. -/
  | skip
  deriving DecidableEq, Repr, Inhabited

/-- A comparison of an index field with an operand that does not depend on the row. -/
structure Predicate where
  /-- The place among the predicates of the clause. -/
  ordinal : Nat
  /-- The conjunct it was read from. -/
  conjunct : NodeId
  /-- The operand that does not depend on the row. -/
  operand : NodeId
  /-- The value of the operand when it is a constant. -/
  value : Option Value
  /-- The operator, with the index field on the left. -/
  op : Comparison
  /-- Any item of the field may satisfy the comparison. -/
  any : Bool
  /-- The position of the index field. -/
  position : Nat
  /-- The key it selects in a map whose keys and values are both in the index. -/
  mapKey : Option String
  /-- The index field holds more items than the predicate looks at. -/
  widened : Bool
  /-- The further FROM variable its path goes through. -/
  unnested : Option NodeId
  status : Status := .keep
  deriving Repr, Inhabited

namespace Predicate

def isKept (p : Predicate) : Bool := p.status = .keep

/-- It can only filter index entries, never bound the scan. -/
def isFilterOnly (p : Predicate) : Bool := p.op = .ne

def isEquality (p : Predicate) : Bool := p.op = .eq

end Predicate

/-! ## Pairs -/

/-- What becomes of two predicates on one field. -/
inductive Resolution where
  | both
  | first (s : Status)
  | second (s : Status)
  /-- The first becomes an equality that implies the second. -/
  | collapseFirst
  /-- The second becomes an equality that implies the first. -/
  | collapseSecond
  | contradiction
  deriving DecidableEq, Repr

/-- An equality is worth more than another comparison, which is then skipped. -/
def preferEquality (a b : Predicate) : Option Resolution :=
  match a.isEquality, b.isEquality with
  | true, false => some (.second .skip)
  | false, true => some (.first .skip)
  | _, _ => none

/-- Two bounds on one side: the stricter one implies the other. -/
def stricter (first : Bool) : Resolution := if first then .second .implied else .first .implied

/-- Two predicates with constant operands, where `o` is how the first constant stands to the
second. -/
def resolveConstants (p q : Comparison) (o : Ordering) : Resolution :=
  match p, q with
  | .eq, .eq => if o = .eq then .second .implied else .contradiction
  | .eq, q => if q.holds o then .second .implied else .contradiction
  | p, .eq => if p.holds o.swap then .first .implied else .contradiction
  | p, q =>
    if p.isLower && q.isLower then stricter (o = .gt ∨ (o = .eq ∧ p = .gt))
    else if p.isUpper && q.isUpper then stricter (o = .lt ∨ (o = .eq ∧ p = .lt))
    else
      -- One bound below and one above: `gap` is how the lower one stands to the upper one.
      let gap := if p.isLower then o else o.swap
      match gap with
      | .lt => .both
      | .gt => .contradiction
      | .eq =>
        if p.isInclusive && q.isInclusive then
          if p.isLower then .collapseFirst else .collapseSecond
        else .contradiction

/-- Two predicates on one field. They are independent when different items of the field may
satisfy them. -/
def resolvePair (a b : Predicate) (independent : Bool) : Resolution :=
  match a.value, b.value with
  | some x, some y =>
    if independent then
      if a.op = b.op && x == y then .second .implied
      else (preferEquality a b).getD (.second .skip)
    else
      match x.compareAtomic y with
      | none => .contradiction
      | some o => resolveConstants a.op b.op o
  | _, _ =>
    if independent then (preferEquality a b).getD (.second .skip)
    else
      (preferEquality a b).getD
        (if a.isEquality || a.op.isLower == b.op.isLower then .second .skip else .both)

/-! ## Lists -/

/-- The two predicates are about the same items of the same field. -/
def competes (a b : Predicate) : Bool :=
  a.isKept && b.isKept && !a.isFilterOnly && !b.isFilterOnly && !a.widened && !b.widened
    && a.position == b.position && a.mapKey == b.mapKey

/-- What becomes of two predicates by a resolution. -/
def Resolution.apply (a b : Predicate) : Resolution → Option (Predicate × Predicate)
  | .both => some (a, b)
  | .first s => some ({ a with status := s }, b)
  | .second s => some (a, { b with status := s })
  | .collapseFirst => some ({ a with op := .eq }, { b with status := .implied })
  | .collapseSecond => some ({ a with status := .implied }, { b with op := .eq })
  | .contradiction => none

/-- Two predicates on one field are independent when different items may satisfy them. -/
def Predicate.independent (fansOut : Nat → Bool) (a b : Predicate) : Bool :=
  fansOut a.position && (a.any || b.any || a.unnested != b.unnested)

/-- Settles one pair of predicates, where `fansOut` tells which fields hold many items of a row. A
contradiction has no result. -/
def settle (fansOut : Nat → Bool) (a b : Predicate) : Option (Predicate × Predicate) :=
  if competes a b then (resolvePair a b (a.independent fansOut b)).apply a b else some (a, b)

/-- Settles a predicate with each of the following ones in turn. -/
def settleAgainst (fansOut : Nat → Bool) (a : Predicate) :
    List Predicate → Option (Predicate × List Predicate)
  | [] => some (a, [])
  | b :: rest => do
    let (a, b) ← settle fansOut a b
    let (a, rest) ← settleAgainst fansOut a rest
    return (a, b :: rest)

/-- Settles the first `n` predicates with all that follow them. -/
def settleFirst (fansOut : Nat → Bool) : Nat → List Predicate → Option (List Predicate)
  | 0, ps => some ps
  | _, [] => some []
  | n + 1, p :: rest => do
    let (p, rest) ← settleAgainst fansOut p rest
    let rest ← settleFirst fansOut n rest
    return p :: rest

/-- Settles all pairs, each predicate with the later ones. There is no result when two predicates
contradict each other. -/
def resolveConflicts (fansOut : Nat → Bool) (ps : List Predicate) : Option (List Predicate) :=
  settleFirst fansOut ps.length ps

end ShardedQuery
