import ShardedQuery.Graph

/-!
# Types of expressions

`Graph.typeRule` is the typing rule of one node: its type from the types of the nodes it depends
on. A node depends on its children; a FROM variable depends on its domain, and a context variable
on the input of the step that declares it.

Types are kept at the nodes. `exprType` reads a kept type or derives it without keeping anything,
`typeOf` derives the types of a node and of everything below it and keeps them, and `refresh`
derives the type of a node anew and carries a change on to the nodes that depend on it.
-/

namespace ShardedQuery

/-- The type of the items a filter or a slice runs over: what is no array is an array of one. -/
def ItemType.iterated : ItemType → ItemType
  | .array e => e
  | t => t

/-- The type of a call that is no truth value, from the types of its arguments. -/
def Function.resultType (f : Function) (args : List SeqType) : SeqType :=
  let quantifier : Quantifier :=
    if args.any (·.quantifier.allowsEmpty) then .optional else .one
  match f with
  | .size => .optional .integer
  | .concat => ⟨.string, quantifier⟩
  | _ => ⟨.unionAll .number (args.map (·.item)), quantifier⟩

/-- The type of a field step from the type of its input. Over a record the field is as frequent as
the record; elsewhere it may be missing. -/
def SeqType.fieldStep (input : SeqType) (name : String) : SeqType :=
  match input.item.fieldType? name with
  | none => .empty
  | some item =>
    let quantifier :=
      match input.item with
      | .record _ => input.quantifier
      | .array _ => input.quantifier.product .star
      | _ => input.quantifier.product .optional
    ⟨item, quantifier⟩

/-- The type of a case expression from the types of its results. Without an ELSE branch the empty
sequence is a possible result. -/
def SeqType.ofBranches (results : List SeqType) (otherwise : Option SeqType) : SeqType :=
  let joined : SeqType :=
    match results with
    | [] => empty
    | t :: ts => ts.foldl union t
  joined.union (otherwise.getD .empty)

/-- Every second entry of a list, starting with the second: the values among keys and values in
turn. -/
def secondOfPairs {α : Type} : List α → List α
  | _ :: v :: rest => v :: secondOfPairs rest
  | _ => []

namespace Graph

/-- The node a variable takes its type from. -/
def varSource? (g : Graph) (id : NodeId) : Option NodeId :=
  match g.var? id with
  | none => none
  | some v =>
    match v.kind with
    | .row => g.domain? id
    | .item | .element => v.decl.bind fun d => (g.expr d).stepInput?
    | _ => none

/-- The type of a variable that takes its type from a node of the given type. -/
def typeOver (source : Option SeqType) : VarKind → SeqType
  | .row => (source.map (·.withQuantifier .one)).getD (.one .any)
  | .item => (source.getD (.one .any)).withQuantifier .one
  | .element => .one (source.getD (.one .any)).item.iterated
  | .key => .one .string
  | .position => .one .long
  | .external _ declared => declared

/-- The typing rule of one node, where `t` gives the types of the nodes it depends on. -/
def typeRule (g : Graph) (t : NodeId → SeqType) (id : NodeId) : SeqType :=
  match g.expr id with
  | .block b =>
    if b.star then .star ((b.firstVar?.map fun v => (t v).item).getD .any)
    else .star (.record (b.select.map fun f => (f.name, (t f.expr).item)))
  | .scan s => .star s.rowType
  | .var v => typeOver ((g.varSource? id).map t) v.kind
  | .field input name => (t input).fieldStep name
  | .slice input _ _ _ | .filter input _ _ => .star (t input).item.iterated
  | .mapFilter .keys _ _ _ => .star .string
  | .mapFilter .values input _ _ => .star (t input).item.elementType
  | .call f args => if f.isBoolean then .boolean else f.resultType (args.map t)
  | .literal v => if v.isEmpty then .empty else .one v.itemType
  | .case branches otherwise => .ofBranches (branches.map fun b => t b.2) (otherwise.map t)
  | .cast _ target | .promote _ target => target
  | .isOfType _ _ _ => .boolean
  | .receive r => t r.input
  | .array args _ => .one (.array (.unionAll .any (args.map fun a => (t a).item)))
  | .map args => .one (.map (.unionAll .any ((secondOfPairs args).map fun a => (t a).item)))

/-! ## Deriving types -/

/-- The kept type of a node, or the one derived from the nodes at most `depth` levels away. -/
def typeWithin (g : Graph) : Nat → NodeId → SeqType
  | 0, _ => .one .any
  | depth + 1, id =>
    match g.type? id with
    | some t => t
    | none => g.typeRule (g.typeWithin depth) id

/-- The kept type of a node, or the derived one. Nothing is kept. -/
def exprType (g : Graph) (id : NodeId) : SeqType := g.typeWithin (g.size + 1) id

/-- The type of a node derived from the types of the nodes it depends on, whether or not a type is
kept for the node itself. -/
def derivedType (g : Graph) (id : NodeId) : SeqType := g.typeRule g.exprType id

/-- Derives the type of a node and keeps it. -/
abbrev retype (g : Graph) (id : NodeId) : Graph := g.setType id (g.derivedType id)

/-- Keeps the types of a node and of the nodes at most `depth` levels below it, as far as none is
kept yet. -/
def inferWithin : Nat → Graph → NodeId → Graph
  | 0, g, _ => g
  | depth + 1, g, id =>
    match g.type? id with
    | some _ => g
    | none =>
      let g := (g.children id ++ (g.varSource? id).toList).foldl (inferWithin depth) g
      g.retype id

/-- The type of a node, with the graph that keeps it. -/
def typeOf (g : Graph) (id : NodeId) : SeqType × Graph :=
  let g := inferWithin (g.size + 1) g id
  (g.exprType id, g)

/-- Keeps the types of everything below the root. -/
def inferTypes (g : Graph) : Graph :=
  match g.root with
  | none => g
  | some r => (g.typeOf r).2

/-! ## Carrying changes on -/

/-- The variables a parent declares over one of its inputs. -/
def declaredOver (g : Graph) (id parent : NodeId) : List NodeId :=
  match g.expr parent with
  | .block b => (b.entries.filter (·.domain == id)).map (·.var)
  | e => if e.stepInput? = some id then e.context else []

/-- The nodes whose type depends on the type of `id`, in order and without repetition: its
parents, the FROM variables over it, and the context variables of the steps over it. -/
def dependents (g : Graph) (id : NodeId) : List NodeId :=
  let all := g.parents id ++ (g.parents id).flatMap (g.declaredOver id)
  (all.mergeSort (fun a b => a ≤ b)).eraseReps

/-- Works through a stack of nodes: derives the type of the top one anew and, when it differs from
the kept one, keeps it and puts the dependents on the stack, the largest on top. -/
def propagate : Nat → List NodeId → Graph → Graph
  | 0, _, g => g
  | _, [], g => g
  | steps + 1, id :: work, g =>
    if g.isLive id then
      let t := g.derivedType id
      if g.type? id = some t then propagate steps work g
      else propagate steps ((g.dependents id).reverse ++ work) (g.setType id t)
    else propagate steps work g

/-- A number of steps that no propagation exceeds: along dependencies, a node changes at most as
often as all nodes before it together and once more. -/
def propagationBound (g : Graph) : Nat := (g.size + 1) * Nat.pow 2 g.size + 1

/-- Derives the type of a node anew and carries a change on to the nodes that depend on it. -/
def refresh (g : Graph) (id : NodeId) : Graph := propagate g.propagationBound [id] g

end Graph

end ShardedQuery
