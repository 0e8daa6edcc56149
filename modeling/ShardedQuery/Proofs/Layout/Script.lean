import ShardedQuery.Proofs.Layout

/-!
# Scripts of front ends

A list of commands lays out a query. A command that breaks the rules of `Layout.Step` is refused, so
that whatever a script lays out is reached by steps (`Layout.isReached_script`).
-/

namespace ShardedQuery.Layout

/-- One thing that a front end does. -/
inductive Command where
  | value (e : Expr)
  | external (name : String) (t : SeqType)
  | contextVar (input : NodeId) (name : String) (kind : VarKind)
  | pathStep (e : Expr)
  | root (id : NodeId)
  | draft
  | scanTable (table name : String) (hints : List Hint)
  | rangeOver (domain : NodeId) (name : String)
  | restrict (condition : NodeId)
  | select (name : String) (expr : NodeId)
  | sort (expr : NodeId) (spec : SortSpec)
  | offset (expr : NodeId)
  | limit (expr : NodeId)
  | build

/-- A command carried out; there is no result if it is refused. -/
def perform (c : Catalog) : Layout → Command → Option Layout
  | ⟨g, ds, ws⟩, .value e =>
    if e.isValue ∧ ∀ u ∈ e.children, u < g.size then some ⟨(g.add e).2, ds, ws⟩ else none
  | ⟨g, ds, ws⟩, .external name t => some ⟨(g.addExternal name t).2, ds, ws⟩
  | ⟨g, ds, ws⟩, .contextVar input name kind =>
    if input < g.size then some ⟨(g.addVar name kind).2, ds, (g.size, input) :: ws⟩ else none
  | ⟨g, ds, ws⟩, .pathStep e =>
    if e.stepInput?.isSome ∧ (∀ u ∈ e.children, u < g.size) ∧ ws.Perm (e.sources ++ []) then
      some ⟨(g.addDeclaring e none).2, ds, []⟩
    else none
  | ⟨g, ds, ws⟩, .root id => if id < g.size then some ⟨g.setRoot id, ds, ws⟩ else none
  | ⟨g, ds, ws⟩, .draft => some ⟨g, {} :: ds, ws⟩
  | ⟨g, d :: ds, ws⟩, .scanTable table name hints =>
    match d.scanTable g c table name hints with
    | .ok (_, d, g) => some ⟨g, d :: ds, ws⟩
    | .error _ => none
  | ⟨g, d :: ds, ws⟩, .rangeOver domain name =>
    if domain < g.size then
      match d.rangeOver g domain name with
      | .ok (_, d, g) => some ⟨g, d :: ds, ws⟩
      | .error _ => none
    else none
  | ⟨g, d :: ds, ws⟩, .restrict condition =>
    if condition < g.size then some ⟨(d.restrict g condition).2, (d.restrict g condition).1 :: ds, ws⟩
    else none
  | ⟨g, d :: ds, ws⟩, .select name expr =>
    if expr < g.size then
      match d.addSelect g name expr with
      | .ok d => some ⟨g, d :: ds, ws⟩
      | .error _ => none
    else none
  | ⟨g, d :: ds, ws⟩, .sort expr spec =>
    if expr < g.size then some ⟨g, d.addSort expr spec :: ds, ws⟩ else none
  | ⟨g, d :: ds, ws⟩, .offset expr =>
    if expr < g.size then some ⟨g, { d with offset := some expr } :: ds, ws⟩ else none
  | ⟨g, d :: ds, ws⟩, .limit expr =>
    if expr < g.size then some ⟨g, { d with limit := some expr } :: ds, ws⟩ else none
  | ⟨g, d :: ds, ws⟩, .build =>
    match d.build g with
    | .ok (_, g) => some ⟨g, ds, ws⟩
    | .error _ => none
  | _, _ => none

/-- A command that is carried out is a step. -/
theorem step_of_perform {c : Catalog} {l l' : Layout} {k : Command} (h : perform c l k = some l') :
    Step c l l' := by
  unfold perform at h
  split at h
  · obtain ⟨⟨hvalue, hlt⟩, heq⟩ := Option.ite_none_right_eq_some.1 h
    cases heq
    exact .value hvalue hlt
  · cases h
    exact .external ..
  · obtain ⟨hlt, heq⟩ := Option.ite_none_right_eq_some.1 h
    cases heq
    exact .contextVar _ _ hlt
  · obtain ⟨⟨hstep, hlt, hctx⟩, heq⟩ := Option.ite_none_right_eq_some.1 h
    cases heq
    exact .pathStep hstep hlt hctx
  · obtain ⟨hlt, heq⟩ := Option.ite_none_right_eq_some.1 h
    cases heq
    exact .root hlt
  · cases h
    exact .draft
  · split at h
    · next hscan =>
      cases h
      exact .scanTable hscan
    · cases h
  · obtain ⟨hlt, h⟩ := Option.ite_none_right_eq_some.1 h
    split at h
    · next hrange =>
      cases h
      exact .rangeOver hlt hrange
    · cases h
  · obtain ⟨hlt, heq⟩ := Option.ite_none_right_eq_some.1 h
    cases heq
    exact .restrict hlt
  · obtain ⟨hlt, h⟩ := Option.ite_none_right_eq_some.1 h
    split at h
    · next hselect =>
      cases h
      exact .select hlt hselect
    · cases h
  · obtain ⟨hlt, heq⟩ := Option.ite_none_right_eq_some.1 h
    cases heq
    exact .sort _ hlt
  · obtain ⟨hlt, heq⟩ := Option.ite_none_right_eq_some.1 h
    cases heq
    exact .offset hlt
  · obtain ⟨hlt, heq⟩ := Option.ite_none_right_eq_some.1 h
    cases heq
    exact .limit hlt
  · split at h
    · next hbuild =>
      cases h
      exact .build hbuild
    · cases h
  · cases h

/-- The layout that a script comes to; nothing is laid out if one of its commands is refused. -/
def script (c : Catalog) (ks : List Command) : Layout := (ks.foldlM (perform c) {}).getD {}

theorem isReached_script (c : Catalog) (ks : List Command) : IsReached c (script c ks) := by
  have hrun (ks : List Command) {l l' : Layout} (h : ks.foldlM (perform c) l = some l') :
      Relation.ReflTransGen (Step c) l l' := by
    induction ks generalizing l with
    | nil =>
      cases h
      exact .refl
    | cons k ks ih =>
      obtain ⟨m, hm, h⟩ := Option.bind_eq_some_iff.1 h
      exact .head (step_of_perform hm) (ih h)
  rw [script]
  cases h : ks.foldlM (perform c) ({} : Layout) with
  | none => exact .refl
  | some l => exact hrun ks h

theorem isLaid_script (c : Catalog) (ks : List Command) : (script c ks).graph.IsLaid :=
  (isReached_script c ks).isSound.laid

end ShardedQuery.Layout
