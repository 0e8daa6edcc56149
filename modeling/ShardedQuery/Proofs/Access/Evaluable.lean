import ShardedQuery.Proofs.Access.Covering

/-!
# What index entries can evaluate

An index entry holds the values of the index fields and the primary key. What is computed from
these, from constants and from variables other than rows can be evaluated on the entry
(`Graph.Evaluable`).

The test `Analysis.isEvaluable` takes a path of the row as a whole. So it misses a path that leads
on from what an entry holds, such as a filter over an indexed column (`Graph.LeadsOn`), and nothing
else (`Analysis.isEvaluable_of_evaluable`).
-/

namespace ShardedQuery

open List

variable {g : Graph} {scan : NodeId} {site : Site} {path : AccessPath} {q : QueryPath} {t : Table}
  {x : Variable}

/-- The value is computed from the operands alone. -/
def Expr.isComputed : Expr → Bool
  | .var _ | .block _ | .scan _ | .receive _ => false
  | _ => true

namespace Graph

section
variable (g : Graph) (path : AccessPath) (t : Table) (rowVar : NodeId)

/-- Index entries hold the value: it is at the end of the fields of an index path, or in a column of
the primary key. -/
def IsHeld (id : NodeId) : Prop := ∃ names, g.IsFieldChain rowVar id names ∧ path.Holds t names

/-- An index field has the value of the node: the node is at the end of the fields on its path. -/
def IsIndexed (id : NodeId) : Prop :=
  ∃ f ∈ path.fields, ∃ names : List String, f.path.steps = names.map .field ∧
    g.IsFieldChain rowVar id names

/-- The value can be computed from what an index entry holds. Queries, scans and what other shards
send are not evaluated there, and neither are the rows of other queries. -/
inductive Evaluable : NodeId → Prop
  | held {id : NodeId} (h : g.IsHeld path t rowVar id) : Evaluable id
  | var {id : NodeId} {v : Variable} (hv : g.expr id = .var v) (hrow : v.kind ≠ .row) :
      Evaluable id
  | computed {id : NodeId} (h : (g.expr id).isComputed)
      (hoperands : ∀ c ∈ g.children id, Evaluable c) : Evaluable id

/-- A path of the row that leads on from what index entries hold: the entries do not hold what it
selects, but this can be computed from what they hold. -/
def LeadsOn (id : NodeId) : Prop :=
  (∃ steps, g.Climbs rowVar id steps) ∧ ¬ g.IsHeld path t rowVar id ∧ g.Evaluable path t rowVar id

end

/-! ## Paths of the row -/

section
variable {base rowVar id input : NodeId} {steps : List Navigation} {names : List String}

theorem mem_children_of_navigation? {step : QueryStep}
    (hnav : g.navigation? id = some (step, input)) : input ∈ g.children id := by
  unfold navigation? at hnav
  unfold children
  split at hnav
  · next he =>
    cases hnav
    simp [he, Expr.children]
  · next he => split at hnav <;> cases hnav <;> simp [he, Expr.children]
  · next he =>
    cases hnav
    simp [he, Expr.children]
  · next he =>
    cases hnav
    simp [he, Expr.children]
  · next he =>
    cases hnav
    simp [he, Expr.children]
  · cases hnav

theorem navigation?_of_var (hx : g.expr id = .var x) : g.navigation? id = none := by
  rw [navigation?, hx]

/-- Going up as far as there are steps reaches the end of the chain. -/
theorem Climbs.climb_eq (h : g.Climbs base id steps) (hbase : g.navigation? base = none) {n : Nat}
    (hfits : g.FitsIn n id) (after : List Navigation) :
    g.climb n id after = (base, steps ++ after) := by
  induction h generalizing n after with
  | base =>
    cases n with
    | zero => cases hfits
    | succ n => rw [climb, hbase, nil_append]
  | step hnav _ ih =>
    cases n with
    | zero => cases hfits
    | succ n =>
      rw [climb, hnav]
      simp only [ih (hfits _ (mem_children_of_navigation? hnav)), append_assoc,
        singleton_append]

theorem Climbs.queryPath?_eq (h : g.Climbs rowVar id steps) (hx : g.expr rowVar = .var x)
    (hacyclic : g.AcyclicBelow id) :
    g.queryPath? rowVar id = some ⟨steps, (g.exprType id).item, none⟩ := by
  have hclimb := h.climb_eq (navigation?_of_var hx) hacyclic.fitsIn_size []
  simp [queryPath?, var?, hx, hclimb]

theorem IsFieldChain.exists_climbs (h : g.IsFieldChain base id names) :
    ∃ steps, g.Climbs base id steps := by
  induction h with
  | base => exact ⟨[], .base⟩
  | field he _ ih =>
    obtain ⟨steps, hsteps⟩ := ih
    exact ⟨_, .step (by rw [navigation?, he]) hsteps⟩

/-- The steps of a chain of fields are these fields. -/
theorem IsFieldChain.steps_eq (h : g.IsFieldChain rowVar id names) (hx : g.expr rowVar = .var x)
    (hclimbs : g.Climbs rowVar id steps) : steps.map (·.step) = names.map .field := by
  induction h generalizing steps with
  | base =>
    cases hclimbs with
    | base => rfl
    | step hnav => cases (navigation?_of_var hx).symm.trans hnav
  | @field id input name names he _ ih =>
    have hstep : g.navigation? id = some (.field name, input) := by rw [navigation?, he]
    cases hclimbs with
    | base => cases he.symm.trans hx
    | step hnav hinput =>
      cases hnav.symm.trans hstep
      rw [map_append, map_append, ih hinput]
      rfl

end

end Graph

/-! ## Blocks with one FROM entry -/

/-- The scan is the only FROM entry of the block. -/
structure Site.ScansOnly (site : Site) (g : Graph) (scan : NodeId) : Prop
    extends site.Scans g scan where
  entries : ∀ b, g.block? site.block = some b → b.entries = [⟨scan, site.rowVar⟩]
  rowVar : ∃ x, g.expr site.rowVar = .var x ∧ x.decl = some site.block

/-- In a sound graph this can be read off the block. -/
theorem Graph.Sound.scansOnly {block : NodeId} {b : Block} {e : FromEntry} {s : TableScan}
    (hg : g.Sound) (hb : g.block? block = some b) (he : b.entries = [e])
    (hs : g.scan? e.domain = some s) : (⟨block, e.var⟩ : Site).ScansOnly g e.domain where
  toScans := hg.siteScans hb hs
  entries := by
    intro b' hb'
    cases hb.symm.trans hb'
    exact he
  rowVar := by
    obtain ⟨x, hx, -, hdecl⟩ := hg.scanned block b e s hb (by rw [he]; rfl) hs
    exact ⟨x, hx, hdecl⟩

section
variable {id : NodeId}

/-- Every path of the row starts at the variable of the only entry. -/
theorem Site.ScansOnly.climbs (h : site.ScansOnly g scan)
    (hq : g.queryPath? site.rowVar id = some q) :
    q.unnested = none ∧ g.Climbs site.rowVar id q.steps := by
  obtain ⟨x, hx, ⟨hnone, hclimbs⟩ | ⟨u, y, d, -, -, -, hne, hy, -, hdecl, hdomain, -⟩⟩ :=
    Graph.climbs_of_queryPath? hq
  · exact ⟨hnone, hclimbs⟩
  · obtain ⟨x', hx', hblock⟩ := h.rowVar
    cases hx.symm.trans hx'
    obtain ⟨b, hb⟩ := Option.isSome_iff_exists.1 h.isBlock
    have hentry : (⟨scan, site.rowVar⟩ : FromEntry).var ≠ u := fun heq => hne heq.symm
    rw [Graph.domain?_of_decl hy (hdecl.trans hblock), hb, Option.bind_some, h.entries b hb,
      find?_cons_of_neg (by simpa using hentry)] at hdomain
    cases hdomain

end

/-! ## The test -/

namespace Analysis

variable {id : NodeId}

/-- What index entries hold is found there. -/
theorem isResident_of_isHeld (hsingle : path.isMultiKey = false) (hx : g.expr site.rowVar = .var x)
    (h : g.IsHeld path t site.rowVar id) (hclimbs : g.Climbs site.rowVar id q.steps) :
    isResident t path q := by
  obtain ⟨names, hchain, hholds⟩ := h
  have hsteps := hchain.steps_eq hx hclimbs
  rw [isResident, Bool.or_eq_true]
  rcases hholds with ⟨f, hf, hpath⟩ | ⟨column, hcolumn, rfl⟩
  · refine .inr (any_eq_true.2 ⟨f, hf, ?_⟩)
    have hfan : f.fansOut = false := by simpa using any_eq_false.1 hsingle f hf
    rw [AccessPath.AccessField.holds, QueryPath.isExactly, QueryPath.matchPath, hpath,
      matchSteps_fields_self hsteps, hfan]
    rfl
  · obtain ⟨⟨step, input⟩, hq, hstep⟩ := map_eq_singleton_iff.1 hsteps
    cases hstep
    have hkey : (t.keyPosition? column).isSome := by
      rw [Table.keyPosition?, findIdx?_isSome, any_eq_true]
      exact ⟨column, hcolumn, beq_self_eq_true column⟩
    rw [hq]
    exact .inl hkey

/-- What passes the test can be evaluated on index entries. -/
theorem evaluable_of_isEvaluable (hpath : path ∈ AccessPath.all t)
    (h : isEvaluable g t path site.rowVar id) : g.Evaluable path t site.rowVar id := by
  unfold isEvaluable at h
  generalize g.size + 1 = n at h
  induction n generalizing id with
  | zero => cases h
  | succ n ih =>
    rw [evaluableWithin] at h
    split at h
    · next q hq =>
      obtain ⟨hunnested, hresident⟩ := Bool.and_eq_true_iff.1 h
      obtain ⟨-, -, ⟨-, hclimbs⟩ | ⟨u, -, -, -, -, hsome, -⟩⟩ := Graph.climbs_of_queryPath? hq
      · exact .held (holds_of_isResident hpath hresident hclimbs)
      · rw [hsome] at hunnested
        cases hunnested
    · have hcomputed (hall : (g.expr id).children.all (evaluableWithin g t path site.rowVar n))
          (he : (g.expr id).isComputed) : g.Evaluable path t site.rowVar id :=
        .computed he fun c hc => ih (all_eq_true.1 hall c hc)
      revert h hcomputed
      cases hv : g.expr id with
      | var v => exact fun h _ => .var hv (by simpa using h)
      | block _ | scan _ | receive _ => exact fun h _ => by cases h
      | _ => exact fun h hcomputed => hcomputed h rfl

/-- What does not depend on rows can be evaluated anywhere. -/
theorem evaluable_of_isRowFree (hacyclic : g.AcyclicBelow id) (h : g.IsRowFree id) :
    g.Evaluable path t site.rowVar id := by
  have hfits := hacyclic.fitsIn_size
  generalize g.size + 1 = n at hfits
  induction n generalizing id with
  | zero => cases hfits
  | succ n ih =>
    have hcomputed (he : (g.expr id).isComputed) : g.Evaluable path t site.rowVar id :=
      .computed he fun c hc => ih (hacyclic.child hc) (fun v hv => h v (.head hc hv)) (hfits c hc)
    have hfree := h id .refl
    revert hfree hcomputed
    cases hv : g.expr id with
    | var v =>
      intro _ hfree
      refine .var hv fun hrow => ?_
      rw [Expr.isRowFree, hrow] at hfree
      cases hfree
    | block _ | scan _ | receive _ => exact fun _ hfree => by cases hfree
    | _ => exact fun hcomputed _ => hcomputed rfl

/-- What can be evaluated on index entries passes the test, unless a path in it leads on from what
the entries hold. -/
theorem isEvaluable_of_evaluable (hsite : site.ScansOnly g scan) (hsingle : path.isMultiKey = false)
    (hacyclic : g.AcyclicBelow id) (h : g.Evaluable path t site.rowVar id)
    (hwhole : ∀ v, Relation.ReflTransGen g.IsChild id v → ¬ g.LeadsOn path t site.rowVar v) :
    isEvaluable g t path site.rowVar id := by
  obtain ⟨x, hx, -⟩ := hsite.rowVar
  have hfits := hacyclic.fitsIn_size
  unfold isEvaluable
  generalize g.size + 1 = n at hfits
  induction n generalizing id with
  | zero => cases hfits
  | succ n ih =>
    rw [evaluableWithin]
    split
    · next q hq =>
      obtain ⟨hunnested, hclimbs⟩ := hsite.climbs hq
      have hheld : g.IsHeld path t site.rowVar id := by
        by_contra hnot
        exact hwhole id .refl ⟨⟨q.steps, hclimbs⟩, hnot, h⟩
      rw [hunnested, isResident_of_isHeld hsingle hx hheld hclimbs]
      rfl
    · next hnone =>
      cases h with
      | held hheld =>
        obtain ⟨names, hchain, -⟩ := hheld
        obtain ⟨steps, hclimbs⟩ := hchain.exists_climbs
        cases hnone.symm.trans (hclimbs.queryPath?_eq hx hacyclic)
      | var hv hrow => simp [hv, hrow]
      | computed hcomputed hoperands =>
        have hall : (g.expr id).children.all (evaluableWithin g t path site.rowVar n) :=
          all_eq_true.2 fun c hc => ih (hacyclic.child hc) (hoperands c hc)
            (fun v hv => hwhole v (.head hc hv)) (hfits c hc)
        revert hcomputed hall
        cases g.expr id <;> simp [Expr.isComputed]

end Analysis

/-! ## Predicates -/

section
variable {left : NodeId} {p : Predicate}

theorem Graph.IsIndexed.isHeld {id : NodeId} (h : g.IsIndexed path site.rowVar id) :
    g.IsHeld path t site.rowVar id := by
  obtain ⟨f, hf, names, hsteps, hchain⟩ := h
  exact ⟨names, hchain, .inl ⟨f, hf, hsteps⟩⟩

/-- Without fan-out a predicate is about the value of an index field, and about nothing more. -/
theorem Predicate.IsReadAt.isIndexed (h : p.IsReadAt g path site.rowVar left)
    (hpath : path ∈ AccessPath.all t) (hsingle : path.isMultiKey = false)
    (hsite : site.ScansOnly g scan) :
    p.widened = false ∧ p.unnested = none ∧ g.IsIndexed path site.rowVar left := by
  obtain ⟨q, m, others, hq, hunnested, hmeet, -, hwidened, -⟩ := h.query
  obtain ⟨hnone, hclimbs⟩ := hsite.climbs hq
  obtain ⟨f, hf, hm⟩ :=
    AccessPath.mem_meetings.1 (hmeet ▸ (.head _) : (p.position, m) ∈ path.meetings q)
  have hfield := mem_of_getElem? hf
  have hfan : f.fansOut = false := by simpa using any_eq_false.1 hsingle f hfield
  obtain ⟨hsteps, hchain⟩ := AccessPath.isFieldChain_of_matchPath hpath hfield hfan hm hclimbs
  have hx := hsite.rowVar.choose_spec.1
  rw [QueryPath.matchPath, hsteps, matchSteps_fields_self (hchain.steps_eq hx hclimbs)] at hm
  cases hm
  exact ⟨hwidened.symm, hunnested.symm.trans hnone, f, hfield, _, hsteps, hchain⟩

/-- Without fan-out the conjunct of a predicate can be evaluated on index entries. -/
theorem Predicate.IsReadAt.evaluable (h : p.IsReadAt g path site.rowVar left)
    (hindexed : g.IsIndexed path site.rowVar left) (hacyclic : g.AcyclicBelow p.conjunct) :
    g.Evaluable path t site.rowVar p.conjunct := by
  obtain ⟨op, hcall⟩ := h.conjunct
  obtain ⟨args, hexpr, hargs⟩ : ∃ args, g.expr p.conjunct = .call (.compare op p.any) args ∧
      ∀ c ∈ args, c = left ∨ c = p.operand := by
    rcases hcall with ⟨hexpr, -⟩ | ⟨hexpr, -⟩
    · exact ⟨_, hexpr, by simp⟩
    · exact ⟨_, hexpr, by simp [or_comm]⟩
  have hchildren : g.children p.conjunct = args := by
    rw [Graph.children, hexpr]
    rfl
  refine .computed (by rw [hexpr]; rfl) fun c hc => ?_
  rcases hargs c (hchildren ▸ hc) with rfl | rfl
  · exact .held hindexed.isHeld
  · exact Analysis.evaluable_of_isRowFree (hacyclic.child hc)
      (Graph.isRowFree_of_isRowIndependent (hacyclic.child hc) h.independent)

end

end ShardedQuery
