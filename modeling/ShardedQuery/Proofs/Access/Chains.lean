import ShardedQuery.Proofs.Access.Choice
import ShardedQuery.Proofs.Graph.Reach

/-!
# Chains of navigation steps

A path of the row is a chain of navigation steps over the row variable, or over a further FROM
variable (`Graph.climbs_of_queryPath?`). If no step of it is restricted, nothing lies below the path
but the chain itself and the variable it ends in. A path that exactly matches an index path without
fan-out is a chain of field steps with the names of the index path (`matchSteps_fields`).
-/

namespace ShardedQuery

open Relation List

variable {path : AccessPath} {t : Table} {f : AccessField} {allowKey : Bool} {g : Graph}
  {id : NodeId} {m : PathMatch} {q : QueryPath} {x : Variable}

/-- A condition or bounds keep only some items. -/
def QueryStep.isRestricted : QueryStep → Bool
  | .field _ => false
  | .elements restricted | .keys restricted | .values restricted => restricted

namespace Graph

/-- Navigation steps lead from the node `base` to another. -/
inductive Climbs (g : Graph) (base : NodeId) : NodeId → List Navigation → Prop
  | base : Climbs g base base []
  | step {id input : NodeId} {step : QueryStep} {steps : List Navigation}
      (hnav : g.navigation? id = some (step, input)) (hinput : Climbs g base input steps) :
    Climbs g base id (steps ++ [⟨step, (g.exprType input).item⟩])

section
variable {base rowVar input w : NodeId} {steps : List Navigation}

theorem climbs_climb (g : Graph) (n : Nat) (id : NodeId) (after : List Navigation) :
    ∃ taken, g.Climbs (g.climb n id after).1 id taken ∧ (g.climb n id after).2 = taken ++ after := by
  induction n generalizing id after with
  | zero => exact ⟨[], .base, rfl⟩
  | succ n ih =>
    rw [climb]
    split
    · exact ⟨[], .base, rfl⟩
    · next step input hnav =>
      obtain ⟨taken, hclimbs, hsteps⟩ := ih input (⟨step, (g.exprType input).item⟩ :: after)
      exact ⟨_, .step hnav hclimbs, by rw [hsteps]; simp⟩

/-- A path is a chain over the row variable, or over a further variable of the same block, whose
domain is a chain over the row variable. -/
theorem climbs_of_queryPath? (h : g.queryPath? rowVar id = some q) :
    ∃ x, g.expr rowVar = .var x ∧ ((q.unnested = none ∧ g.Climbs rowVar id q.steps) ∨
      ∃ u y d taken rest, q.unnested = some u ∧ u ≠ rowVar ∧ g.expr u = .var y ∧ y.kind = .row ∧
        y.decl = x.decl ∧ g.domain? u = some d ∧ g.Climbs u id rest ∧ g.Climbs rowVar d taken ∧
        q.steps = taken ++ rest) := by
  simp only [queryPath?, Option.bind_eq_bind, Option.bind_eq_some_iff] at h
  obtain ⟨x, hx, h⟩ := h
  refine ⟨x, var?_eq_some.1 hx, ?_⟩
  obtain ⟨rest, hrest, hsteps⟩ := g.climbs_climb (g.size + 1) id []
  rw [append_nil] at hsteps
  split at h
  · next hbase =>
    cases h
    rw [hbase] at hrest
    exact .inl ⟨rfl, hsteps.symm ▸ hrest⟩
  · next hbase =>
    simp only [Option.bind_eq_some_iff] at h
    obtain ⟨y, hy, h⟩ := h
    split at h
    · next hrow =>
      simp only [Option.bind_eq_some_iff] at h
      obtain ⟨d, hd, h⟩ := h
      obtain ⟨taken, htaken, hall⟩ := g.climbs_climb (g.size + 1) d
        (g.climb (g.size + 1) id []).2
      split at h
      · next hstart =>
        cases h
        rw [hstart] at htaken
        exact .inr ⟨_, y, d, taken, rest, rfl, hbase, var?_eq_some.1 hy, hrow.1, hrow.2, hd, hrest,
          htaken, hall.trans (congrArg _ hsteps)⟩
      · cases h
    · cases h

theorem queryPath?_self (hx : g.expr rowVar = .var x) :
    g.queryPath? rowVar rowVar = some ⟨[], (g.exprType rowVar).item, none⟩ := by
  have hclimb : g.climb (g.size + 1) rowVar [] = (rowVar, []) := by simp [climb, navigation?, hx]
  simp [queryPath?, var?, hx, hclimb]

/-- An unrestricted step uses its input only. -/
theorem children_of_navigation? {step : QueryStep} (hnav : g.navigation? id = some (step, input))
    (hstep : step.isRestricted = false) : g.children id = [input] := by
  unfold navigation? at hnav
  unfold children
  split at hnav
  · next he =>
    cases hnav
    rw [he]
    rfl
  · next condition _ he =>
    cases condition with
    | none =>
      rw [he]
      split at hnav <;> cases hnav <;> rfl
    | some _ => split at hnav <;> cases hnav <;> cases hstep
  · next low high _ he =>
    cases hnav
    rw [he]
    cases low <;> cases high <;> first | rfl | cases hstep
  · next condition _ he =>
    cases hnav
    rw [he]
    cases condition <;> first | rfl | cases hstep
  · next condition _ he =>
    cases hnav
    rw [he]
    cases condition <;> first | rfl | cases hstep
  · cases hnav

/-- Nothing lies below an unrestricted chain but its steps and the variable it ends in. -/
theorem Climbs.reached (h : g.Climbs base id steps)
    (hsteps : ∀ n ∈ steps, n.step.isRestricted = false) (hbase : g.children base = [])
    (hw : ReflTransGen g.IsChild id w) : w = base ∨ (g.navigation? w).isSome := by
  induction h with
  | base =>
    rcases ReflTransGen.cases_head hw with rfl | ⟨c, hc, -⟩
    · exact .inl rfl
    · rw [IsChild, hbase] at hc
      cases hc
  | step hnav _ ih =>
    rcases ReflTransGen.cases_head hw with rfl | ⟨c, hc, hcw⟩
    · exact .inr (by rw [hnav]; rfl)
    · have hlast := hsteps _ (mem_append_right _ (mem_singleton_self _))
      rw [IsChild, children_of_navigation? hnav hlast, mem_singleton] at hc
      exact ih (fun n hn => hsteps n (mem_append_left _ hn)) (hc ▸ hcw)

theorem children_of_var (hx : g.expr id = .var x) : g.children id = [] := by
  rw [children, hx]
  rfl

/-! ## Fields -/

/-- Field steps with the given names lead from the node `base` to another. -/
inductive IsFieldChain (g : Graph) (base : NodeId) : NodeId → List String → Prop
  | base : IsFieldChain g base base []
  | field {id input : NodeId} {name : String} {names : List String}
      (he : g.expr id = .field input name) (hinput : IsFieldChain g base input names) :
    IsFieldChain g base id (names ++ [name])

theorem field_of_navigation? {name : String} (h : g.navigation? id = some (.field name, input)) :
    g.expr id = .field input name := by
  unfold navigation? at h
  split at h
  · cases h
    assumption
  · split at h <;> cases h
  all_goals cases h

/-- A chain that only takes fields. -/
theorem Climbs.isFieldChain {names : List String} (h : g.Climbs base id steps)
    (hsteps : steps.map (·.step) = names.map .field) : g.IsFieldChain base id names := by
  induction h generalizing names with
  | base =>
    cases names with
    | nil => exact .base
    | cons _ _ => cases hsteps
  | step hnav _ ih =>
    rw [map_append] at hsteps
    obtain ⟨before, last, rfl, hbefore, hlast⟩ := map_eq_append_iff.1 hsteps.symm
    obtain ⟨name, rfl, hname⟩ := map_eq_singleton_iff.1 hlast
    exact .field (field_of_navigation? (hname ▸ hnav)) (ih hbefore.symm)

end

end Graph

/-! ## Matching -/

section
variable {path : List PathStep} {qs : List Navigation} {last : ItemType} {found : PathMatch}

/-- An index path that leads to no more items than the query path meets no restricted step. -/
theorem matchSteps_unrestricted (h : matchSteps allowKey path qs last found = some m)
    (hm : m.widened = false) :
    found.widened = false ∧ ∀ n ∈ qs, n.step.isRestricted = false := by
  fun_induction matchSteps allowKey path qs last found <;> simp_all [QueryStep.isRestricted]

/-- An index path without fan-out meets its own field steps only. -/
theorem matchSteps_fields (hfan : ∀ s ∈ path, s.fansOut = false)
    (h : matchSteps allowKey path qs last found = some m) :
    ∃ names : List String, path = names.map .field ∧ qs.map (·.step) = names.map .field := by
  induction path generalizing qs found with
  | nil =>
    cases qs with
    | nil => exact ⟨[], rfl, rfl⟩
    | cons _ _ => cases h
  | cons s path ih =>
    cases s with
    | field name =>
      cases qs with
      | nil => simp [matchSteps] at h
      | cons n qs =>
        obtain ⟨step, input⟩ := n
        cases step with
        | field name' =>
          simp only [matchSteps] at h
          split at h
          · next heq =>
            obtain ⟨names, hpath, hnames⟩ := ih (fun s hs => hfan s (.tail _ hs)) h
            exact ⟨name :: names, by rw [hpath, map_cons], by
              rw [map_cons, hnames, map_cons, heq]⟩
          · cases h
        | _ => simp [matchSteps] at h
    | _ => cases hfan _ (.head _)

/-- A path meets an index path of the same fields, and exactly. -/
theorem matchSteps_fields_self {names : List String} (h : qs.map (·.step) = names.map .field) :
    matchSteps allowKey (names.map .field) qs last found = some found := by
  induction names generalizing qs with
  | nil =>
    cases qs with
    | nil => rfl
    | cons _ _ => cases h
  | cons name names ih =>
    cases qs with
    | nil => cases h
    | cons n qs =>
      obtain ⟨step, input⟩ := n
      obtain ⟨hstep, hrest⟩ := List.cons.inj h
      cases hstep
      simp only [map_cons, matchSteps, if_true]
      exact ih hrest

end

/-! ## Fields of an index -/

/-- The names of the fields on a path. -/
def IndexPath.names (p : IndexPath) : List String :=
  p.steps.filterMap fun
    | .field name => some name
    | _ => none

theorem IndexPath.names_of_steps_eq {p : IndexPath} {names : List String}
    (h : p.steps = names.map .field) : p.names = names := by
  rw [IndexPath.names, h, filterMap_map]
  exact filterMap_some

namespace AccessPath

theorem fansOut_of_mem_all (hpath : path ∈ all t) (hf : f ∈ path.fields) :
    f.path.fansOut = f.fansOut := by
  rcases mem_cons.1 hpath with rfl | hpath
  · obtain ⟨name, -, rfl⟩ := mem_map.1 hf
    rfl
  · obtain ⟨i, -, rfl⟩ := mem_map.1 hpath
    obtain ⟨pos, hpos, rfl⟩ := mem_mapIdx.1 hf
    rfl

theorem fansOutAt_eq_false (hsingle : path.isMultiKey = false) (pos : Nat) :
    path.fansOutAt pos = false := by
  unfold fansOutAt
  cases hf : path.fields[pos]? with
  | none => rfl
  | some f => simpa using any_eq_false.1 hsingle f (mem_of_getElem? hf)

/-- The keys of a map fan out. -/
theorem mapKeys?_eq_none (hpath : path ∈ all t) (hsingle : path.isMultiKey = false) :
    path.mapKeys? = none := by
  rcases mem_cons.1 hpath with rfl | hpath
  · rfl
  · obtain ⟨i, -, rfl⟩ := mem_map.1 hpath
    refine findIdx?_eq_none_iff.2 fun p hp => ?_
    obtain ⟨pos, hpos⟩ := getElem?_of_mem hp
    have hplain : p.fansOut = false := by
      have hfield := fansOutAt_eq_false hsingle pos
      simpa [fansOutAt, secondary, hpos] using hfield
    have hlast : p.keysMap? = none := by
      unfold IndexPath.keysMap?
      split
      · next hkeys =>
        have hfan := any_eq_false.1 hplain _ (mem_of_getLast? hkeys)
        exact absurd rfl hfan
      · rfl
    rw [hlast]
    rfl

section
variable {base : NodeId} (hpath : path ∈ all t) (hf : f ∈ path.fields)
include hpath hf

/-- A query path that meets a field without fan-out takes the fields on its path. -/
theorem isFieldChain_of_matchPath (hfan : f.fansOut = false)
    (hm : q.matchPath f.path allowKey = some m) (hclimbs : g.Climbs base id q.steps) :
    f.path.steps = f.path.names.map .field ∧ g.IsFieldChain base id f.path.names := by
  have hplain : f.path.fansOut = false := (fansOut_of_mem_all hpath hf).trans hfan
  obtain ⟨names, hnames, hq⟩ := matchSteps_fields (by simpa [IndexPath.fansOut] using hplain) hm
  rw [IndexPath.names_of_steps_eq hnames]
  exact ⟨hnames, hclimbs.isFieldChain hq⟩

theorem isFieldChain_of_holds (hholds : AccessField.holds f q) (hclimbs : g.Climbs base id q.steps) :
    f.path.steps = f.path.names.map .field ∧ g.IsFieldChain base id f.path.names := by
  obtain ⟨hfan, hexact⟩ := Bool.and_eq_true_iff.1 hholds
  obtain ⟨m, hm, -⟩ := (Option.any_eq_true _ _).1 hexact
  exact isFieldChain_of_matchPath hpath hf (by simpa using hfan) hm hclimbs

end

end AccessPath

end ShardedQuery
