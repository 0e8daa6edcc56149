import ShardedQuery.Proofs.Graph.Insert
import ShardedQuery.Proofs.Graph.WellTyped

/-!
# Putting one node in the place of another

After `Graph.replace` the new node stands in every slot of a recorded parent that held the old one,
and at the root if the old one stood there. All other expressions are as they were. Before anything is
removed this is the graph `Graph.redirected`, and before anything is refreshed `Graph.rewired`. Links
are in order in both of them if they were.
-/

namespace ShardedQuery.Graph

open List

variable {g : Graph} {p : NodeId}

/-! ## Redirected slots -/

section
variable {old new v q : NodeId}

/-- The slots of `p` are redirected, and no others. -/
theorem expr_redirectSlots (hv : v < g.size) (p : NodeId) : (g.redirectSlots old new p).expr v =
    if v = p then (g.expr v).mapChildren (redirect old new) else g.expr v := by
  have hlink : SameExprs (g.modifyExpr p (·.mapChildren (redirect old new)))
      (g.redirectSlots old new p) := SameExprs.modify _ new fun _ => rfl
  rw [hlink.expr_eq, expr_modifyExpr]
  simp only [hv, and_true]

theorem size_redirectSlots (p : NodeId) : (g.redirectSlots old new p).size = g.size := by
  simp only [redirectSlots, modifyExpr, size_modify]

/-- The new node gets `p` as parent once for each slot. -/
theorem parents_redirectSlots : (g.redirectSlots old new p).parents v = g.parents v ++
    if v = new ∧ v < g.size then List.replicate ((g.children p).count old) p else [] := by
  rw [redirectSlots, parents, node_modify, modifyExpr, size_modify]
  have hparents : ((g.modifyExpr p (·.mapChildren (redirect old new))).node v).parents =
      g.parents v := parents_modifyExpr p _
  split
  · exact congrArg (· ++ _) hparents
  · rw [append_nil]
    exact hparents

theorem isLive_redirectSlots : (g.redirectSlots old new p).isLive v = g.isLive v := by
  rw [redirectSlots, isLive, node_modify]
  have hlive : ((g.modifyExpr p (·.mapChildren (redirect old new))).node v).live = g.isLive v :=
    isLive_modifyExpr p _
  split <;> exact hlive

theorem type?_redirectSlots : (g.redirectSlots old new p).type? v = g.type? v := by
  rw [redirectSlots, type?, node_modify]
  have htype : ((g.modifyExpr p (·.mapChildren (redirect old new))).node v).type = g.type? v :=
    type?_modifyExpr p _
  split <;> exact htype

theorem redirectAll_cons (ps : List NodeId) :
    redirectAll old new (p :: ps) g = redirectAll old new ps (g.redirectSlots old new p) := rfl

theorem size_redirectSlotsAll (ps : List NodeId) : ∀ {g : Graph},
    (redirectAll old new ps g).size = g.size := by
  induction ps with
  | nil => exact rfl
  | cons p ps ih =>
    intro g
    rw [redirectAll_cons, ih, size_redirectSlots]

/-- Redirecting the slots of several nodes, some of them perhaps more than once. -/
theorem expr_redirectSlotsAll (hne : new ≠ old) (hv : v < g.size) (ps : List NodeId) :
    (redirectAll old new ps g).expr v =
      if v ∈ ps then (g.expr v).mapChildren (redirect old new) else g.expr v := by
  induction ps generalizing g with
  | nil => simp [redirectAll]
  | cons p ps ih =>
    have hv' : v < (g.redirectSlots old new p).size := by rwa [size_redirectSlots]
    rw [redirectAll_cons, ih hv', expr_redirectSlots hv]
    by_cases hp : v = p <;> by_cases hps : v ∈ ps <;>
      simp [hp, hps, Expr.mapChildren_mapChildren, redirect_comp_self hne]

theorem root_redirectSlotsAll (ps : List NodeId) : (redirectAll old new ps g).root = g.root :=
  root_foldl _ (fun _ _ => by rfl) ps g

theorem isLive_redirectAll (ps : List NodeId) : ∀ {g : Graph},
    (redirectAll old new ps g).isLive v = g.isLive v := by
  induction ps with
  | nil => exact rfl
  | cons p ps ih => exact ih.trans isLive_redirectSlots

theorem type?_redirectAll (ps : List NodeId) : ∀ {g : Graph},
    (redirectAll old new ps g).type? v = g.type? v := by
  induction ps with
  | nil => exact rfl
  | cons p ps ih => exact ih.trans type?_redirectSlots

/-- Only nodes whose slots are redirected become parents. -/
theorem of_mem_parents_redirectAll (ps : List NodeId) : ∀ {g : Graph},
    q ∈ (redirectAll old new ps g).parents v → q ∈ g.parents v ∨ q ∈ ps := by
  induction ps with
  | nil => exact .inl
  | cons p ps ih =>
    intro g hq
    rcases ih hq with hq | hq
    · rw [parents_redirectSlots, mem_append] at hq
      refine hq.imp_right fun hq => ?_
      split at hq
      · exact eq_of_mem_replicate hq ▸ (.head _)
      · cases hq
    · exact .inr (.tail _ hq)

/-- The new node gets an entry for each slot that is redirected. -/
theorem count_parents_redirectAll {ps : List NodeId} (hps : ps.Nodup) (hlt : ∀ p ∈ ps, p < g.size)
    (hnew : new < g.size) :
    ((redirectAll old new ps g).parents v).count q =
      (g.parents v).count q + if v = new ∧ q ∈ ps then (g.children q).count old else 0 := by
  induction ps generalizing g with
  | nil => simp [redirectAll]
  | cons p ps ih =>
    obtain ⟨hp, hps⟩ := nodup_cons.1 hps
    have hsize : (g.redirectSlots old new p).size = g.size := size_redirectSlots p
    rw [redirectAll_cons, ih hps (fun x hx => hsize ▸ hlt x (mem_cons_of_mem p hx))
      (hsize ▸ hnew), parents_redirectSlots, count_append]
    by_cases hvn : v = new
    · subst hvn
      rw [if_pos ⟨rfl, hnew⟩, count_replicate]
      by_cases hqp : q = p
      · subst hqp
        simp [hp]
      · by_cases hqs : q ∈ ps
        · have hq : (g.redirectSlots old v p).children q = g.children q := by
            rw [children, expr_redirectSlots (hlt q (mem_cons_of_mem p hqs)), if_neg hqp,
              children]
          simp [hqs, hq, Ne.symm hqp]
        · simp [hqs, hqp, Ne.symm hqp]
    · simp [hvn]

end

/-! ## Before anything is refreshed -/

/-- The order of the parents is of no concern here. -/
theorem mem_parentsInOrder {id : NodeId} : p ∈ g.parentsInOrder id ↔ p ∈ g.parents id :=
  (eraseReps_mergeSort_spec (g.parents id)).1 p

section
variable {old new v q : NodeId} {dispose : Bool}

/-- To move the root touches no node. -/
theorem node_redirected : (g.redirected old new).node v =
    (redirectAll old new (g.parentsInOrder old) (g.detach old)).node v := by
  unfold redirected
  dsimp only
  split <;> rfl

theorem size_redirected : (g.redirected old new).size = g.size := by
  have hroot (h : Graph) : (if h.root = some old then h.setRoot new else h).size = h.size := by
    split <;> rfl
  rw [redirected, hroot, size_redirectSlotsAll, detach, size_modify]

/-- The root is redirected as slots are. -/
theorem root_redirected : (g.redirected old new).root = g.root.map (redirect old new) := by
  have hkeep : (g.detach old).root = g.root := rfl
  rw [redirected, root_redirectSlotsAll, hkeep]
  cases hr : g.root with
  | none => simp [root_redirectSlotsAll, hkeep, hr]
  | some r =>
    by_cases hold : r = old
    · simp [hold, setRoot, redirect]
    · simp [hold, root_redirectSlotsAll, hkeep, hr, redirect]

theorem isLive_redirected : (g.redirected old new).isLive v = g.isLive v := by
  rw [isLive, node_redirected, ← isLive, isLive_redirectAll, isLive, node_detach]
  split <;> rfl

theorem type?_redirected : (g.redirected old new).type? v = g.type? v := by
  rw [type?, node_redirected, ← type?, type?_redirectAll, type?, node_detach]
  split <;> rfl

/-- What is removed is removed last. -/
theorem removes_rewired : Removes (g.redirected old new) (g.rewired old new dispose) := by
  unfold rewired
  split
  · exact .destroy old
  · exact .refl _

theorem size_rewired : (g.rewired old new dispose).size = g.size :=
  removes_rewired.size_eq.trans size_redirected

/-- Parents were parents of some node before. -/
theorem exists_of_mem_parents_redirected (hp : p ∈ (g.redirected old new).parents v) :
    ∃ u, p ∈ g.parents u := by
  rw [parents, node_redirected] at hp
  rcases of_mem_parents_redirectAll _ hp with hp | hp
  · rw [parents, node_detach] at hp
    split at hp
    · cases hp
    · exact ⟨v, hp⟩
  · exact ⟨old, mem_parentsInOrder.1 hp⟩

/-- The same after the removal. -/
theorem exists_of_mem_parents_rewired (hp : p ∈ (g.rewired old new dispose).parents v) :
    ∃ u, p ∈ g.parents u :=
  exists_of_mem_parents_redirected (removes_rewired.mem_parents v p hp)

variable (hne : old ≠ new)
include hne

/-- In the end the parents are refreshed. -/
theorem replace_eq : g.replace old new dispose =
    (g.parentsInOrder old).foldl refresh (g.rewired old new dispose) :=
  if_neg hne

/-- To refresh changes types only. -/
theorem sameShape_replace : SameShape (g.rewired old new dispose) (g.replace old new dispose) := by
  rw [replace_eq hne]
  exact .refreshAll _ _

theorem root_replace (dispose : Bool) :
    (g.replace old new dispose).root = g.root.map (redirect old new) := by
  rw [(sameShape_replace hne).root_eq, removes_rewired.root_eq, root_redirected]

/-- Expressions of parents are redirected, others stay. -/
theorem expr_redirected_of_lt (hv : v < g.size) : (g.redirected old new).expr v =
    if v ∈ g.parents old then (g.expr v).mapChildren (redirect old new) else g.expr v := by
  have hclear := SameExprs.detach g old
  rw [expr, node_redirected, ← expr, expr_redirectSlotsAll (Ne.symm hne) (hclear.size_eq ▸ hv),
    hclear.expr_eq]
  simp only [mem_parentsInOrder]

/-- The same after all of it. -/
theorem expr_replace (dispose : Bool) (hv : v < g.size) : (g.replace old new dispose).expr v =
    if v ∈ g.parents old then (g.expr v).mapChildren (redirect old new) else g.expr v := by
  rw [(sameShape_replace hne).expr_eq, removes_rewired.expr_eq, expr_redirected_of_lt hne hv]

variable (hlt : ∀ p ∈ g.parents old, p < g.size)
include hlt

/-- The same at any node, as parents are nodes. -/
theorem expr_redirected : (g.redirected old new).expr v =
    if v ∈ g.parents old then (g.expr v).mapChildren (redirect old new) else g.expr v := by
  rcases Nat.lt_or_ge v g.size with hv | hv
  · exact expr_redirected_of_lt hne hv
  · rw [if_neg fun h => not_lt.2 hv (hlt v h), expr_of_size_le hv,
      expr_of_size_le (by rwa [size_redirected])]

/-- The same after the removal. -/
theorem expr_rewired : (g.rewired old new dispose).expr v =
    if v ∈ g.parents old then (g.expr v).mapChildren (redirect old new) else g.expr v :=
  (removes_rewired.expr_eq v).trans (expr_redirected hne hlt)

/-- Each expression is redirected or as it was. -/
theorem expr_redirected_cases (v : NodeId) :
    Expr.Redirected old new (g.expr v) ((g.redirected old new).expr v) := by
  rw [expr_redirected hne hlt]
  split
  · exact .inr rfl
  · exact .inl rfl

/-- The same after the removal. -/
theorem expr_rewired_cases (v : NodeId) :
    Expr.Redirected old new (g.expr v) ((g.rewired old new dispose).expr v) :=
  removes_rewired.expr_eq v ▸ expr_redirected_cases hne hlt v

/-- What stands in the slots. -/
theorem children_redirected : (g.redirected old new).children v =
    if v ∈ g.parents old then (g.children v).map (redirect old new) else g.children v := by
  rw [children, expr_redirected hne hlt]
  split
  · rw [Expr.children_mapChildren, children]
  · rfl

variable (hnew : new < g.size)
include hnew

omit hne in
/-- The old node loses its parents, and the new one gets an entry for each slot. -/
theorem count_parents_redirected : ((g.redirected old new).parents v).count q =
    (if v = old then 0 else (g.parents v).count q) +
      if v = new ∧ q ∈ g.parents old then (g.children q).count old else 0 := by
  have hclear := SameExprs.detach g old
  have hnodup : (g.parentsInOrder old).Nodup := (eraseReps_mergeSort_spec _).2
  rw [parents, node_redirected, ← parents, count_parents_redirectAll hnodup
    (fun p hp => hclear.size_eq ▸ hlt p (mem_parentsInOrder.1 hp)) (hclear.size_eq ▸ hnew), children,
    hclear.expr_eq, ← children]
  simp only [mem_parentsInOrder]
  congr 1
  rw [parents, node_detach]
  split <;> rfl

/-- The slots that are redirected are known to the new node. -/
theorem Linked.redirected (hg : g.Linked) : (g.redirected old new).Linked := by
  refine ⟨fun v p hp => ?_, fun v p hp => ?_, fun p hp hscan c hc => ?_⟩
  · obtain ⟨u, hu⟩ := exists_of_mem_parents_redirected hp
    rw [size_redirected]
    exact hg.parents_lt u p hu
  · obtain ⟨u, hu⟩ := exists_of_mem_parents_redirected hp
    rw [(expr_redirected_cases hne hlt p).isLeaf_eq]
    exact hg.parents_inner u p hu
  · rw [isLive_redirected] at hp hc
    rw [(expr_redirected_cases hne hlt p).isScan_eq] at hscan
    rw [children_redirected hne hlt, count_parents_redirected hlt hnew]
    exact count_redirected_le (n := fun c => (g.parents c).count p) hne
      count_eq_zero_of_not_mem (hg.slots p hp hscan c hc)

/-- Links stay in order after the removal. -/
theorem Linked.rewired (hg : g.Linked) : (g.rewired old new dispose).Linked :=
  removes_rewired.linked (hg.redirected hne hlt hnew)

end

end ShardedQuery.Graph
