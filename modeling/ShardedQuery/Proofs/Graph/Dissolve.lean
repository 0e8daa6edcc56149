import ShardedQuery.Proofs.Graph.Upkeep

/-!
# Taking conjunctions apart

A conjunction that is taken apart dies and is left without arguments. Nothing else changes but that
its arguments do not know it any more.
-/

namespace ShardedQuery.Graph

open List

variable {q v : NodeId} {g : Graph} {cs : List NodeId}

section
variable {call : NodeId} {args : List NodeId}

/-- Removing a node that uses and declares nothing. -/
theorem destroy_of_childless {id : NodeId} (hchildren : g.children id = [])
    (hdeclared : (g.expr id).declared = []) :
    g.destroy id = if g.isLive id then g.kill id else g := by
  rw [destroy, sweep]
  split
  · simp only [hchildren, hdeclared, release, reverse_nil, nil_append, foldl_nil]
    cases g.slotCount <;> rfl
  · cases g.slotCount <;> rfl

theorem root_dissolve (call : NodeId) (args : List NodeId) :
    (g.dissolve call args).root = g.root :=
  (root_sweep _ _ _).trans (root_foldl (fun h a => h.unlink call a) (fun _ _ => rfl) args g)

/-- What a conjunction that is taken apart makes of the nodes. -/
theorem node_dissolve (hcall : g.expr call = .call .and args) (v : NodeId) :
    (g.dissolve call args).node v =
      if v = call then { (args.foldl (fun k a => k.unlink call a) g).node v with
        expr := .call .and []
        parents := if g.isLive call then [] else
          (args.foldl (fun k a => k.unlink call a) g).parents v
        live := false }
      else (args.foldl (fun k a => k.unlink call a) g).node v := by
  have hlt : call < g.size := lt_size_of_expr (by rw [hcall]; simp)
  let k := args.foldl (fun k a => k.unlink call a) g
  have hsame : SameExprs g k := SameExprs.foldl (fun k a => SameExprs.unlink k call a) args g
  have hexpr : (k.setExpr call (.call .and [])).expr call = .call .and [] := by
    rw [setExpr, expr_modifyExpr, if_pos ⟨rfl, hsame.size_eq ▸ hlt⟩]
  have hlive : (k.setExpr call (.call .and [])).isLive call = g.isLive call := by
    rw [setExpr, isLive_modifyExpr, isLive_unlinkAll]
  have heq : g.dissolve call args = (k.setExpr call (.call .and [])).destroy call := rfl
  rw [heq, destroy_of_childless (by rw [children, hexpr]; rfl) (by rw [hexpr]; rfl), hlive]
  have hnode : (k.setExpr call (.call .and [])).node v =
      if v = call then { k.node v with expr := .call .and [] } else k.node v := by
    rw [setExpr, modifyExpr, node_modify]
    by_cases hv : v = call
    · rw [if_pos ⟨hv, hsame.size_eq ▸ hv ▸ hlt⟩, if_pos hv]
    · rw [if_neg fun h => hv h.1, if_neg hv]
  have hsize : (k.setExpr call (.call .and [])).size = g.size := by
    rw [setExpr, modifyExpr, size_modify, hsame.size_eq]
  by_cases hv : v = call
  · rw [if_pos hv]
    by_cases hl : g.isLive call
    · rw [if_pos hl, node_kill, if_pos hv, hnode, if_pos hv, if_pos hl]
    · rw [if_neg hl, hnode, if_pos hv, if_neg hl]
      have hdead : (k.node v).live = false := by
        have := isLive_unlinkAll (g := g) (v := v) call args
        rw [isLive] at this
        rw [this, hv]
        exact Bool.eq_false_iff.2 hl
      rw [← hdead]
      rfl
  · rw [if_neg hv]
    split
    · rw [node_kill, if_neg hv, hnode, if_neg hv]
    · rw [hnode, if_neg hv]

section
variable (hcall : g.expr call = .call .and args)
include hcall

theorem isLive_dissolve (v : NodeId) :
    (g.dissolve call args).isLive v = if v = call then false else g.isLive v := by
  rw [isLive, node_dissolve hcall]
  split
  · rfl
  · exact isLive_unlinkAll call args

theorem type?_dissolve (v : NodeId) : (g.dissolve call args).type? v = g.type? v := by
  rw [type?, node_dissolve hcall]
  split
  · exact type?_unlinkAll call args
  · exact type?_unlinkAll call args

theorem mem_parents_dissolve (hq : q ∈ (g.dissolve call args).parents v) : q ∈ g.parents v := by
  rw [parents, node_dissolve hcall] at hq
  split at hq
  · dsimp only at hq
    split at hq
    · cases hq
    · exact (parents_unlinkAll call args).1 q hq
  · exact (parents_unlinkAll call args).1 q hq

theorem count_parents_dissolve (hv : v ≠ call) (hq : q ≠ call) :
    ((g.dissolve call args).parents v).count q = (g.parents v).count q := by
  rw [parents, node_dissolve hcall, if_neg hv]
  exact (parents_unlinkAll call args).2 q hq

/-- Nothing but conjunctions changes, -/
theorem expr_dissolve_eq_iff {e : Expr} (he : e.isConjunction = false) :
    (g.dissolve call args).expr v = e ↔ g.expr v = e := by
  have hand (as : List NodeId) : Expr.call .and as ≠ e := by
    rintro rfl
    cases he
  rw [expr_dissolve hcall]
  split
  · next hv => simp [hv, hcall, hand]
  · rfl

theorem scan?_dissolve (v : NodeId) : (g.dissolve call args).scan? v = g.scan? v :=
  Option.ext fun s => by rw [scan?_eq_some, expr_dissolve_eq_iff hcall rfl, scan?_eq_some]

/-- and these declare nothing and are no source. -/
theorem declared_dissolve (v : NodeId) :
    ((g.dissolve call args).expr v).declared = (g.expr v).declared := by
  rw [expr_dissolve hcall]
  split
  · next hv =>
    rw [hv, hcall]
    rfl
  · rfl

theorem reforms_dissolve : Reforms (fun _ => False) g (g.dissolve call args) := by
  refine ⟨Nat.le_of_eq (size_dissolve ..).symm, fun v _ => ?_, fun v hge hlt => ?_⟩
  · rw [expr_dissolve hcall]
    split
    · next hv => exact hv ▸ hcall ▸ .conjunction args
    · exact .refl _
  · exact absurd hge (not_le.2 (size_dissolve g call args ▸ hlt))

theorem LinkedAs.dissolve {p : NodeId} (hg : g.LinkedAs p cs) :
    (g.dissolve call args).LinkedAs p cs := by
  have hlive {v : NodeId} (hv : (g.dissolve call args).isLive v) : v ≠ call ∧ g.isLive v := by
    rw [isLive_dissolve hcall] at hv
    have hne : v ≠ call := fun h => by simp [h] at hv
    exact ⟨hne, by rwa [if_neg hne] at hv⟩
  refine hg.of_same (size_dissolve ..) (fun v hv => (hlive hv).2)
    (fun v q hq => mem_parents_dissolve hcall hq)
    (fun c q hc hq => count_parents_dissolve hcall (hlive hc).1 (hlive hq).1) (fun q _ hq => ?_)
    fun q _ hq hscan => ?_
  · rw [expr_dissolve hcall]
    split
    · rfl
    · exact hq
  · rw [expr_dissolve hcall, if_neg (hlive hq).1] at hscan
    exact ⟨hscan, by rw [children, expr_dissolve hcall, if_neg (hlive hq).1, children]⟩

theorem Linked.dissolve (hg : g.Linked) : (g.dissolve call args).Linked := by
  rw [linked_iff_linkedAs (size_dissolve g call args).le]
  exact ((linked_iff_linkedAs le_rfl).1 hg).dissolve hcall

theorem Scoped.dissolve (hg : g.Scoped)
    (hin : ∀ p, (g.expr p).isScan = false → ∀ c ∈ g.children p, c < g.size) :
    (g.dissolve call args).Scoped := by
  refine (reforms_dissolve hcall).scoped hg hin (fun v _ hv => ?_) (fun p hp hmem => ?_)
    fun _ hu => hu.elim
  · rw [isLive_dissolve hcall] at hv
    split at hv
    · cases hv
    · exact hv
  · rwa [isLive_dissolve hcall, if_neg]
    rintro rfl
    exact hmem (by rw [hcall]; rfl)

end

end

/-! ## A new WHERE clause -/

section
variable {block : NodeId}

theorem isLive_withoutCondition : (g.withoutCondition block).isLive v ↔
    g.isLive v ∧ ¬ g.TakesApart block v := by
  rcases g.withoutCondition_cases block with
    ⟨hnot, ⟨-, h⟩ | ⟨old, -, h⟩⟩ | ⟨old, args, hold, hcall, h⟩
  · simp [h, hnot v]
  · simp [h, hnot v, isLive_unlink]
  · rw [h, isLive_dissolve hcall, isLive_unlink, hold.iff_eq]
    split <;> simp_all

theorem type?_withoutCondition : (g.withoutCondition block).type? v = g.type? v := by
  rcases g.withoutCondition_cases block with ⟨-, ⟨-, h⟩ | ⟨old, -, h⟩⟩ | ⟨old, args, -, hcall, h⟩
  · rw [h]
  · rw [h, type?_unlink]
  · rw [h, type?_dissolve hcall, type?_unlink]

theorem size_reconditioned : (g.reconditioned block cs).size =
    if 2 ≤ cs.length then g.size + 1 else g.size := by
  rw [reconditioned, modifyBlock, modifyExpr, size_modify,
    (g.sameExprs_linkedCondition block cs).size_eq, size_withCondition]

theorem expr_reconditioned (hv : v ≠ block) : (g.reconditioned block cs).expr v =
    if v = g.size ∧ 2 ≤ cs.length then .call .and cs
    else if g.TakesApart block v then .call .and [] else g.expr v := by
  rw [reconditioned, expr_modifyBlock_of_ne hv, (g.sameExprs_linkedCondition block cs).expr_eq,
    expr_withCondition]

theorem isLive_reconditioned : (g.reconditioned block cs).isLive v ↔
    (v = g.size ∧ 2 ≤ cs.length) ∨ (g.isLive v ∧ ¬ g.TakesApart block v) := by
  rw [reconditioned, modifyBlock, isLive_modifyExpr, linkedCondition, isLive_linkAll, withCondition,
    ← isLive_withoutCondition]
  rcases addCondition_cases (g.withoutCondition block) cs with ⟨h2, h, -⟩ | ⟨h2, h⟩
  · simp [h, not_le.2 h2]
  · simp [h, h2, isLive_add_iff, size_withoutCondition]

theorem type?_reconditioned : (g.reconditioned block cs).type? v = g.type? v := by
  rw [reconditioned, modifyBlock, type?_modifyExpr, linkedCondition, type?_linkAll, withCondition]
  rcases addCondition_cases (g.withoutCondition block) cs with ⟨-, h, -⟩ | ⟨-, h⟩
  · rw [h, type?_withoutCondition]
  · rw [h, type?_add, type?_withoutCondition]

theorem newCondition_eq_some {c : NodeId} : g.newCondition block cs = some c ↔
    cs = [c] ∨ (2 ≤ cs.length ∧ c = g.size) := by
  rcases addCondition_cases (g.withoutCondition block) cs with ⟨h2, -, h⟩ | ⟨h2, h⟩
  · rw [newCondition, ← Option.toList_eq_singleton_iff, h]
    simp [not_le.2 h2]
  · have hne : cs ≠ [c] := by
      rintro rfl
      exact absurd h2 (by simp)
    simp [newCondition, h, h2, hne, size_withoutCondition, eq_comm]

end

end ShardedQuery.Graph
