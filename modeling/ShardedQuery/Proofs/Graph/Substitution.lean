import ShardedQuery.Proofs.Graph.Garbage
import ShardedQuery.Proofs.Graph.Retyping

/-!
# Replacement as substitution

`Graph.replace` puts a node into every slot that held another one. Before anything is removed, slots
and parent lists agree as they did (`Accounted.redirected`): the new node has its own parents and
those of the old one, and the old one has none. What is removed then is the garbage of the old node
in this graph. The new node is part of it only if the old one stood in no slot
(`Accounted.garbage_redirected_iff`).
-/

namespace ShardedQuery.Graph

open Relation List

variable {a b : NodeId} {g : Graph}

/-! ## Redirected slots -/

section
variable {old new v q : NodeId}

theorem rewired_false : g.rewired old new false = g.redirected old new := rfl

theorem rewired_true : g.rewired old new true = (g.redirected old new).destroy old := rfl

variable (hne : old ≠ new) (hg : g.Accounted) (hold : g.isLive old)

section
include hne hg hold

theorem expr_redirected_of_isLive (hv : g.isLive v) :
    (g.redirected old new).expr v = (g.expr v).mapChildren (redirect old new) := by
  rw [expr_redirected hne (hg.parents_lt hold)]
  split
  · rfl
  · next hmem =>
    refine (Expr.mapChildren_eq_self fun c hc => if_neg ?_).symm
    rintro rfl
    exact hmem ((hg.mem_parents_iff hold).2 ⟨hv, hc⟩)

theorem children_redirected_of_isLive (hv : g.isLive v) :
    (g.redirected old new).children v = (g.children v).map (redirect old new) := by
  rw [children, expr_redirected_of_isLive hne hg hold hv, Expr.children_mapChildren, children]

theorem isVar_redirected : ((g.redirected old new).expr v).isVar = (g.expr v).isVar :=
  (expr_redirected_cases hne (hg.parents_lt hold) v).isVar_eq

theorem declared_redirected : ((g.redirected old new).expr v).declared = (g.expr v).declared :=
  (expr_redirected_cases hne (hg.parents_lt hold) v).declared_eq

theorem isChild_redirected {c : NodeId} (h : (g.redirected old new).IsChild v c) :
    g.IsChild v c ∨ (g.IsChild v old ∧ c = new) := by
  rw [IsChild, children_redirected hne (hg.parents_lt hold)] at h
  split at h
  · next hmem =>
    obtain ⟨d, hd, rfl⟩ := mem_map.1 h
    by_cases hdold : d = old
    · rw [redirect, if_pos hdold]
      exact .inr ⟨hdold ▸ hd, rfl⟩
    · rw [redirect, if_neg hdold]
      exact .inl hd
  · exact .inl h

/-- A way through redirected slots takes no such slot, or leads from above the old node to what lies
below the new one. -/
theorem transGen_redirected (hreach : ¬ ReflTransGen g.IsChild new old)
    (h : TransGen (g.redirected old new).IsChild a b) :
    TransGen g.IsChild a b ∨
      (TransGen g.IsChild a old ∧ ReflTransGen g.IsChild new b) := by
  induction h with
  | single h =>
    rcases isChild_redirected hne hg hold h with hchild | ⟨hchild, rfl⟩
    · exact .inl (.single hchild)
    · exact .inr ⟨.single hchild, .refl⟩
  | tail _ hstep ih =>
    rcases isChild_redirected hne hg hold hstep with hchild | ⟨hchild, rfl⟩
    · exact ih.imp (fun h => .tail h hchild) fun h => ⟨h.1, .tail h.2 hchild⟩
    · rcases ih with h | ⟨-, h⟩
      · exact .inr ⟨.tail h hchild, .refl⟩
      · exact absurd (.tail h hchild) hreach

section
variable (hnew : g.isLive new)
include hnew

omit hne in
theorem count_parents_redirected_eq : ((g.redirected old new).parents v).count q =
    (if v = old then 0 else (g.parents v).count q) +
      if v = new then (g.parents old).count q else 0 := by
  rw [count_parents_redirected (hg.parents_lt hold) (lt_size_of_isLive hnew)]
  congr 1
  by_cases hq : q ∈ g.parents old
  · rw [hg.parents_count old hold, if_pos ((hg.mem_parents_iff hold).1 hq).1]
    simp [hq]
  · simp [hq, count_eq_zero_of_not_mem hq]

theorem parents_redirected_old : (g.redirected old new).parents old = [] := by
  refine eq_nil_iff_forall_not_mem.2 fun p hp => ?_
  have hpos := count_pos_iff.2 hp
  rw [count_parents_redirected_eq hg hold hnew, if_pos rfl,
    if_neg hne] at hpos
  exact Nat.lt_irrefl 0 hpos

end

theorem declaresVars_redirected (hvars : g.DeclaresVars) : (g.redirected old new).DeclaresVars := by
  intro p u hu
  rw [declared_redirected hne hg hold] at hu
  rw [isVar_redirected hne hg hold]
  exact hvars p u hu

end

include hne hg hold

section
variable (hnew : g.isLive new) (hreach : ¬ ReflTransGen g.IsChild new old)
include hnew hreach

/-- Redirecting slots keeps them in step with the parent lists. -/
theorem Accounted.redirected : (g.redirected old new).Accounted where
  children_live p hp c hc := by
    rw [isLive_redirected] at hp ⊢
    rw [children_redirected_of_isLive hne hg hold hp] at hc
    obtain ⟨d, hd, rfl⟩ := mem_map.1 hc
    rw [isVar_redirected hne hg hold, redirect]
    split
    · exact .inl hnew
    · exact hg.children_live p hp d hd
  parents_count c hc p := by
    rw [isLive_redirected] at hc ⊢
    rw [count_parents_redirected_eq hg hold hnew]
    by_cases hp : g.isLive p
    · rw [if_pos hp, children_redirected_of_isLive hne hg hold hp, count_map_redirect hne,
        hg.parents_count c hc, hg.parents_count old hold, if_pos hp, if_pos hp]
    · rw [if_neg hp, hg.parents_count c hc, hg.parents_count old hold, if_neg hp]
      simp [hp]
  acyclic v hv hcycle := by
    rw [isLive_redirected] at hv
    rcases transGen_redirected hne hg hold hreach hcycle with h | ⟨hbefore, hafter⟩
    · exact hg.acyclic v hv h
    · exact hreach (hafter.trans hbefore.to_reflTransGen)

/-- What stood over the old node is not removed with it. -/
theorem Accounted.not_garbage_of_mem_parents (hv : v ∈ g.parents old) :
    ¬ (g.redirected old new).Garbage old v := by
  intro hgarbage
  have hchild : g.IsChild v old := ((hg.mem_parents_iff hold).1 hv).2
  have hbelow := hgarbage.reached (hg.redirected hne hold hnew hreach).toTallied
  rcases Relation.reflTransGen_iff_eq_or_transGen.1 hbelow with rfl | hbelow
  · exact hg.acyclic v hold (.single hchild)
  · rcases transGen_redirected hne hg hold hreach hbelow with h | ⟨h, -⟩
    · exact hg.acyclic old hold (.tail h hchild)
    · exact hg.acyclic old hold h

/-- The new node is removed with the old one if only the old one used it, and if the old one stood
in no slot. -/
theorem Accounted.garbage_redirected_iff :
    (g.redirected old new).Garbage old new ↔ g.parents old = [] ∧ g.Garbage old new := by
  have hlive (v : NodeId) : (g.redirected old new).isLive v = g.isLive v := isLive_redirected
  have hvar (v : NodeId) : ((g.redirected old new).expr v).isVar = (g.expr v).isVar :=
    isVar_redirected hne hg hold
  -- If the old node stands in no slot, parents stay as they are.
  have hparents (hnil : g.parents old = []) (v : NodeId) (hvo : v ≠ old) (hv : g.isLive v)
      (p : NodeId) : p ∈ (g.redirected old new).parents v ↔ p ∈ g.parents v := by
    rw [← count_pos_iff, count_parents_redirected_eq hg hold hnew,
      if_neg hvo, hnil, ← count_pos_iff]
    simp
  constructor
  · intro hgarbage
    have hnil : g.parents old = [] := by
      refine eq_nil_iff_forall_not_mem.2 fun p hp => ?_
      refine hg.not_garbage_of_mem_parents hne hold hnew hreach hp
        (hgarbage.of_mem_parents (parents_redirected_old hne hg hold hnew) ?_)
      rw [← count_pos_iff,
        count_parents_redirected_eq hg hold hnew, if_neg (Ne.symm hne), if_pos rfl]
      exact Nat.add_pos_right _ (count_pos_iff.2 hp)
    refine ⟨hnil, hgarbage.transfer (fun v => (hlive v).symm) (fun v => (hvar v).symm) ?_⟩
    exact fun v hvo hv p => (hparents hnil v hvo (hlive v ▸ hv) p).symm
  · rintro ⟨hnil, hgarbage⟩
    exact hgarbage.transfer hlive hvar (hparents hnil)

end

end

/-! ## The main statement -/

/-- A replacement is a substitution in all slots and at the root, and what is removed with the old
node is what nothing else uses once its slots hold the new one, with the variables that are declared
there. The new node stays unless it belongs to this itself: if the old node stood in no slot and
nothing else used the new one, or if the new one is a variable that is declared there. The result is
consistent exactly if no node that stays uses a variable that goes. -/
theorem replace_substitutes {g : Graph} (hg : g.Consistent) (hvars : g.DeclaresVars)
    {old new : NodeId} (hold : g.isLive old) (hnew : g.isLive new) (hne : old ≠ new)
    (hreach : ¬ Relation.ReflTransGen g.IsChild new old) :
    let k := g.replace old new false
    let h := g.replace old new true
    (∀ v, h.isLive v ↔ g.isLive v ∧ ¬ k.GoesWith old v) ∧
    (∀ v, h.isLive v →
      h.expr v = (g.expr v).mapChildren (redirect old new) ∧ old ∉ h.children v) ∧
    h.root = g.root.map (redirect old new) ∧
    (∀ p, h.isLive new → (h.parents new).count p =
      (if h.isLive p then (g.parents new).count p else 0) + (g.parents old).count p) ∧
    (h.isLive new ↔ ¬ (g.parents old = [] ∧ g.Garbage old new) ∧
      ∀ d, k.Garbage old d → new ∉ (g.expr d).declared) ∧
    (h.Consistent ↔ ∀ d, k.Garbage old d → ∀ u ∈ (g.expr d).declared,
      ∀ p, h.isLive p → u ∉ h.children p) := by
  intro k h
  have hacc := hg.accounted
  have hr := hacc.redirected hne hold hnew hreach
  have hrvars := declaresVars_redirected hne hacc hold hvars
  have hrnil := parents_redirected_old hne hacc hold hnew
  have hrlive : (g.redirected old new).isLive old := isLive_redirected.trans hold
  have hk : SameShape (g.rewired old new false) k := sameShape_replace hne
  have hh : SameShape (g.rewired old new true) h := sameShape_replace hne
  rw [rewired_false] at hk
  rw [rewired_true] at hh
  have hsame := SameExprs.destroy (g.redirected old new) old
  have hlive : ∀ v, h.isLive v ↔ g.isLive v ∧ ¬ k.GoesWith old v := by
    intro v
    rw [hh.live_eq, hr.isLive_destroy hrvars hrlive hrnil, isLive_redirected, hk.goesWith_iff]
  have hexpr : ∀ v, g.isLive v → h.expr v = (g.expr v).mapChildren (redirect old new) := by
    intro v hv
    rw [hh.expr_eq, hsame.expr_eq, expr_redirected_of_isLive hne hacc hold hv]
  have hdeclared : ∀ d, (k.expr d).declared = (g.expr d).declared := fun d => by
    rw [hk.expr_eq, declared_redirected hne hacc hold]
  have hchildren : ∀ v, g.isLive v → h.children v = (g.children v).map (redirect old new) := by
    intro v hv
    rw [children, hexpr v hv, Expr.children_mapChildren, children]
  have hnot : ∀ v, g.isLive v → old ∉ h.children v := by
    intro v hv
    rw [hchildren v hv]
    exact not_mem_map_redirect hne
  have hgarbage : k.Garbage old new ↔ g.parents old = [] ∧ g.Garbage old new := by
    rw [hk.garbage_iff, hacc.garbage_redirected_iff hne hold hnew hreach]
  refine ⟨hlive, fun v hv => ⟨hexpr v ((hlive v).1 hv).1, hnot v ((hlive v).1 hv).1⟩,
    root_replace hne true, fun p hnewlive => ?_, ?_, ?_⟩
  · have hstays : ¬ (g.redirected old new).Garbage old new := fun hgone =>
      ((hlive new).1 hnewlive).2 (.inl (hk.garbage_iff.2 hgone))
    obtain ⟨hgone, hkept⟩ := hr.count_parents_destroy hrvars hrlive hrnil
      (isLive_redirected.trans hnew) hstays p
    rw [hh.parents_eq]
    by_cases hp : (g.redirected old new).Garbage old p
    · -- Garbage stood in no parent list of the old node.
      have hnotmem : p ∉ g.parents old := fun hmem =>
        hacc.not_garbage_of_mem_parents hne hold hnew hreach hmem hp
      rw [hgone hp, if_neg fun hplive => ((hlive p).1 hplive).2 (.inl (hk.garbage_iff.2 hp)),
        count_eq_zero_of_not_mem hnotmem]
    · rw [hkept hp, count_parents_redirected_eq hacc hold hnew,
        if_neg (Ne.symm hne), if_pos rfl]
      congr 1
      split
      · rfl
      · next hplive =>
        -- What is dead without being garbage was dead before, or it is a variable.
        rw [hacc.parents_count new hnew]
        split
        · next hplive' =>
          have hgoes : k.GoesWith old p := by
            by_contra hstays
            exact hplive ((hlive p).2 ⟨hplive', hstays⟩)
          obtain ⟨d, -, hdp⟩ := hgoes.resolve_left fun hgarb => hp (hk.garbage_iff.1 hgarb)
          rw [children_of_isVar (hvars d p (hdeclared d ▸ hdp)), count_nil]
        · rfl
  · rw [hlive, GoesWith, not_or, hgarbage]
    simp only [hnew, true_and, not_exists, not_and, hdeclared]
  · rw [consistent_iff]
    constructor
    · rintro ⟨-, hall⟩ d hd u hu p hp hmem
      exact ((hlive u).1 (hall p hp u hmem)).2 (.inr ⟨d, hd, (hdeclared d).symm ▸ hu⟩)
    · intro hall
      have hhacc := hh.accounted (hr.destroy hrvars hrlive hrnil)
      refine ⟨hhacc, fun p hp c hc => ?_⟩
      by_contra hdead
      have hplive := ((hlive p).1 hp).1
      have hvar : (g.expr c).isVar := by
        have := (hhacc.children_live p hp c hc).resolve_left hdead
        rwa [hh.expr_eq, hsame.expr_eq, isVar_redirected hne hacc hold] at this
      have hclive : g.isLive c := by
        rw [hchildren p hplive] at hc
        obtain ⟨d, hd, rfl⟩ := mem_map.1 hc
        rw [redirect]
        split
        · exact hnew
        · exact hg.children_live p hplive d hd
      have hgoes : k.GoesWith old c := by
        by_contra hstays
        exact hdead ((hlive c).2 ⟨hclive, hstays⟩)
      have hcold : c ≠ old := fun heq => hnot p hplive (heq ▸ hc)
      have hkvar : (k.expr c).isVar := by
        rwa [hk.expr_eq, isVar_redirected hne hacc hold]
      obtain ⟨d, hd, hdc⟩ := hgoes.exists_declared hkvar hcold
      exact hall d hd c (hdeclared d ▸ hdc) p hp hc

theorem not_reached_of_childless (ha : g.children a = []) (hne : a ≠ b) :
    ¬ ReflTransGen g.IsChild a b := by
  intro h
  rcases ReflTransGen.cases_head h with h | ⟨c, hc, -⟩
  · exact hne h
  · rw [IsChild, ha] at hc
    cases hc

/-- A block over a constant, in a list that also holds the constant. -/
def listedBlock : Graph :=
  let (c, g) := ({} : Graph).addLiteral (.boolean true)
  let (u, g) := g.addVar "$u" .row
  let (x, g) := g.addField u "x"
  let (b, g) := g.addDeclaring (.block { entries := [⟨c, u⟩], select := [⟨"x", x⟩] }) none
  let (l, g) := g.add (.array [b, c] false)
  g.setRoot l

/-- The constant takes the place of the block over it, which goes with its variable. -/
theorem replace_substitutes_listedBlock :
    listedBlock.Consistent ∧ listedBlock.DeclaresVars ∧
    (listedBlock.replace 3 0 true).isLive 0 ∧ (listedBlock.replace 3 0 true).Consistent ∧
    ∀ p, ((listedBlock.replace 3 0 true).parents 0).count p =
      (if (listedBlock.replace 3 0 true).isLive p then (listedBlock.parents 0).count p else 0) +
        (listedBlock.parents 3).count p := by
  have hg : listedBlock.Consistent := consistent_of_lt (by decide +kernel) (by decide +kernel)
    (by decide +kernel) (by decide +kernel)
  have hvars : listedBlock.DeclaresVars := declaresVars_of_lt (by decide +kernel)
  have hreach : ¬ Relation.ReflTransGen listedBlock.IsChild 0 3 :=
    not_reached_of_childless (by decide +kernel) (by decide)
  have hshape : SameShape (listedBlock.rewired 3 0 true) (listedBlock.replace 3 0 true) :=
    sameShape_replace (by decide)
  obtain ⟨-, -, -, hparents, hnew, hconsistent⟩ := replace_substitutes hg hvars
    (by decide +kernel : listedBlock.isLive 3) (by decide +kernel : listedBlock.isLive 0)
    (by decide) hreach
  have hnewlive : (listedBlock.replace 3 0 true).isLive 0 := by
    refine hnew.2 ⟨fun h => absurd h.1 (by decide +kernel), fun d _ hd => ?_⟩
    exact absurd (hvars d 0 hd) (by decide +kernel)
  refine ⟨hg, hvars, hnewlive, hconsistent.2 fun d _ u hu p hp => ?_, fun p => hparents p hnewlive⟩
  have hdead : ∀ p < listedBlock.size, (listedBlock.rewired 3 0 true).isLive p →
      ∀ u ∈ (listedBlock.rewired 3 0 true).children p, (listedBlock.expr u).isVar = false := by
    decide +kernel
  intro hmem
  rw [hshape.live_eq] at hp
  rw [children, hshape.expr_eq, ← children] at hmem
  have hlt : p < listedBlock.size := size_rewired ▸ lt_size_of_isLive hp
  have hvar := hvars d u hu
  rw [hdead p hlt hp u hmem] at hvar
  cases hvar

/-- The negation of a constant, as the root. -/
def negatedConstant : Graph :=
  let (c, g) := ({} : Graph).addLiteral (.boolean true)
  let (n, g) := g.addCall .not [c]
  g.setRoot n

/-- The constant takes the place of its negation at the root, and dies with it. -/
theorem replace_root_dies :
    negatedConstant.Consistent ∧ negatedConstant.isLive 1 ∧ negatedConstant.isLive 0 ∧
      ¬ Relation.ReflTransGen negatedConstant.IsChild 0 1 ∧
      (negatedConstant.replace 1 0 true).root = some 0 ∧
      (negatedConstant.replace 1 0 true).isLive 0 = false := by
  have hg : negatedConstant.Consistent := consistent_of_lt (by decide +kernel) (by decide +kernel)
    (by decide +kernel) (by decide +kernel)
  have hshape : SameShape (negatedConstant.rewired 1 0 true) (negatedConstant.replace 1 0 true) :=
    sameShape_replace (by decide)
  refine ⟨hg, by decide +kernel, by decide +kernel,
    not_reached_of_childless (by decide +kernel) (by decide), ?_, ?_⟩
  · rw [hshape.root_eq]
    decide +kernel
  · rw [hshape.live_eq]
    decide +kernel

end ShardedQuery.Graph
