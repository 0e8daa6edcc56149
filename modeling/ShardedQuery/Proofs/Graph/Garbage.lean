import Mathlib
import ShardedQuery.Proofs.Graph.Tally
import ShardedQuery.Proofs.Graph.WellTyped

/-!
# Removing what nothing uses

In a graph whose parent lists agree with its child slots, `Graph.destroy` removes a node together
with its garbage, the nodes that are only used from there, and with the variables that these
declare (`Tallied.isLive_destroy`). The nodes that stay lose the entries of the garbage from
their parent lists and nothing else (`Tallied.count_parents_destroy`).

The removal works through a stack. `Graph.Swept` is what holds between two steps: what was removed
and what waits on the stack is garbage, and whatever has no parents left but the removed ones is
among it. Dead nodes may stand in slots and come up on the stack, too; they are passed over.
-/

namespace ShardedQuery.Graph

open List

variable {g h : Graph} {p v c id : NodeId} {cs : List NodeId}

/-! ## Garbage -/

/-- What is only used from a node: the node itself, and everything alive, variables apart, whose
parents are all garbage. -/
inductive Garbage (g : Graph) (id : NodeId) : NodeId → Prop
  | self : Garbage g id id
  | used {v : NodeId} (hlive : g.isLive v) (hvar : (g.expr v).isVar = false)
      (hused : g.parents v ≠ []) (hparents : ∀ p ∈ g.parents v, Garbage g id p) : Garbage g id v

/-- What goes with a node: its garbage, and the variables that the garbage declares. -/
def GoesWith (g : Graph) (id v : NodeId) : Prop :=
  g.Garbage id v ∨ ∃ d, g.Garbage id d ∧ v ∈ (g.expr d).declared

theorem declaresVars_of_lt
    (h : ∀ p < g.size, ∀ u ∈ (g.expr p).declared, (g.expr u).isVar) : g.DeclaresVars := by
  intro p u hu
  rcases Nat.lt_or_ge p g.size with hp | hp
  · exact h p hp u hu
  · rw [expr_of_size_le hp] at hu
    cases hu

/-! ## Taking out the slots of one node -/

theorem release_snd (id : NodeId) (cs : List NodeId) (g : Graph) :
    (g.release id cs).2 = cs.foldl (fun g c => g.unlink id c) g := by
  induction cs generalizing g with
  | nil => rfl
  | cons c cs ih =>
    rw [release]
    dsimp only
    split <;> exact ih (g.unlink id c)

theorem release_cons (id c : NodeId) (cs : List NodeId) (g : Graph) :
    (g.release id (c :: cs)).1 =
      if ((g.unlink id c).parents c).isEmpty && !((g.unlink id c).expr c).isVar then
        c :: ((g.unlink id c).release id cs).1
      else ((g.unlink id c).release id cs).1 := by
  rw [release]
  dsimp only
  split <;> rfl

theorem release_sublist (id : NodeId) (cs : List NodeId) (g : Graph) :
    (g.release id cs).1.Sublist cs := by
  induction cs generalizing g with
  | nil => exact .slnil
  | cons c cs ih =>
    rw [release_cons]
    split
    · exact (ih _).cons_cons c
    · exact (ih _).cons c

theorem not_isVar_of_mem_release (h : c ∈ (g.release id cs).1) : (g.expr c).isVar = false := by
  induction cs generalizing g with
  | nil => cases h
  | cons x cs ih =>
    have hsame := SameExprs.unlink g id x
    rw [release_cons] at h
    split at h
    · next horphan =>
      rcases mem_cons.1 h with rfl | h
      · simpa [hsame.expr_eq] using (Bool.and_eq_true_iff.1 horphan).2
      · exact hsame.expr_eq c ▸ ih h
    · exact hsame.expr_eq c ▸ ih h

/-- A node whose slots are recorded exactly comes up once, at its last slot, if it has no other
parents. -/
theorem count_release (hlt : c < g.size) (hvar : (g.expr c).isVar = false)
    (hcount : (g.parents c).count id = cs.count c) :
    (g.release id cs).1.count c = if c ∈ cs ∧ ∀ p ∈ g.parents c, p = id then 1 else 0 := by
  induction cs generalizing g with
  | nil => simp [release]
  | cons x cs ih =>
    have hsame := SameExprs.unlink g id x
    have ih' := ih (hsame.size_eq.symm ▸ hlt) (hsame.expr_eq c ▸ hvar)
    rw [release_cons]
    by_cases hxc : x = c
    · subst hxc
      have hparents : (g.unlink id x).parents x = withoutOne id (g.parents x) := by
        rw [parents_unlink, if_pos ⟨rfl, hlt⟩]
      rw [count_cons_self] at hcount
      have hid : id ∈ g.parents x := count_pos_iff.1 (by omega)
      have hrest : ((g.unlink id x).parents x).count id = cs.count x := by
        rw [hparents, count_withoutOne, if_pos rfl, hcount, Nat.add_sub_cancel]
      have hperm := withoutOne_perm id (g.parents x)
      rw [← hparents] at hperm
      -- Whether all parents are the node does not depend on the entry that is taken out.
      have hall : (∀ p ∈ (g.unlink id x).parents x, p = id) ↔ ∀ p ∈ g.parents x, p = id := by
        refine ⟨fun h p hp => ?_, fun h p hp => h p (mem_of_mem_erase (hperm.mem_iff.1 hp))⟩
        by_contra hne
        exact hne (h p (hperm.mem_iff.2 ((mem_erase_of_ne hne).2 hp)))
      rw [hsame.expr_eq, hvar, Bool.not_false, Bool.and_true]
      simp only [hall] at ih'
      by_cases hnil : (g.unlink id x).parents x = []
      · have hnot : x ∉ cs := by
          rw [hnil, count_nil] at hrest
          exact count_eq_zero.1 hrest.symm
        have hsingle : ∀ p ∈ g.parents x, p = id := hall.1 (by simp [hnil])
        rw [if_pos (isEmpty_iff.2 hnil), count_cons_self, ih' hrest,
          if_neg fun h => hnot h.1, if_pos ⟨.head _, hsingle⟩]
      · rw [if_neg fun h => hnil (isEmpty_iff.1 h), ih' hrest]
        have hmem (h : ∀ p ∈ g.parents x, p = id) : x ∈ cs := by
          obtain ⟨p, hp⟩ := exists_mem_of_ne_nil _ hnil
          rw [← count_pos_iff, ← hrest, count_pos_iff]
          exact hall.2 h p hp ▸ hp
        exact if_congr ⟨fun h => ⟨.head _, h.2⟩, fun h => ⟨hmem h.2, h.2⟩⟩ rfl rfl
    · have hparents : (g.unlink id x).parents c = g.parents c := by
        rw [parents_unlink, if_neg fun h => hxc h.1.symm]
      rw [count_cons_of_ne hxc] at hcount
      have hrest := ih' (hparents.symm ▸ hcount)
      simp only [mem_cons, Ne.symm hxc, false_or, hparents] at hrest ⊢
      rw [← hrest]
      split
      · rw [count_cons_of_ne hxc]
      · rfl

/-! ## One step of the removal -/

theorem parents_buryAll (us : List NodeId) (g : Graph) (v : NodeId) :
    (us.foldl bury g).parents v = g.parents v := by
  induction us generalizing g with
  | nil => rfl
  | cons u us ih =>
    rw [foldl_cons, ih, parents, bury, node_modify, parents]
    split <;> rfl

/-- What a node of the stack puts there. -/
def orphans (g : Graph) (id : NodeId) : List NodeId := ((g.kill id).release id (g.children id)).1

theorem sweep_cons (hid : g.isLive id) (n : Nat) (work : List NodeId) :
    sweep (n + 1) (id :: work) g = sweep n ((g.orphans id).reverse ++ work) (g.sweepOne id) := by
  rw [sweep, if_pos hid]
  rfl

theorem sweep_cons_of_dead (hid : ¬ g.isLive id) (n : Nat)
    (work : List NodeId) : sweep (n + 1) (id :: work) g = sweep n work g := by
  rw [sweep, if_neg hid]

section
variable {id : NodeId}

theorem sameExprs_sweepOne (g : Graph) (id : NodeId) : SameExprs g (g.sweepOne id) := by
  exact ((SameExprs.kill g id).trans (SameExprs.release id _ _)).trans
    (SameExprs.foldl SameExprs.bury _ _)

theorem isLive_sweepOne (g : Graph) (id v : NodeId) :
    (g.sweepOne id).isLive v ↔ g.isLive v ∧ v ≠ id ∧ v ∉ (g.expr id).declared := by
  rw [sweepOne, isLive_buryAll, release_snd, isLive_unlinkAll, isLive_kill]
  grind

theorem parents_kill (hv : v ≠ id) : (g.kill id).parents v = g.parents v := by
  rw [parents, node_kill, if_neg hv, parents]

/-- The other nodes lose the entries for the slots of the node. -/
theorem count_parents_sweepOne (hv : v ≠ id) (hlt : v < g.size) (p : NodeId) :
    ((g.sweepOne id).parents v).count p =
      if p = id then (g.parents v).count id - (g.children id).count v
      else (g.parents v).count p := by
  rw [sweepOne, parents_buryAll, release_snd]
  split
  · next hp =>
    subst hp
    rw [count_parents_unlinkAll p (by rwa [kill, size_modify]), parents_kill hv]
  · next hp => rw [(parents_unlinkAll id _).2 p hp, parents_kill hv]

theorem parents_sweepOne_of_nil (hv : v ≠ id) (hnil : g.parents v = []) :
    (g.sweepOne id).parents v = [] := by
  rw [sweepOne, parents_buryAll, release_snd]
  refine eq_nil_iff_forall_not_mem.2 fun p hp => ?_
  have hmem := (parents_unlinkAll id (g.children id)).1 p hp
  rw [parents_kill hv, hnil] at hmem
  cases hmem

end

/-! ## The whole removal -/

/-- What holds while the garbage of `id` is removed from `g`: the nodes of `done` are removed, those
of `work` wait on the stack, dead ones apart, and `k` is the graph that is left. -/
structure Swept (g : Graph) (id : NodeId) (done work : List NodeId) (k : Graph) : Prop where
  same : SameExprs g k
  isLive : ∀ v, k.isLive v ↔ g.isLive v ∧ v ∉ done ∧ ∀ d ∈ done, v ∉ (g.expr d).declared
  parents : ∀ v, g.isLive v → v ∉ done → ∀ p,
    (k.parents v).count p = if p ∈ done then 0 else (g.parents v).count p
  nodup : (done ++ work).Nodup
  garbage : ∀ v ∈ done ++ work, g.isLive v ∧ g.Garbage id v
  start : id ∈ done ++ work
  /-- Garbage goes from the top down. -/
  above : ∀ v ∈ done ++ work, ∀ p ∈ g.parents v, p ∈ done
  waiting : ∀ v ∈ work, k.isLive v ∧ k.parents v = []
  /-- A variable is removed alone. -/
  single : ∀ v ∈ work, (g.expr v).isVar → work = [v]
  complete : ∀ v, g.isLive v → (g.expr v).isVar = false → g.parents v ≠ [] →
    (∀ p ∈ g.parents v, p ∈ done) → v ∈ done ++ work

theorem Swept.start_of (hlive : g.isLive id)
    (hparents : g.parents id = []) : g.Swept id [] [id] g where
  same := .refl g
  isLive v := by simp
  parents v _ _ p := by simp
  nodup := by simp
  garbage v hv := by
    cases mem_singleton.1 hv
    exact ⟨hlive, .self⟩
  start := by simp
  above v hv p hp := by
    cases mem_singleton.1 hv
    rw [hparents] at hp
    cases hp
  waiting v hv := by
    cases mem_singleton.1 hv
    exact ⟨hlive, hparents⟩
  single v hv _ := by
    cases mem_singleton.1 hv
    rfl
  complete v _ _ hused hall := by
    obtain ⟨p, hp⟩ := exists_mem_of_ne_nil _ hused
    exact absurd (hall p hp) not_mem_nil

section
variable {k : Graph} {id x : NodeId} {done work : List NodeId}

theorem Swept.not_mem_done (h : g.Swept id done (x :: work) k) : x ∉ done := by
  have := h.nodup
  rw [nodup_middle] at this
  exact fun hx => (nodup_cons.1 this).1 (mem_append_left _ hx)

/-- The nodes in the slots of the next node have been reached by no other way. -/
theorem Swept.not_mem_of_child (hg : g.Tallied) (h : g.Swept id done (x :: work) k)
    (hc : g.isLive c) (hmem : c ∈ g.children x) : c ∉ done ++ x :: work := by
  intro hcmem
  have hx := (h.garbage x (by simp)).1
  exact h.not_mem_done (h.above c hcmem x ((hg.mem_parents_iff hc).2 ⟨hx, hmem⟩))

/-- The next node puts a living node on the stack once, if nothing that stays uses it. -/
theorem Swept.count_orphans (hg : g.Tallied) (h : g.Swept id done (x :: work) k) (hc : g.isLive c) :
    (k.orphans x).count c =
      if c ∈ g.children x ∧ (g.expr c).isVar = false ∧ ∀ p ∈ g.parents c, p ∈ x :: done
      then 1 else 0 := by
  have hx := (h.garbage x (by simp)).1
  have hchildren : k.children x = g.children x := h.same.children_eq x
  have hdead := SameExprs.kill k x
  by_cases hmem : c ∈ g.children x ∧ (g.expr c).isVar = false
  · obtain ⟨hmem, hvar⟩ := hmem
    have hout := h.not_mem_of_child hg hc hmem
    have hparents (p : NodeId) : ((k.kill x).parents c).count p =
          if p ∈ done then 0 else (g.parents c).count p := by
      rw [parents_kill (fun heq => hout (by simp [heq])), h.parents c hc
        (fun hd => hout (mem_append_left _ hd))]
    have hlt : c < (k.kill x).size := by
      rw [hdead.size_eq, h.same.size_eq]
      exact lt_size_of_isLive hc
    have hvar' : ((k.kill x).expr c).isVar = false := by rwa [hdead.expr_eq, h.same.expr_eq]
    rw [orphans, count_release hlt hvar']
    · refine if_congr ?_ rfl rfl
      rw [hchildren, and_iff_right hmem, and_iff_right hmem, and_iff_right hvar]
      refine forall_congr' fun p => ?_
      rw [← count_pos_iff, hparents, mem_cons]
      by_cases hp : p ∈ done
      · simp [hp]
      · simp [hp, count_pos_iff]
    · rw [hparents, if_neg h.not_mem_done, hg.parents_count c hc, if_pos hx, hchildren]
  · rw [if_neg fun hall => hmem ⟨hall.1, hall.2.1⟩]
    refine count_eq_zero.2 fun horphan => hmem ⟨?_, ?_⟩
    · exact hchildren ▸ (release_sublist x _ _).subset horphan
    · have := not_isVar_of_mem_release horphan
      rwa [hdead.expr_eq, h.same.expr_eq] at this

/-- What the next node puts on the stack, dead nodes apart. -/
theorem Swept.mem_orphans (hg : g.Tallied) (h : g.Swept id done (x :: work) k) :
    ((k.orphans x).filter g.isLive).Nodup ∧ ∀ c, c ∈ (k.orphans x).filter g.isLive ↔
      g.isLive c ∧ c ∈ g.children x ∧ (g.expr c).isVar = false ∧
        ∀ p ∈ g.parents c, p ∈ x :: done := by
  constructor
  · rw [nodup_iff_count_le_one]
    intro c
    by_cases hc : g.isLive c
    · rw [count_filter hc, h.count_orphans hg hc]
      split <;> omega
    · rw [count_eq_zero_of_not_mem fun hmem => hc (mem_filter.1 hmem).2]
      exact Nat.zero_le 1
  · intro c
    rw [mem_filter, and_comm, and_congr_right_iff]
    intro hc
    rw [← count_pos_iff, h.count_orphans hg hc]
    split
    · next hall => exact iff_of_true Nat.one_pos hall
    · next hall => exact iff_of_false (Nat.lt_irrefl 0) hall

theorem Swept.isLive_sweepOne (h : g.Swept id done (x :: work) k) (v : NodeId) :
    (k.sweepOne x).isLive v ↔ g.isLive v ∧ v ∉ x :: done ∧
      ∀ d ∈ x :: done, v ∉ (g.expr d).declared := by
  rw [Graph.isLive_sweepOne, h.isLive, h.same.expr_eq x]
  simp only [mem_cons, not_or, forall_eq_or_imp]
  tauto

theorem Swept.count_parents_sweepOne (hg : g.Tallied) (h : g.Swept id done (x :: work) k)
    {v : NodeId} (hv : g.isLive v) (hvdone : v ∉ x :: done) (p : NodeId) :
    ((k.sweepOne x).parents v).count p = if p ∈ x :: done then 0 else (g.parents v).count p := by
  rw [mem_cons, not_or] at hvdone
  have hlt : v < k.size := h.same.size_eq ▸ lt_size_of_isLive hv
  rw [Graph.count_parents_sweepOne hvdone.1 hlt]
  by_cases hp : p = x
  · subst hp
    rw [if_pos rfl, if_pos mem_cons_self, h.parents v hv hvdone.2, if_neg h.not_mem_done,
      hg.parents_count v hv, if_pos (h.garbage p (by simp)).1, h.same.children_eq, Nat.sub_self]
  · rw [if_neg hp, h.parents v hv hvdone.2]
    simp [hp]

/-- What is on the stack below the next node still waits there. -/
theorem Swept.waiting_tail (hvars : g.DeclaresVars) (h : g.Swept id done (x :: work) k) {v : NodeId}
    (hv : v ∈ work) : (k.sweepOne x).isLive v ∧ (k.sweepOne x).parents v = [] := by
  obtain ⟨hvlive, hnil⟩ := h.waiting v (mem_cons_of_mem x hv)
  have hvx : v ≠ x := fun heq => (nodup_cons.1 (nodup_append'.1 h.nodup).2.1).1 (heq ▸ hv)
  refine ⟨(Graph.isLive_sweepOne k x v).2 ⟨hvlive, hvx, fun hvd => ?_⟩,
    parents_sweepOne_of_nil hvx hnil⟩
  have hsingle := h.single v (mem_cons_of_mem x hv) (hvars x v (h.same.expr_eq x ▸ hvd))
  exact hvx (List.cons.inj hsingle).1.symm

/-- What only removed nodes used is alive when the next node is gone, and nothing uses it. -/
theorem Swept.waiting_orphan (hg : g.Tallied) (hvars : g.DeclaresVars)
    (h : g.Swept id done (x :: work) k) {v : NodeId} (hv : g.isLive v)
    (hvar : (g.expr v).isVar = false) (hout : v ∉ done ++ x :: work)
    (hp : ∀ p ∈ g.parents v, p ∈ x :: done) :
    (k.sweepOne x).isLive v ∧ (k.sweepOne x).parents v = [] := by
  have hvdone : v ∉ x :: done := by
    simp only [mem_append, mem_cons, not_or] at hout ⊢
    exact ⟨hout.2.1, hout.1⟩
  refine ⟨(h.isLive_sweepOne v).2 ⟨hv, hvdone, fun d hd hvd => ?_⟩, ?_⟩
  · simp [hvars d v hvd] at hvar
  · refine eq_nil_iff_forall_not_mem.2 fun p hpv => ?_
    have hpos := count_pos_iff.2 hpv
    rw [h.count_parents_sweepOne hg hv hvdone] at hpos
    split at hpos
    · exact Nat.lt_irrefl 0 hpos
    · next hpdone => exact hpdone (hp p (count_pos_iff.1 hpos))

/-- Removing the next node of the stack. -/
theorem Swept.step (hg : g.Tallied) (hvars : g.DeclaresVars)
    (h : g.Swept id done (x :: work) k) :
    g.Swept id (x :: done) ((k.orphans x).reverse.filter g.isLive ++ work) (k.sweepOne x) := by
  obtain ⟨hnodup, hmem⟩ := h.mem_orphans hg
  rw [filter_reverse]
  generalize (k.orphans x).filter g.isLive = orphans at hnodup hmem ⊢
  -- What the node puts on the stack is alive, and it was neither removed nor on the stack.
  have horphan : ∀ c ∈ orphans, g.isLive c ∧ (g.expr c).isVar = false ∧ c ∉ done ++ x :: work ∧
      ∀ p ∈ g.parents c, p ∈ x :: done := by
    intro c hc
    obtain ⟨hclive, hcx, hvar, hp⟩ := (hmem c).1 hc
    exact ⟨hclive, hvar, h.not_mem_of_child hg hclive hcx, hp⟩
  have hall : ∀ v, v ∈ x :: done ++ (orphans.reverse ++ work) ↔
      v ∈ orphans ∨ v ∈ done ++ x :: work := by
    intro v
    simp only [mem_append, mem_cons, mem_reverse]
    tauto
  have hused : ∀ c ∈ orphans, x ∈ g.parents c := fun c hc =>
    (hg.mem_parents_iff (horphan c hc).1).2 ⟨(h.garbage x (by simp)).1, ((hmem c).1 hc).2.1⟩
  have hdone : ∀ d ∈ x :: done, g.isLive d ∧ g.Garbage id d := fun d hd =>
    h.garbage d (by simp only [mem_append, mem_cons] at hd ⊢; tauto)
  refine
    { same := h.same.trans (sameExprs_sweepOne k x)
      isLive := h.isLive_sweepOne
      parents := fun v hv hvdone => h.count_parents_sweepOne hg hv hvdone
      nodup := ?_
      garbage := fun v hv => ?_
      start := (hall id).2 (.inr h.start)
      above := fun v hv p hp => ?_
      waiting := fun v hv => ?_
      single := fun v hv hvar => ?_
      complete := fun v hv hvar hne hparents => (hall v).2 ?_ }
  · have hperm : (x :: done ++ (orphans.reverse ++ work)).Perm
        (orphans.reverse ++ (done ++ x :: work)) := by
      rw [perm_iff_count]
      intro v
      simp only [count_append, count_cons, cons_append]
      omega
    rw [hperm.nodup_iff, nodup_append', nodup_reverse]
    exact ⟨hnodup, h.nodup, fun v hv => (horphan v (mem_reverse.1 hv)).2.2.1⟩
  · rcases (hall v).1 hv with hv | hv
    · obtain ⟨hvlive, hvar, -, hp⟩ := horphan v hv
      exact ⟨hvlive, .used hvlive hvar (ne_nil_of_mem (hused v hv))
        fun p hpv => (hdone p (hp p hpv)).2⟩
    · exact h.garbage v hv
  · rcases (hall v).1 hv with hv | hv
    · exact (horphan v hv).2.2.2 p hp
    · exact mem_cons_of_mem x (h.above v hv p hp)
  · rcases mem_append.1 hv with hv | hv
    · obtain ⟨hvlive, hvar, hout, hp⟩ := horphan v (mem_reverse.1 hv)
      exact h.waiting_orphan hg hvars hvlive hvar hout hp
    · exact h.waiting_tail hvars hv
  · rcases mem_append.1 hv with hv | hv
    · simp [(horphan v (mem_reverse.1 hv)).2.1] at hvar
    · have hsingle := h.single v (mem_cons_of_mem x hv) hvar
      rw [(List.cons.inj hsingle).2] at hv
      cases hv
  · by_cases hxv : x ∈ g.parents v
    · exact .inl ((hmem v).2 ⟨hv, ((hg.mem_parents_iff hv).1 hxv).2, hvar, hparents⟩)
    · refine .inr (h.complete v hv hvar hne fun p hp => ?_)
      exact (mem_cons.1 (hparents p hp)).resolve_left fun heq => hxv (heq ▸ hp)

omit k x work in
theorem slotCount_eq (g : Graph) :
    g.slotCount = ((List.range g.size).map fun v => (g.children v).length).sum := by
  have hmap : (List.range g.size).map (fun v => (g.children v).length) =
      g.nodes.toList.map fun n => n.expr.children.length := by
    refine ext_getElem (by simp [size]) fun i hi _ => ?_
    have hlt : i < g.nodes.size := by simpa [size] using hi
    simp [children, expr, node, Array.getD_eq_getD_getElem?, hlt]
  rw [hmap, slotCount, ← Array.foldl_toList, sum_eq_foldl, foldl_map]

/-- The slots of the nodes that are not removed yet. Each of them may still put a node on the
stack. -/
def slotsLeft (g : Graph) (done : List NodeId) : Nat :=
  ∑ v ∈ Finset.range g.size \ done.toFinset, (g.children v).length

theorem slotsLeft_nil (g : Graph) : g.slotsLeft [] = g.slotCount := by
  rw [slotsLeft, toFinset_nil, Finset.sdiff_empty, slotCount_eq, ← toFinset_range,
    sum_toFinset _ nodup_range]

theorem slotsLeft_cons (hlt : x < g.size) (hx : x ∉ done) :
    g.slotsLeft (x :: done) + (g.children x).length = g.slotsLeft done := by
  rw [slotsLeft, slotsLeft, toFinset_cons, Finset.sdiff_insert, Finset.sum_erase_add]
  exact Finset.mem_sdiff.2 ⟨Finset.mem_range.2 hlt, fun h => hx (mem_toFinset.1 h)⟩

/-- The removal ends with an empty stack: there are steps for what is on the stack and for what the
slots that are left may put there. -/
theorem Swept.sweep (hg : g.Tallied) (hvars : g.DeclaresVars) :
    ∀ (n : Nat) {done stack : List NodeId} {k : Graph},
      g.Swept id done (stack.filter g.isLive) k → stack.length + g.slotsLeft done ≤ n →
      ∃ done', g.Swept id done' [] (Graph.sweep n stack k)
  | 0, done, stack, k, h, hn => by
    obtain rfl : stack = [] := length_eq_zero_iff.1 (by omega)
    exact ⟨done, h⟩
  | n + 1, done, [], k, h, _ => ⟨done, h⟩
  | n + 1, done, x :: stack, k, h, hn => by
    rw [length_cons] at hn
    by_cases hx : g.isLive x
    · rw [filter_cons_of_pos hx] at h
      have hstep := h.step hg hvars
      rw [← filter_append] at hstep
      rw [sweep_cons (h.waiting x mem_cons_self).1]
      refine hstep.sweep hg hvars n ?_
      have hlength : (k.orphans x).length ≤ (g.children x).length :=
        h.same.children_eq x ▸ (release_sublist x _ _).length_le
      have hslots := slotsLeft_cons (lt_size_of_isLive hx) h.not_mem_done
      rw [length_append, length_reverse]
      omega
    · rw [filter_cons_of_neg hx] at h
      rw [sweep_cons_of_dead fun hk => hx ((h.isLive x).1 hk).1]
      exact h.sweep hg hvars n (by omega)

theorem exists_swept_destroy (hg : g.Tallied) (hvars : g.DeclaresVars) (hlive : g.isLive id)
    (hparents : g.parents id = []) : ∃ done, g.Swept id done [] (g.destroy id) := by
  have hstart := Swept.start_of hlive hparents
  have hstack : [id].filter g.isLive = [id] := by
    rw [filter_cons_of_pos hlive, filter_nil]
  rw [← hstack] at hstart
  exact hstart.sweep hg hvars _ (by rw [slotsLeft_nil, length_singleton, Nat.add_comm])

theorem Swept.mem_done_iff (h : g.Swept id done [] k) : v ∈ done ↔ g.Garbage id v := by
  refine ⟨fun hv => (h.garbage v (mem_append_left _ hv)).2, fun hv => ?_⟩
  induction hv with
  | self => simpa using h.start
  | used hlive hvar hused _ ih => simpa using h.complete _ hlive hvar hused ih

end

/-! ## What is left -/

section
variable {id : NodeId}

theorem Garbage.reached (hg : g.Tallied) (h : g.Garbage id v) :
    Relation.ReflTransGen g.IsChild id v := by
  induction h with
  | self => exact .refl
  | used hlive _ hused _ ih =>
    obtain ⟨p, hp⟩ := exists_mem_of_ne_nil _ hused
    exact .tail (ih p hp) ((hg.mem_parents_iff hlive).1 hp).2

theorem Garbage.isLive (hid : g.isLive id) (h : g.Garbage id v) : g.isLive v := by
  cases h with
  | self => exact hid
  | used hlive => exact hlive

theorem Garbage.of_mem_parents (hid : g.parents id = []) (h : g.Garbage id v) (hp : p ∈ g.parents v) :
    g.Garbage id p := by
  cases h with
  | self => rw [hid] at hp; cases hp
  | used _ _ _ hparents => exact hparents p hp

theorem GoesWith.exists_declared (h : g.GoesWith id v) (hvar : (g.expr v).isVar) (hne : v ≠ id) :
    ∃ d, g.Garbage id d ∧ v ∈ (g.expr d).declared := by
  refine h.resolve_left fun hgarbage => ?_
  cases hgarbage with
  | self => exact hne rfl
  | used _ hnot => simp [hvar] at hnot

/-- Garbage is garbage in every graph with the same living nodes, variables and parents. -/
theorem Garbage.transfer (hlive : ∀ v, h.isLive v = g.isLive v)
    (hvar : ∀ v, (h.expr v).isVar = (g.expr v).isVar)
    (hparents : ∀ v, v ≠ id → g.isLive v → ∀ p, p ∈ h.parents v ↔ p ∈ g.parents v)
    (hv : g.Garbage id v) : h.Garbage id v := by
  induction hv with
  | self => exact .self
  | @used v hv hnot hused _ ih =>
    by_cases hid : v = id
    · exact hid ▸ .self
    · obtain ⟨p, hp⟩ := exists_mem_of_ne_nil _ hused
      refine .used (hlive v ▸ hv) (hvar v ▸ hnot) ?_ fun q hq => ih q ((hparents v hid hv q).1 hq)
      exact ne_nil_of_mem ((hparents v hid hv p).2 hp)

theorem SameShape.garbage_iff (hs : SameShape g h) : h.Garbage id v ↔ g.Garbage id v := by
  have hvar (v : NodeId) : (h.expr v).isVar = (g.expr v).isVar := by rw [hs.expr_eq]
  refine ⟨Garbage.transfer (fun v => (hs.live_eq v).symm) (fun v => (hvar v).symm) ?_,
    Garbage.transfer hs.live_eq hvar ?_⟩
  · exact fun v _ _ p => by rw [hs.parents_eq]
  · exact fun v _ _ p => by rw [hs.parents_eq]

theorem SameShape.goesWith_iff (hs : SameShape g h) : h.GoesWith id v ↔ g.GoesWith id v := by
  simp only [GoesWith, hs.garbage_iff, hs.expr_eq]

theorem destroy_of_dead (hid : g.isLive id = false) : g.destroy id = g := by
  rw [destroy, sweep, if_neg (by simp [hid])]
  cases g.slotCount <;> rfl

namespace Tallied
variable (hg : g.Tallied) (hvars : g.DeclaresVars) (hid : g.isLive id)
  (hparents : g.parents id = [])
include hg hvars hid hparents

/-- A removal takes away the garbage and the variables it declares, and nothing else. -/
theorem isLive_destroy (v : NodeId) : (g.destroy id).isLive v ↔ g.isLive v ∧ ¬ g.GoesWith id v := by
  obtain ⟨done, h⟩ := exists_swept_destroy hg hvars hid hparents
  rw [h.isLive, GoesWith, not_or, not_exists]
  simp only [h.mem_done_iff, not_and]

/-- The nodes that stay lose the entries of the garbage from their parent lists. -/
theorem count_parents_destroy (hv : g.isLive v) (hstays : ¬ g.Garbage id v) (p : NodeId) :
    (g.Garbage id p → ((g.destroy id).parents v).count p = 0) ∧
      (¬ g.Garbage id p → ((g.destroy id).parents v).count p = (g.parents v).count p) := by
  obtain ⟨done, h⟩ := exists_swept_destroy hg hvars hid hparents
  rw [← h.mem_done_iff] at hstays
  rw [← h.mem_done_iff, h.parents v hv hstays]
  exact ⟨fun hp => if_pos hp, fun hp => if_neg hp⟩

theorem destroy : (g.destroy id).Tallied := by
  have hlive := hg.isLive_destroy hvars hid hparents
  refine ⟨fun c hc p => ?_⟩
  rw [hlive] at hc
  have hstays : ¬ g.Garbage id c := fun h => hc.2 (.inl h)
  obtain ⟨hgone, hkept⟩ := hg.count_parents_destroy hvars hid hparents hc.1 hstays p
  rw [children, (SameExprs.destroy g id).expr_eq, ← children]
  by_cases hp : g.Garbage id p
  · rw [hgone hp, if_neg fun h => ((hlive p).1 h).2 (.inl hp)]
  · rw [hkept hp, hg.parents_count c hc.1]
    by_cases hplive : g.isLive p
    · by_cases hdeclared : ∃ d, g.Garbage id d ∧ p ∈ (g.expr d).declared
      · -- A declared variable has no slots.
        obtain ⟨d, hd, hdp⟩ := hdeclared
        simp [children_of_isVar (hvars d p hdp)]
      · rw [if_pos hplive, if_pos ((hlive p).2 ⟨hplive, fun h => h.elim hp hdeclared⟩)]
    · rw [if_neg hplive, if_neg fun h => hplive ((hlive p).1 h).1]

theorem isLive_destroy_of_isChild (hp : (g.destroy id).isLive p) (hmem : c ∈ g.children p)
    (hc : g.isLive c) : (g.destroy id).isLive c ∨ (g.expr c).isVar := by
  have hlive := hg.isLive_destroy hvars hid hparents
  rw [hlive] at hp ⊢
  refine or_iff_not_imp_right.2 fun hvar => ⟨hc, ?_⟩
  rintro (hgarbage | ⟨d, hd, hdc⟩)
  · exact hp.2 (.inl (hgarbage.of_mem_parents hparents ((hg.mem_parents_iff hc).2 ⟨hp.1, hmem⟩)))
  · exact hvar (hvars d c hdc)

end Tallied

namespace Accounted

theorem destroy (hg : g.Accounted) (hvars : g.DeclaresVars) (hid : g.isLive id)
    (hparents : g.parents id = []) : (g.destroy id).Accounted := by
  have hsame := SameExprs.destroy g id
  have hlive := hg.isLive_destroy hvars hid hparents
  refine ⟨hg.toTallied.destroy hvars hid hparents, fun p hp c hc => ?_, fun v hv => ?_⟩
  · rw [children, hsame.expr_eq, ← children] at hc
    rw [hsame.expr_eq]
    rcases hg.children_live p ((hlive p).1 hp).1 c hc with hclive | hvar
    · exact hg.isLive_destroy_of_isChild hvars hid hparents hp hc hclive
    · exact .inr hvar
  · rw [hsame.isChild_eq]
    exact hg.acyclic v ((hlive v).1 hv).1

end Accounted

end

/-! ## The main statement -/

/-- The set holds the node and, variables apart, every living node that is used, but from the set
only. -/
def HoldsGarbage (g : Graph) (id : NodeId) (S : Set NodeId) : Prop :=
  id ∈ S ∧ ∀ v, g.isLive v → (g.expr v).isVar = false → g.parents v ≠ [] →
    (∀ p ∈ g.parents v, p ∈ S) → v ∈ S

theorem isLeast_garbage (g : Graph) (id : NodeId) :
    IsLeast {S | g.HoldsGarbage id S} {v | g.Garbage id v} := by
  refine ⟨⟨.self, fun v hlive hvar hused hall => .used hlive hvar hused hall⟩, fun S hS v hv => ?_⟩
  induction hv with
  | self => exact hS.1
  | used hlive hvar hused _ ih => exact hS.2 _ hlive hvar hused ih

open scoped Classical in
/-- Removing a node that nothing uses removes the least set that holds its garbage, and the
variables that this set declares; no other node dies. What stays keeps its expression, and from its
parent list just the entries of the set are gone. That only variables are declared is needed: another
node is marked dead with the one that declares it, and if it is garbage too, what it uses stays. -/
theorem destroy_removes_garbage {g : Graph} (hg : g.Tallied) (hvars : g.DeclaresVars) {id : NodeId}
    (hid : g.isLive id) (hparents : g.parents id = []) {D : Set NodeId}
    (hD : IsLeast {S | g.HoldsGarbage id S} D) :
    (∀ v, g.isLive v ∧ ¬ (g.destroy id).isLive v ↔
      v ∈ D ∨ g.isLive v ∧ ∃ d ∈ D, v ∈ (g.expr d).declared) ∧
    ∀ v, (g.destroy id).isLive v →
      g.isLive v ∧ (g.destroy id).expr v = g.expr v ∧
      ((g.destroy id).parents v).Perm ((g.parents v).filter fun p => p ∉ D) := by
  obtain rfl : D = {v | g.Garbage id v} := hD.unique (isLeast_garbage g id)
  have hlive := hg.isLive_destroy hvars hid hparents
  constructor
  · intro v
    rw [hlive, not_and, not_not]
    constructor
    · rintro ⟨hv, hgoes⟩
      exact (hgoes hv).imp_right fun hdeclared => ⟨hv, hdeclared⟩
    · rintro (hv | ⟨hv, hdeclared⟩)
      · exact ⟨hv.isLive hid, fun _ => .inl hv⟩
      · exact ⟨hv, fun _ => .inr hdeclared⟩
  · intro v hv
    obtain ⟨hvlive, hstays⟩ := (hlive v).1 hv
    refine ⟨hvlive, (SameExprs.destroy g id).expr_eq v, perm_iff_count.2 fun p => ?_⟩
    obtain ⟨hgone, hkept⟩ :=
      hg.count_parents_destroy hvars hid hparents hvlive (fun h => hstays (.inl h)) p
    by_cases hp : g.Garbage id p
    · rw [hgone hp, count_eq_zero_of_not_mem fun hmem => by simp_all]
    · rw [hkept hp, count_filter (by simpa using hp)]

/-- A list that holds a filtered array twice, beside a constant that the filter mentions and that is
also used from elsewhere. -/
def sharedFilter : Graph :=
  let (k, g) := ({} : Graph).addLiteral (.integer 1)
  let (a, g) := g.addLiteral (.array [])
  let (e, g) := g.addVar "$element" .element
  let (t, g) := g.addCall (.compare .eq false) [e, k]
  let (f, g) := g.addDeclaring (.filter a (some t) [e]) none
  let (_, g) := g.add (.array [f, f, k] false)
  (g.addCall .isNull [k]).2

open scoped Classical in
/-- The constant stays, without the entries of the list and of the condition. -/
theorem destroy_removes_garbage_sharedFilter :
    sharedFilter.Tallied ∧ sharedFilter.DeclaresVars ∧ sharedFilter.isLive 5 ∧
    sharedFilter.parents 5 = [] ∧
    (¬ (sharedFilter.destroy 5).isLive 1 ∧ ¬ (sharedFilter.destroy 5).isLive 2) ∧
    ((sharedFilter.destroy 5).parents 0).Perm
      ((sharedFilter.parents 0).filter fun p => ¬ sharedFilter.Garbage 5 p) := by
  have hg : sharedFilter.Consistent := consistent_of_lt (by decide +kernel) (by decide +kernel)
    (by decide +kernel) (by decide +kernel)
  have hvars : sharedFilter.DeclaresVars := declaresVars_of_lt (by decide +kernel)
  have hlive : sharedFilter.isLive 5 := by decide +kernel
  have hparents : sharedFilter.parents 5 = [] := by decide +kernel
  obtain ⟨hdies, hstays⟩ := destroy_removes_garbage hg.toTallied hvars hlive hparents
    (isLeast_garbage sharedFilter 5)
  have hfilter : sharedFilter.Garbage 5 4 :=
    .used (by decide +kernel) (by decide +kernel) (by decide +kernel) fun p hp => by
      obtain rfl : p = 5 := by
        revert p
        decide +kernel
      exact .self
  have harray : sharedFilter.Garbage 5 1 :=
    .used (by decide +kernel) (by decide +kernel) (by decide +kernel) fun p hp => by
      obtain rfl : p = 4 := by
        revert p
        decide +kernel
      exact hfilter
  refine ⟨hg.toTallied, hvars, hlive, hparents, ⟨((hdies 1).2 (.inl harray)).2, ?_⟩,
    (hstays 0 (by decide +kernel)).2.2⟩
  exact ((hdies 2).2 (.inr ⟨by decide +kernel, 4, hfilter, by decide +kernel⟩)).2

end ShardedQuery.Graph
