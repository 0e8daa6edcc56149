import Mathlib.Data.List.Nodup
import ShardedQuery.Proofs.Graph.Dependence

/-!
# Carrying changes of types on
-/

namespace ShardedQuery.Graph

open List

variable {g : Graph} {t : SeqType} {w id v : NodeId} {rank : NodeId → Nat}

/-! ## Dependents -/

/-- Without repetitions, a list in order increases strictly. -/
theorem eraseRepsBy_loop_spec (l : List Nat) (a : Nat) (acc : List Nat)
    (hsorted : (a :: l).Pairwise (· ≤ ·)) :
    ∃ m, eraseRepsBy.loop (· == ·) a l acc = acc.reverse ++ m ∧ (∀ x, x ∈ m ↔ x ∈ a :: l) ∧
      m.Pairwise (· < ·) := by
  induction l generalizing a acc with
  | nil => exact ⟨[a], by simp [eraseRepsBy.loop], fun x => Iff.rfl, pairwise_singleton _ _⟩
  | cons b l ih =>
    obtain ⟨hle, htail⟩ := pairwise_cons.1 hsorted
    rw [eraseRepsBy.loop]
    by_cases hab : a = b
    · subst hab
      obtain ⟨m, hm, hmem, hlt⟩ := ih a acc htail
      simp only [beq_self_eq_true]
      exact ⟨m, hm, fun x => by simp [hmem], hlt⟩
    · have hbeq : (a == b) = false := by simpa using hab
      obtain ⟨m, hm, hmem, hlt⟩ := ih b (a :: acc) htail
      simp only [hbeq]
      refine ⟨a :: m, by simp [hm], fun x => by simp [hmem], pairwise_cons.2 ⟨fun x hx => ?_, hlt⟩⟩
      have hb := hle b (.head _)
      rcases mem_cons.1 ((hmem x).1 hx) with rfl | hx
      · omega
      · have := (pairwise_cons.1 htail).1 x hx
        omega

/-- The list in order and without repetitions. -/
theorem eraseReps_mergeSort_spec (l : List Nat) :
    (∀ x, x ∈ (l.mergeSort (fun a b => a ≤ b)).eraseReps ↔ x ∈ l) ∧
      (l.mergeSort (fun a b => a ≤ b)).eraseReps.Nodup := by
  have hsorted : (l.mergeSort (fun a b => a ≤ b)).Pairwise (· ≤ ·) := by
    refine (pairwise_mergeSort (fun a b c => ?_) (fun a b => ?_) l).imp fun h => ?_
    · simp only [decide_eq_true_eq]
      omega
    · simp only [Bool.or_eq_true, decide_eq_true_eq]
      omega
    · simpa using h
  have hmem : ∀ x, x ∈ l.mergeSort (fun a b => a ≤ b) ↔ x ∈ l := fun x => mem_mergeSort
  cases hl : l.mergeSort (fun a b => a ≤ b) with
  | nil =>
    rw [hl] at hmem
    exact ⟨fun x => by rw [← hmem]; rfl, nodup_nil⟩
  | cons a m =>
    rw [hl] at hsorted hmem
    obtain ⟨m', hm', hmem', hlt⟩ := eraseRepsBy_loop_spec m a [] hsorted
    have heq : (a :: m).eraseReps = m' := hm'
    rw [heq]
    exact ⟨fun x => by rw [hmem', hmem], hlt.imp Nat.ne_of_lt⟩

theorem mem_dependents :
    w ∈ g.dependents id ↔ w ∈ g.parents id ∨ ∃ p ∈ g.parents id, w ∈ g.declaredOver id p := by
  rw [dependents, (eraseReps_mergeSort_spec _).1, mem_append, mem_flatMap]

theorem nodup_dependents (g : Graph) (id : NodeId) : (g.dependents id).Nodup :=
  (eraseReps_mergeSort_spec _).2

theorem mem_declared_of_declaredOver {p : NodeId} (h : w ∈ g.declaredOver id p) :
    w ∈ (g.expr p).declared := by
  unfold declaredOver at h
  split at h
  · next b hb =>
    rw [hb]
    exact map_subset _ (filter_subset_self _) h
  · next hb =>
    have : (g.expr p).declared = (g.expr p).context := by
      cases he : g.expr p with
      | block b => exact absurd he (hb b)
      | _ => rfl
    rw [this]
    split at h
    · exact h
    · cases h

/-! ## Keeping one type -/

section
variable {id : NodeId}

theorem type?_setType (hid : id < g.size) :
    (g.setType id t).type? v = if v = id then some t else g.type? v := by
  rw [type?, setType, node_modify]
  by_cases hv : v = id
  · rw [if_pos ⟨hv, hv ▸ hid⟩, if_pos hv]
  · rw [if_neg fun h => hv h.1, if_neg hv]
    rfl

/-- A derived type may be kept. -/
theorem Ranked.exprType_setType_of_unkept (hr : g.Ranked rank) (hid : id < g.size)
    (hnone : g.type? id = none) (v : NodeId) :
    (g.retype id).exprType v = g.exprType v := by
  have hs := (SameShape.setType g id (g.derivedType id)).toSameExprs
  have hkept (v : NodeId) (hv : (g.retype id).type? v = none) :
      g.type? v = none := by
    rw [type?_setType hid] at hv
    split at hv
    · cases hv
    · exact hv
  -- The types of the graph solve the rules of the new one as well.
  refine ((hs.ranked hkept hr).exprType_unique (A := fun _ => True) (fun _ _ _ _ => trivial)
    (fun v _ => ?_) trivial).symm
  rw [type?_setType hid, (hs.sameRule v).typeRule_eq]
  split
  · next hv =>
    subst hv
    exact hr.exprType_of_unkept hnone
  · exact hr.exprType_eq v

variable (ho : g.Ordered rank)
include ho

/-- On nodes that do not read the node, directly or through others, types stay as they are. -/
theorem Ordered.exprType_setType {A : NodeId → Prop} (hid : id < g.size)
    (hA : ∀ v, A v → ∀ u ∈ g.reads v, A u) (hnot : ¬ A id) (hv : A v) :
    (g.setType id t).exprType v = g.exprType v := by
  have hs := (SameShape.setType g id t).toSameExprs
  refine ho.ranked.exprType_unique hA (fun v hv => ?_) hv
  have hne : v ≠ id := fun h => hnot (h ▸ hv)
  rw [(hs.ordered ho).exprType_eq, type?_setType hid, if_neg hne, derivedType,
    (hs.sameRule v).typeRule_eq]

/-- Nodes of a lower rank are not concerned. -/
theorem Ordered.derivedType_setType (hid : id < g.size) (hle : rank v ≤ rank id) :
    (g.setType id t).derivedType v = g.derivedType v := by
  have hs := (SameShape.setType g id t).toSameExprs
  rw [derivedType, (hs.sameRule v).typeRule_eq]
  refine typeRule_congr fun u hu => ?_
  refine ho.exprType_setType (A := fun w => rank w < rank id) hid (fun w hw x hx => ?_)
    (Nat.lt_irrefl _) ((ho.rank_lt v u (reads_subset_uses hu)).trans_le hle)
  exact (ho.rank_lt w x (reads_subset_uses hx)).trans hw

end

/-! ## How long a propagation takes -/

/-- The kept type of a living node is not the one that its rule derives. -/
def isOpen (g : Graph) (v : NodeId) : Bool :=
  g.isLive v && decide (g.type? v ≠ some (g.derivedType v))

/-- A refresh stops at once where nothing is open. -/
theorem refresh_of_not_isOpen (h : g.isOpen id = false) : g.refresh id = g := by
  have hdone (n : Nat) : propagate n [] g = g := by
    cases n <;> rfl
  rw [refresh, propagationBound, propagate]
  split
  · next hlive =>
    have hkept : g.type? id = some (g.derivedType id) := by simpa [isOpen, hlive] using h
    rw [if_pos hkept, hdone]
  · exact hdone _

/-- A list of nodes read as a number in binary, the open nodes as ones. -/
def potential (isOpen : NodeId → Bool) : List NodeId → Nat
  | [] => 0
  | v :: vs => (if isOpen v then Nat.pow 2 vs.length else 0) + potential isOpen vs

theorem potential_lt (o : NodeId → Bool) (l : List NodeId) : potential o l < Nat.pow 2 l.length := by
  induction l with
  | nil => exact Nat.zero_lt_one
  | cons v vs ih =>
    have hpow : Nat.pow 2 (vs.length + 1) = Nat.pow 2 vs.length * 2 := rfl
    rw [potential, length_cons, hpow]
    split <;> omega

/-- Closing a node lowers the potential, whatever becomes of the nodes after it. -/
theorem potential_lt_of_closed {o o' : NodeId → Bool} {before after : List NodeId}
    (hbefore : ∀ u ∈ before, o' u → o u) (hv : o v) (hv' : o' v = false) :
    potential o' (before ++ v :: after) < potential o (before ++ v :: after) := by
  induction before with
  | nil =>
    have := potential_lt o' after
    simp only [nil_append, potential, hv, hv', Bool.false_eq_true, if_true, if_false]
    omega
  | cons u before ih =>
    have hu := hbefore u (.head _)
    have := ih fun w hw => hbefore w (.tail _ hw)
    simp only [cons_append, potential, length_append, length_cons]
    by_cases ho' : o' u
    · rw [if_pos ho', if_pos (hu ho')]
      omega
    · rw [if_neg ho']
      split <;> omega

/-- The nodes of a graph in the order of ranks. -/
def byRank (g : Graph) (rank : NodeId → Nat) : List NodeId :=
  (List.range g.size).mergeSort fun a b => rank a ≤ rank b

theorem byRank_perm (g : Graph) (rank : NodeId → Nat) : (g.byRank rank).Perm (List.range g.size) :=
  mergeSort_perm _ _

theorem byRank_sorted (g : Graph) (rank : NodeId → Nat) :
    (g.byRank rank).Pairwise fun a b => rank a ≤ rank b := by
  refine (pairwise_mergeSort (fun a b c => ?_) (fun a b => ?_) _).imp fun h => ?_
  · simp only [decide_eq_true_eq]
    omega
  · simp only [Bool.or_eq_true, decide_eq_true_eq]
    omega
  · simpa using h

section
variable (ho : g.Ordered rank)
include ho

/-- Keeping the derived type of an open node lowers the potential. -/
theorem Ordered.potential_setType (hopen : g.isOpen id) :
    potential (g.retype id).isOpen (g.byRank rank) <
      potential g.isOpen (g.byRank rank) := by
  have hlive : g.isLive id := (Bool.and_eq_true_iff.1 hopen).1
  have hid := lt_size_of_isLive hlive
  have hmem : id ∈ g.byRank rank := (g.byRank_perm rank).mem_iff.2 (mem_range.2 hid)
  obtain ⟨before, after, heq⟩ := append_of_mem hmem
  have hsorted := g.byRank_sorted rank
  have hnodup : (g.byRank rank).Nodup := (g.byRank_perm rank).nodup_iff.2 nodup_range
  rw [heq] at hsorted hnodup ⊢
  refine potential_lt_of_closed (fun u hu => ?_) hopen ?_
  · have hle : rank u ≤ rank id := (pairwise_append.1 hsorted).2.2 u hu id (.head _)
    have hne : u ≠ id := by
      rintro rfl
      exact (disjoint_of_nodup_append hnodup) hu (.head _)
    simp only [isOpen, (SameShape.setType g id (g.derivedType id)).live_eq,
      ho.derivedType_setType hid hle, type?_setType hid, if_neg hne]
    exact fun h => h
  · simp only [isOpen, ho.derivedType_setType hid le_rfl, type?_setType hid, if_true]
    simp

end

/-- Parents and declared variables are nodes of the graph. -/
structure LinksInside (g : Graph) : Prop where
  parents_lt : ∀ v, ∀ p ∈ g.parents v, p < g.size
  declared_lt : ∀ v, ∀ u ∈ (g.expr v).declared, u < g.size

theorem LinksInside.length_dependents_le (hl : g.LinksInside) (id : NodeId) :
    (g.dependents id).length ≤ g.size := by
  have hsub : g.dependents id ⊆ List.range g.size := by
    intro w hw
    rw [mem_range]
    rcases mem_dependents.1 hw with hw | ⟨p, -, hw⟩
    · exact hl.parents_lt id w hw
    · exact hl.declared_lt p w (mem_declared_of_declaredOver hw)
  have := (subperm_of_subset (g.nodup_dependents id) hsub).length_le
  rwa [length_range] at this

/-- What is on the stack, and what may still come onto it. -/
def workLeft (g : Graph) (rank : NodeId → Nat) (work : List NodeId) : Nat :=
  work.length + g.size * potential g.isOpen (g.byRank rank)

/-- One way to use that a propagation ends: what the start satisfies and every step keeps, holds
when the stack is empty. -/
theorem propagate_induction (rank : NodeId → Nat) {P : List NodeId → Graph → Prop}
    (hpop : ∀ g id work, P (id :: work) g → g.isOpen id = false → P work g)
    (hset : ∀ g id work, P (id :: work) g → g.isOpen id →
      P ((g.dependents id).reverse ++ work) (g.retype id))
    {steps : Nat} {work : List NodeId} (ho : g.Ordered rank) (hl : g.LinksInside)
    (hP : P work g) (hsteps : g.workLeft rank work ≤ steps) : P [] (propagate steps work g) := by
  induction steps generalizing work g with
  | zero =>
    rw [workLeft] at hsteps
    cases work with
    | nil => exact hP
    | cons => simp at hsteps
  | succ steps ih =>
    cases work with
    | nil => exact hP
    | cons id work =>
      simp only [propagate]
      by_cases hopen : g.isOpen id
      · obtain ⟨hlive, htype⟩ := Bool.and_eq_true_iff.1 hopen
        have htype := of_decide_eq_true htype
        rw [if_pos hlive, if_neg htype]
        have hs := SameShape.setType g id (g.derivedType id)
        have hl' : (g.retype id).LinksInside :=
          ⟨fun v p hp => hs.size_eq ▸ hl.parents_lt v p (hs.parents_eq v ▸ hp),
            fun v u hu => hs.size_eq ▸ hl.declared_lt v u (hs.expr_eq v ▸ hu)⟩
        refine ih (hs.toSameExprs.ordered ho) hl' (hset g id work hP hopen) ?_
        have hpot := ho.potential_setType hopen
        have hlen := hl.length_dependents_le id
        have hrank : (g.retype id).byRank rank = g.byRank rank := by
          rw [byRank, hs.size_eq, byRank]
        have hmul := Nat.mul_le_mul_left g.size (Nat.succ_le_of_lt hpot)
        rw [Nat.mul_succ, retype] at hmul
        rw [workLeft, length_cons] at hsteps
        rw [workLeft, hrank, hs.size_eq, length_append, length_reverse]
        omega
      · have hopen : g.isOpen id = false := by simpa using hopen
        have hskip : P [] (propagate steps work g) := by
          refine ih ho hl (hpop g id work hP hopen) ?_
          rw [workLeft, length_cons] at hsteps
          rw [workLeft]
          omega
        split
        · next hlive =>
          rw [isOpen, hlive, Bool.true_and, decide_eq_false_iff_not, not_not] at hopen
          rw [if_pos hopen]
          exact hskip
        · exact hskip

/-- A refresh has the steps it needs. -/
theorem workLeft_le_propagationBound (g : Graph) (rank : NodeId → Nat) (id : NodeId) :
    g.workLeft rank [id] ≤ g.propagationBound := by
  have hlt := potential_lt g.isOpen (g.byRank rank)
  rw [(g.byRank_perm rank).length_eq, length_range] at hlt
  have hmul := Nat.mul_le_mul_left g.size hlt.le
  rw [workLeft, propagationBound, length_singleton, Nat.add_mul]
  omega

end ShardedQuery.Graph
