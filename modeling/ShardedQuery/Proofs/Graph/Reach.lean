import Mathlib.Data.Finset.Card
import Mathlib.Logic.Relation
import ShardedQuery.Graph.Walk
import ShardedQuery.Proofs.Graph.Links

/-!
# What is reached through child slots

`Graph.IsChild` is one step down from a node to a node in one of its slots. Where no node lies below
itself, no way down is longer than there are nodes (`Graph.AcyclicBelow.fitsIn_size`), so that the
bounded walk of `Graph.postorder` misses nothing (`Graph.AcyclicBelow.mem_postorder`). It lists each
node after all that is reached from it, and so are the blocks of a query handled
(`Graph.queryBlocks_inner_first`).
-/

namespace ShardedQuery.Graph

open Relation List

variable {g : Graph} {ids done : List NodeId} {n : Nat} {id v : NodeId}
  {walk : List NodeId → NodeId → List NodeId} {P : NodeId → Prop}

/-- The second node stands in a slot of the first. -/
def IsChild (g : Graph) (p c : NodeId) : Prop := c ∈ g.children p

/-- No node that is reached from `id` through child slots lies below itself. -/
def AcyclicBelow (g : Graph) (id : NodeId) : Prop :=
  ∀ v, ReflTransGen g.IsChild id v → ¬ TransGen g.IsChild v v

/-- There are less than `n` nodes below one another below a node. -/
def FitsIn (g : Graph) : Nat → NodeId → Prop
  | 0, _ => False
  | n + 1, id => ∀ c ∈ g.children id, FitsIn g n c

section
variable {c : NodeId}

theorem children_of_size_le (h : g.size ≤ id) : g.children id = [] := by
  rw [children, expr, node_of_size_le h]
  rfl

theorem lt_size_of_child (hc : c ∈ g.children id) : id < g.size := by
  by_contra hge
  rw [children_of_size_le (Nat.le_of_not_lt hge)] at hc
  cases hc

theorem AcyclicBelow.child (h : g.AcyclicBelow id) (hc : c ∈ g.children id) : g.AcyclicBelow c :=
  fun v hv => h v (.head hc hv)

end

/-- Where only `n` nodes lead on and no way leads back, the number of nodes ahead orders the nodes. -/
theorem exists_rank {r : NodeId → NodeId → Prop} (hin : ∀ v w, r v w → v < n)
    (h : ∀ v, ¬ TransGen r v v) :
    ∃ rank : NodeId → Nat, (∀ v w, r v w → rank w < rank v) ∧ ∀ v, rank v ≤ n := by
  classical
  let ahead (v : NodeId) := (Finset.range n).filter (ReflTransGen r v)
  refine ⟨fun v => (ahead v).card, fun v w hvw => Finset.card_lt_card ?_, fun v => ?_⟩
  · have hsub : ahead w ⊆ ahead v := fun x hx => by
      obtain ⟨hx, hwx⟩ := Finset.mem_filter.1 hx
      exact Finset.mem_filter.2 ⟨hx, .head hvw hwx⟩
    -- The node itself is ahead of it, but not ahead of where it leads.
    refine (Finset.ssubset_iff_of_subset hsub).2 ⟨v, ?_, fun hv => ?_⟩
    · exact Finset.mem_filter.2 ⟨Finset.mem_range.2 (hin v w hvw), .refl⟩
    · exact h v (.head' hvw (Finset.mem_filter.1 hv).2)
  · exact (Finset.card_filter_le ..).trans_eq (Finset.card_range n)

/-- Without cycles, no way down is longer than there are nodes. -/
theorem AcyclicBelow.fitsIn_size (h : g.AcyclicBelow id) : g.FitsIn (g.size + 1) id := by
  have hway {v w : NodeId} (hw : TransGen
      (fun v c => ReflTransGen g.IsChild id v ∧ g.IsChild v c) v w) :
      ReflTransGen g.IsChild id v ∧ TransGen g.IsChild v w := by
    induction hw with
    | single hw => exact ⟨hw.1, .single hw.2⟩
    | tail _ hw ih => exact ⟨ih.1, ih.2.tail hw.2⟩
  obtain ⟨rank, hlt, hle⟩ := exists_rank (fun v c hc => lt_size_of_child hc.2)
    fun v hv => h v (hway hv).1 (hway hv).2
  have hfits (n : Nat) : ∀ v, ReflTransGen g.IsChild id v → rank v < n → g.FitsIn n v := by
    induction n with
    | zero => exact fun v _ hn => absurd hn (Nat.not_lt_zero _)
    | succ n ih =>
      intro v hv hn c hc
      exact ih c (hv.tail hc) ((hlt v c ⟨hv, hc⟩).trans_le (Nat.le_of_lt_succ hn))
  exact hfits _ id .refl (Nat.lt_succ_of_le (hle id))

theorem not_transGen_of_rank {r : NodeId → NodeId → Prop} {rank : NodeId → Nat}
    (hrank : ∀ v w, r v w → rank w < rank v) (v : NodeId) : ¬ TransGen r v v := by
  have hlt {w : NodeId} (hw : TransGen r v w) : rank w < rank v := by
    induction hw with
    | single hw => exact hrank _ _ hw
    | tail _ hw ih => exact (hrank _ _ hw).trans ih
  exact fun hv => (hlt hv).false

theorem acyclicBelow_of_rank {rank : NodeId → Nat}
    (hrank : ∀ v, ∀ c ∈ g.children v, rank c < rank v) (id : NodeId) : g.AcyclicBelow id :=
  fun v _ => not_transGen_of_rank hrank v

theorem acyclicBelow_of_lt (h : ∀ v, v < g.size → ∀ c ∈ g.children v, c < v)
    (id : NodeId) : g.AcyclicBelow id :=
  acyclicBelow_of_rank (fun v c hc => h v (lt_size_of_child hc) c hc) id

/-! ## Walks -/

/-- The list holds, with a node, all that is in the slots of the node. -/
def HoldsSlots (g : Graph) (done : List NodeId) : Prop := ∀ v ∈ done, ∀ c ∈ g.children v, c ∈ done

theorem HoldsSlots.reach (h : g.HoldsSlots done) {w : NodeId}
    (hv : v ∈ done) (hw : ReflTransGen g.IsChild v w) : w ∈ done := by
  induction hw with
  | refl => exact hv
  | tail _ hc ih => exact h _ ih _ hc

/-- What a walk that is deep enough adds to a list that holds its slots. -/
structure Visited (g : Graph) (done : List NodeId) (ids : List NodeId) (after : List NodeId) :
    Prop where
  holdsSlots : g.HoldsSlots after
  subset : done ⊆ after
  mem : ∀ id ∈ ids, id ∈ after

/-- A walk over several nodes, if the walk over each of them visits it. -/
theorem Visited.foldl
    (hwalk : ∀ id ∈ ids, ∀ done, g.HoldsSlots done → g.Visited done [id] (walk done id))
    (hdone : g.HoldsSlots done) : g.Visited done ids (ids.foldl walk done) := by
  induction ids generalizing done with
  | nil => exact ⟨hdone, Subset.refl done, fun id hid => by cases hid⟩
  | cons id ids ih =>
    have hfirst := hwalk id (.head _) done hdone
    have hrest := ih (fun id' hid' => hwalk id' (mem_cons_of_mem id hid')) hfirst.holdsSlots
    refine ⟨hrest.holdsSlots, Subset.trans hfirst.subset hrest.subset, fun id' hid' => ?_⟩
    rcases mem_cons.1 hid' with rfl | hid'
    · exact hrest.subset (hfirst.mem _ (.head _))
    · exact hrest.mem id' hid'

theorem visit_visited (h : g.FitsIn n id) (hdone : g.HoldsSlots done) :
    g.Visited done [id] (g.visit n done id) := by
  induction n generalizing id done with
  | zero => cases h
  | succ n ih =>
    rw [visit]
    split
    · next hmem =>
      refine ⟨hdone, Subset.refl done, fun id' hid' => ?_⟩
      rw [mem_singleton.1 hid']
      exact contains_iff_mem.1 hmem
    · -- The slots of the node come before the node itself.
      have hslots := Visited.foldl (fun c hc done hd => ih (h c hc) hd) hdone
      refine ⟨fun v hv c hc => ?_, fun v hv => ?_, fun id' hid' => ?_⟩
      · rcases mem_append.1 hv with hv | hv
        · exact mem_append_left _ (hslots.holdsSlots v hv c hc)
        · rw [mem_singleton.1 hv] at hc
          exact mem_append_left _ (hslots.mem c hc)
      · exact mem_append_left _ (hslots.subset hv)
      · exact mem_append_right _ hid'

/-- What a walk over several nodes adds, if the walk over each of them adds only such nodes. -/
theorem mem_foldl_walk (hwalk : ∀ id ∈ ids, ∀ done, ∀ v ∈ walk done id, v ∈ done ∨ P v) :
    ∀ v ∈ ids.foldl walk done, v ∈ done ∨ P v := by
  induction ids generalizing done with
  | nil => exact fun v hv => .inl hv
  | cons id ids ih =>
    intro v hv
    rcases ih (fun id' hid' => hwalk id' (mem_cons_of_mem id hid')) v hv with hv | hv
    · exact hwalk id (.head _) done v hv
    · exact .inr hv

/-- What a walk adds satisfies everything that is handed down to slots. -/
theorem mem_visit (hP : ∀ v, P v → ∀ c ∈ g.children v, P c)
    (n : Nat) (hid : P id) : ∀ v ∈ g.visit n done id, v ∈ done ∨ P v := by
  induction n generalizing id done with
  | zero => exact fun v hv => .inl hv
  | succ n ih =>
    intro v hv
    rw [visit] at hv
    split at hv
    · exact .inl hv
    · rcases mem_append.1 hv with hv | hv
      · exact mem_foldl_walk (fun c hc done => ih (hP id hid c hc)) v hv
      · exact .inr (mem_singleton.1 hv ▸ hid)

theorem mem_postorder_of_closed (hP : ∀ v, P v → ∀ c ∈ g.children v, P c) (hid : P id)
    (hv : v ∈ g.postorder id) : P v :=
  (mem_visit hP _ hid v hv).resolve_left not_mem_nil

/-- No node that is listed reaches a node that is listed later. In particular none is listed twice. -/
def EndsFirst (g : Graph) (done : List NodeId) : Prop :=
  done.Pairwise fun p q => ¬ ReflTransGen g.IsChild p q

/-- A walk that is deep enough lists what is below a node before the node. -/
theorem AcyclicBelow.endsFirst_visit (h : g.AcyclicBelow id) (hfits : g.FitsIn n id)
    (hdone : g.HoldsSlots done) (hends : g.EndsFirst done) : g.EndsFirst (g.visit n done id) := by
  induction n generalizing id done with
  | zero => cases hfits
  | succ n ih =>
    rw [visit]
    split
    · exact hends
    · next hnot =>
      have hslots : g.HoldsSlots ((g.children id).foldl (g.visit n) done) ∧
          g.EndsFirst ((g.children id).foldl (g.visit n) done) :=
        foldlRecOn (motive := fun done => g.HoldsSlots done ∧ g.EndsFirst done) _ _
          ⟨hdone, hends⟩ fun done hd c hc =>
            ⟨(visit_visited (hfits c hc) hd.1).holdsSlots, ih (h.child hc) (hfits c hc) hd.1 hd.2⟩
      refine pairwise_append.2 ⟨hslots.2, pairwise_singleton .., fun v hv w hw hway => ?_⟩
      rw [mem_singleton.1 hw] at hway
      -- What was listed before holds its slots, and so the node itself would have been listed.
      have hmem : id ∈ done ∨ TransGen g.IsChild id id :=
        mem_foldl_walk (P := TransGen g.IsChild id)
          (fun c hc done => mem_visit (fun w hw c hc => hw.tail hc) n (.single hc)) id
          (hslots.1.reach hv hway)
      rcases hmem with hmem | hcycle
      · exact hnot (contains_iff_mem.2 hmem)
      · exact h id .refl hcycle

/-- Without cycles, the walk lists everything that is reached. -/
theorem AcyclicBelow.mem_postorder (h : g.AcyclicBelow id)
    (hv : ReflTransGen g.IsChild id v) : v ∈ g.postorder id := by
  have hvisited := visit_visited h.fitsIn_size (fun v (hv : v ∈ []) => by cases hv)
  exact hvisited.holdsSlots.reach (hvisited.mem id (.head _)) hv

theorem AcyclicBelow.of_not_anyBelow (h : g.AcyclicBelow id)
    {p : NodeId → Bool} (hp : g.anyBelow id p = false)
    (hv : ReflTransGen g.IsChild id v) : p v = false := by
  rw [anyBelow, any_eq_false] at hp
  exact Bool.eq_false_iff.2 (hp v (h.mem_postorder hv))

/-! ## The blocks of a query -/

/-- The node is reached from the root. -/
def InQuery (g : Graph) (v : NodeId) : Prop :=
  ∃ r, g.root = some r ∧ ReflTransGen g.IsChild r v

theorem InQuery.child {c : NodeId} (hv : g.InQuery v) (hc : c ∈ g.children v) : g.InQuery c := by
  obtain ⟨r, hr, hway⟩ := hv
  exact ⟨r, hr, hway.tail hc⟩

section
variable (hacyclic : ∀ v, g.AcyclicBelow v)
include hacyclic

theorem mem_queryBlocks_iff : v ∈ g.queryBlocks ↔ g.InQuery v ∧ (g.expr v).isBlock := by
  unfold queryBlocks
  split
  · next hnone => simp [InQuery, hnone]
  · next r hr =>
    rw [mem_filter]
    refine and_congr_left fun _ => ⟨fun hmem => ?_, fun hv => ?_⟩
    · exact mem_postorder_of_closed (fun v hv c hc => hv.child hc) ⟨r, hr, .refl⟩ hmem
    · obtain ⟨r', hr', hway⟩ := hv
      cases hr.symm.trans hr'
      exact (hacyclic r).mem_postorder hway

theorem endsFirst_queryBlocks : g.EndsFirst g.queryBlocks := by
  unfold queryBlocks
  split
  · exact .nil
  · next r hr =>
    have hends := (hacyclic r).endsFirst_visit (hacyclic r).fitsIn_size
      (fun v (hv : v ∈ []) => by cases hv) .nil
    exact hends.filter _

theorem nodup_queryBlocks : g.queryBlocks.Nodup :=
  (endsFirst_queryBlocks hacyclic).imp fun {p q} hnot (heq : p = q) => hnot (heq ▸ .refl)

end

/-- The blocks of a query are listed once each, and a block comes after all blocks that are reached
from it. -/
theorem queryBlocks_inner_first {g : Graph} (hacyclic : ∀ v, ¬ Relation.TransGen g.IsChild v v) :
    g.queryBlocks.Nodup ∧ (∀ v, v ∈ g.queryBlocks ↔ g.InQuery v ∧ (g.expr v).isBlock) ∧
      ∀ before p after, g.queryBlocks = before ++ p :: after →
        ∀ q, (g.expr q).isBlock → Relation.TransGen g.IsChild p q → q ∈ before := by
  have hbelow (v : NodeId) : g.AcyclicBelow v := fun w _ => hacyclic w
  refine ⟨nodup_queryBlocks hbelow, fun v => mem_queryBlocks_iff hbelow,
    fun before p after heq q hq hway => ?_⟩
  have hends := endsFirst_queryBlocks hbelow
  rw [heq, EndsFirst, pairwise_append, pairwise_cons] at hends
  obtain ⟨r, hr, hp⟩ := ((mem_queryBlocks_iff hbelow).1 (heq ▸ mem_append_right _ (.head _))).1
  have hmem : q ∈ g.queryBlocks :=
    (mem_queryBlocks_iff hbelow).2 ⟨⟨r, hr, hp.trans hway.to_reflTransGen⟩, hq⟩
  rw [heq] at hmem
  rcases mem_append.1 hmem with hmem | hmem
  · exact hmem
  · rcases mem_cons.1 hmem with rfl | hmem
    · exact absurd hway (hacyclic q)
    · exact absurd hway.to_reflTransGen (hends.2.1.1 q hmem)

/-- A block over two blocks, one of which is over the other one. -/
def sharedBlock : Graph :=
  let (inner, g) := ({} : Graph).add (.block {})
  let (middle, g) := g.add (.block { select := [⟨"rows", inner⟩] })
  let (outer, g) := g.add (.block { select := [⟨"all", middle⟩, ⟨"rows", inner⟩] })
  g.setRoot outer

theorem queryBlocks_inner_first_shared :
    (∀ v, ¬ Relation.TransGen sharedBlock.IsChild v v) ∧ sharedBlock.queryBlocks = [0, 1] ++ [2] ∧
      ∀ q, (sharedBlock.expr q).isBlock → Relation.TransGen sharedBlock.IsChild 2 q → q ∈ [0, 1] := by
  have hacyclic (v : NodeId) : ¬ Relation.TransGen sharedBlock.IsChild v v :=
    acyclicBelow_of_lt (by decide +kernel) v v .refl
  have hlist : sharedBlock.queryBlocks = [0, 1] ++ [2] := by decide +kernel
  exact ⟨hacyclic, hlist, (queryBlocks_inner_first hacyclic).2.2 [0, 1] 2 [] hlist⟩

end ShardedQuery.Graph
