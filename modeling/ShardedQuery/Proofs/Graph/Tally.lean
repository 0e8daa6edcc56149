import ShardedQuery.Proofs.Graph.Dissolve
import ShardedQuery.Proofs.Graph.Insert
import ShardedQuery.Proofs.Graph.Reach

/-!
# Slots and parent lists in step

In a graph that is tallied, every living node has one parent entry for each slot of a living node
that holds it, and no others (`Graph.Tallied`). An edit of a block writes the links of the block and
its slots one after the other, so that the two agree only when it is done. `Graph.TalliedBut` is
what holds in between: parent lists agree with the slots, except that the block is counted with a
list of slots that it will have. Linking and unlinking change this list, writing the block changes
nothing, and once the block has the slots of the list the graph is tallied again.
-/

namespace ShardedQuery.Graph

open Relation List

variable {p v : NodeId} {g h : Graph}

/-- One parent entry for each slot of a living node, and no others. -/
structure Tallied (g : Graph) : Prop where
  parents_count : ∀ c, g.isLive c → ∀ p,
    (g.parents c).count p = if g.isLive p then (g.children p).count c else 0

/-- Child slots and parent lists of the living nodes agree, and no living node lies below itself.
Variables may be used although they are dead: they die with the node that declares them. -/
structure Accounted (g : Graph) : Prop extends Tallied g where
  children_live : ∀ p, g.isLive p → ∀ c ∈ g.children p, g.isLive c ∨ (g.expr c).isVar
  acyclic : ∀ v, g.isLive v → ¬ TransGen g.IsChild v v

/-- Child slots and parent lists of the living nodes agree, and living nodes use living nodes. -/
structure Consistent (g : Graph) : Prop extends Tallied g where
  children_live : ∀ p, g.isLive p → ∀ c ∈ g.children p, g.isLive c
  acyclic : ∀ v, g.isLive v → ¬ TransGen g.IsChild v v

theorem consistent_iff :
    g.Consistent ↔ g.Accounted ∧ ∀ p, g.isLive p → ∀ c ∈ g.children p, g.isLive c :=
  ⟨fun h => ⟨⟨h.toTallied, fun p hp c hc => .inl (h.children_live p hp c hc), h.acyclic⟩,
    h.children_live⟩, fun h => ⟨h.1.toTallied, h.2, h.1.acyclic⟩⟩

theorem Consistent.accounted (h : g.Consistent) : g.Accounted := (consistent_iff.1 h).1

/-- A graph that was built from the bottom up is checked node by node. -/
theorem consistent_of_lt (hlt : ∀ v < g.size, ∀ c ∈ g.children v, c < v)
    (hlive : ∀ p < g.size, g.isLive p → ∀ c ∈ g.children p, g.isLive c)
    (hinside : ∀ c < g.size, ∀ p ∈ g.parents c, p < g.size)
    (hcount : ∀ c < g.size, g.isLive c → ∀ p < g.size,
      (g.parents c).count p = if g.isLive p then (g.children p).count c else 0) : g.Consistent where
  children_live p hp := hlive p (lt_size_of_isLive hp) hp
  parents_count c hc p := by
    by_cases hp : p < g.size
    · exact hcount c (lt_size_of_isLive hc) hc p hp
    · rw [if_neg fun h => hp (lt_size_of_isLive h), count_eq_zero]
      exact fun hmem => hp (hinside c (lt_size_of_isLive hc) p hmem)
  acyclic v _ := acyclicBelow_of_lt hlt v v .refl

theorem children_of_isVar (h : (g.expr v).isVar) : g.children v = [] := by
  rw [children]
  cases he : g.expr v <;> simp_all [Expr.isVar, Expr.children]

theorem declared_of_isVar (h : (g.expr v).isVar) : (g.expr v).declared = [] := by
  cases he : g.expr v <;> simp_all [Expr.isVar, Expr.declared, Expr.context]

theorem SameExprs.isChild_eq (hs : SameExprs g h) : h.IsChild = g.IsChild := by
  funext p c
  rw [IsChild, hs.children_eq, IsChild]

section
variable {h : Graph} {c : NodeId}

theorem Tallied.mem_parents_iff (hg : g.Tallied) (hc : g.isLive c) :
    p ∈ g.parents c ↔ g.isLive p ∧ c ∈ g.children p := by
  rw [← count_pos_iff, hg.parents_count c hc p]
  split
  · next hp => simp [hp, count_pos_iff]
  · next hp => simp [hp]

theorem Tallied.congr (hg : g.Tallied) (hparents : ∀ v, h.parents v = g.parents v)
    (hlive : ∀ v, h.isLive v = g.isLive v) (hchildren : ∀ v, h.children v = g.children v) :
    h.Tallied := by
  refine ⟨fun c hc p => ?_⟩
  rw [hlive] at hc ⊢
  rw [hparents, hchildren]
  exact hg.parents_count c hc p

theorem SameShape.tallied (hs : SameShape g h) (hg : g.Tallied) : h.Tallied :=
  hg.congr hs.parents_eq hs.live_eq hs.children_eq

theorem SameShape.accounted (hs : SameShape g h) (hg : g.Accounted) : h.Accounted := by
  refine ⟨hs.tallied hg.toTallied, fun p hp c hc => ?_, fun v hv => ?_⟩
  · rw [hs.live_eq] at hp ⊢
    rw [hs.children_eq] at hc
    rw [hs.expr_eq]
    exact hg.children_live p hp c hc
  · rw [hs.live_eq] at hv
    rw [hs.isChild_eq]
    exact hg.acyclic v hv

end

/-! ## Putting a node above another one -/

/-- Parent lists agree with slots, and slots hold nodes of the graph. -/
structure Balanced (g : Graph) : Prop extends Tallied g where
  children_lt : ∀ p, g.isLive p → ∀ c ∈ g.children p, c < g.size

theorem Balanced.congr (hg : g.Balanced) (hsize : h.size = g.size)
    (hparents : ∀ v, h.parents v = g.parents v) (hlive : ∀ v, h.isLive v = g.isLive v)
    (hchildren : ∀ v, h.children v = g.children v) : h.Balanced := by
  refine ⟨hg.toTallied.congr hparents hlive hchildren, fun p hp c hc => ?_⟩
  rw [hlive] at hp
  rw [hchildren] at hc
  exact hsize ▸ hg.children_lt p hp c hc

theorem SameShape.balanced (hs : SameShape g h) (hg : g.Balanced) : h.Balanced :=
  hg.congr hs.size_eq hs.parents_eq hs.live_eq hs.children_eq

section
variable {id : NodeId} {make : NodeId → Expr}

theorem Tallied.expr_inserted (hg : g.Tallied) (hid : g.isLive id) (hp : g.isLive p) :
    (g.inserted id make).expr p = (g.expr p).mapChildren (redirect id g.size) := by
  rw [expr_inserted_of_lt (lt_size_of_isLive hid) (lt_size_of_isLive hp)]
  split
  · rfl
  · next hnot =>
    refine (Expr.mapChildren_eq_self fun c hc => if_neg ?_).symm
    rintro rfl
    exact hnot ((hg.mem_parents_iff hid).2 ⟨hp, hc⟩)

theorem Tallied.parents_lt (hg : g.Tallied) (hid : g.isLive id) :
    ∀ p ∈ g.parents id, p < g.size :=
  fun _ hp => lt_size_of_isLive ((hg.mem_parents_iff hid).1 hp).1

theorem Balanced.inserted (hg : g.Balanced) (hid : g.isLive id)
    (hmake : ∀ c ∈ (make id).children, c < g.size) : (g.inserted id make).Balanced := by
  have hidlt := lt_size_of_isLive hid
  have hself : (g.inserted id make).node g.size = { expr := make id, parents := g.parents id } :=
    node_inserted_self hidlt (hg.parents_lt hid)
  have hlive {v : NodeId} (hv : v ≠ g.size) : (g.inserted id make).isLive v = g.isLive v := by
    rcases Nat.lt_or_ge v g.size with hvlt | hge
    · exact isLive_inserted_of_lt hidlt hvlt
    · rw [isLive_of_size_le hge,
        isLive_of_size_le (size_inserted ▸ Nat.lt_of_le_of_ne hge (Ne.symm hv))]
  have hchildren {p : NodeId} (hp : g.isLive p) :
      (g.inserted id make).children p = (g.children p).map (redirect id g.size) := by
    rw [children, hg.expr_inserted hid hp, Expr.children_mapChildren, children]
  have hmoved (p c : NodeId) := count_map_redirect hidlt.ne (g.children p) c
  have hnew : (g.inserted id make).children g.size = (make id).children := by
    rw [children, expr, hself]
  have habsent {p : NodeId} (hp : g.isLive p) : g.size ∉ g.children p :=
    fun hmem => (hg.children_lt p hp _ hmem).false
  have hdead : g.isLive g.size = false := isLive_of_size_le le_rfl
  refine ⟨⟨fun c hc p => ?_⟩, fun p hp c hc => ?_⟩
  · by_cases hcnew : c = g.size
    · -- The new node takes over the parents of the old one.
      rw [hcnew, parents, hself, hg.parents_count id hid]
      by_cases hpnew : p = g.size
      · rw [hpnew, hdead, hnew, count_eq_zero_of_not_mem fun hmem =>
          (hmake _ hmem).false, ite_self]
        rfl
      · rw [hlive hpnew]
        split
        · next hp =>
          rw [hchildren hp, hmoved, if_neg hidlt.ne', if_pos rfl,
            count_eq_zero_of_not_mem (habsent hp), Nat.zero_add]
        · rfl
    · rw [hlive hcnew] at hc
      rw [parents_inserted_of_lt hidlt (lt_size_of_isLive hc), count_append,
        count_replicate]
      by_cases hpnew : p = g.size
      · have hnone : (if c = id then [] else g.parents c).count g.size = 0 := by
          refine count_eq_zero_of_not_mem fun hmem => ?_
          split at hmem
          · cases hmem
          · exact (hg.parents_lt hc _ hmem).false
        have hlast : (g.inserted id make).isLive g.size := by rw [isLive, hself]
        rw [hpnew, hnone, if_pos (beq_self_eq_true _), if_pos hlast, hnew, Nat.zero_add]
      · have hother : ¬ (g.size == p) = true := by simpa using Ne.symm hpnew
        rw [if_neg hother, Nat.add_zero, hlive hpnew]
        by_cases hcid : c = id
        · rw [if_pos hcid, count_nil]
          split
          · next hp => rw [hchildren hp, hmoved, if_pos hcid, if_neg hcnew]
          · rfl
        · rw [if_neg hcid, hg.parents_count c hc]
          split
          · next hp => rw [hchildren hp, hmoved, if_neg hcid, if_neg hcnew, Nat.add_zero]
          · rfl
  · rw [size_inserted]
    by_cases hpnew : p = g.size
    · rw [hpnew, hnew] at hc
      exact Nat.lt_succ_of_lt (hmake c hc)
    · rw [hlive hpnew] at hp
      rw [hchildren hp] at hc
      obtain ⟨d, hd, rfl⟩ := mem_map.1 hc
      unfold redirect
      split
      · exact Nat.lt_succ_self _
      · exact Nat.lt_succ_of_lt (hg.children_lt p hp d hd)

end

/-! ## While a block is edited -/

/-- Parent lists agree with the slots if the block is counted with the given list of slots. -/
structure TalliedBut (g : Graph) (block : NodeId) (slots : List NodeId) : Prop where
  parents_count : ∀ c, g.isLive c → ∀ p, (g.parents c).count p =
    if p = block then slots.count c else if g.isLive p then (g.children p).count c else 0
  slots_lt : ∀ c ∈ slots, c < g.size
  children_lt : ∀ p, g.isLive p → p ≠ block → ∀ c ∈ g.children p, c < g.size

section
variable {block : NodeId} {slots : List NodeId}

theorem Tallied.but (hg : g.Tallied) (hblock : g.isLive block)
    (hlt : ∀ p, g.isLive p → ∀ c ∈ g.children p, c < g.size) :
    g.TalliedBut block (g.children block) := by
  refine ⟨fun c hc p => ?_, hlt block hblock, fun p hp _ => hlt p hp⟩
  rw [hg.parents_count c hc]
  by_cases hp : p = block
  · rw [if_pos hp, hp, if_pos hblock]
  · rw [if_neg hp]

namespace TalliedBut

/-- The block has the slots it was counted with. -/
theorem tallied (h : g.TalliedBut block slots) (hblock : g.isLive block)
    (hslots : (g.children block).Perm slots) : g.Tallied := by
  refine ⟨fun c hc p => ?_⟩
  rw [h.parents_count c hc]
  split
  · next hp => rw [if_pos (hp ▸ hblock), hp, hslots.count_eq]
  · rfl

theorem perm (h : g.TalliedBut block slots) {slots' : List NodeId} (hperm : slots.Perm slots') :
    g.TalliedBut block slots' :=
  ⟨fun c hc p => by rw [h.parents_count c hc, hperm.count_eq],
    fun c hc => h.slots_lt c (hperm.mem_iff.2 hc), h.children_lt⟩

theorem link (h : g.TalliedBut block slots) {a : NodeId} (ha : a < g.size) :
    (g.link block a).TalliedBut block (a :: slots) := by
  have hsame := SameExprs.link g block a
  refine ⟨fun c hc p => ?_, fun c hc => ?_, fun p hp hpb c hc => ?_⟩
  · rw [isLive_link] at hc
    rw [isLive_link, hsame.children_eq]
    by_cases hp : p = block
    · rw [if_pos hp, hp, count_parents_link block a (lt_size_of_isLive hc), h.parents_count c hc,
        if_pos rfl, count_cons (l := slots), count_singleton]
    · have hcount : ((g.link block a).parents c).count p = (g.parents c).count p := by
        rw [parents_link]
        split
        · simp [Ne.symm hp]
        · rfl
      rw [if_neg hp, hcount, h.parents_count c hc, if_neg hp]
  · rw [size_link]
    rcases mem_cons.1 hc with rfl | hc
    · exact ha
    · exact h.slots_lt c hc
  · rw [isLive_link] at hp
    rw [hsame.children_eq] at hc
    rw [size_link]
    exact h.children_lt p hp hpb c hc

theorem unlink (h : g.TalliedBut block slots) (a : NodeId) :
    (g.unlink block a).TalliedBut block (slots.erase a) := by
  have hsame := SameExprs.unlink g block a
  refine ⟨fun c hc p => ?_, fun c hc => ?_, fun p hp hpb c hc => ?_⟩
  · rw [isLive_unlink] at hc
    have hcount : ((g.unlink block a).parents c).count p =
        (g.parents c).count p - if p = block ∧ c = a then 1 else 0 := by
      rw [parents_unlink]
      by_cases hca : c = a
      · rw [if_pos ⟨hca, lt_size_of_isLive hc⟩, count_withoutOne]
        simp only [hca, and_true, eq_comm (a := block)]
      · rw [if_neg fun hand => hca hand.1, if_neg fun hand => hca hand.2, Nat.sub_zero]
    rw [isLive_unlink, hsame.children_eq, hcount, h.parents_count c hc, count_erase]
    by_cases hp : p = block
    · simp [hp, eq_comm (a := c)]
    · simp [hp]
  · rw [size_unlink]
    exact h.slots_lt c (mem_of_mem_erase hc)
  · rw [isLive_unlink] at hp
    rw [hsame.children_eq] at hc
    rw [size_unlink]
    exact h.children_lt p hp hpb c hc

theorem linkAll (as : List NodeId) : ∀ {g : Graph} {slots : List NodeId},
    g.TalliedBut block slots → (∀ a ∈ as, a < g.size) →
      (as.foldl (fun g a => g.link block a) g).TalliedBut block (as.reverse ++ slots) := by
  induction as with
  | nil => exact fun h _ => h
  | cons a as ih =>
    intro g slots h has
    rw [foldl_cons, reverse_cons, append_assoc]
    exact ih (h.link (has a (.head _))) fun c hc => by
      rw [size_link]
      exact has c (mem_cons_of_mem a hc)

theorem unlinkAll (as : List NodeId) : ∀ {g : Graph} {slots : List NodeId},
    g.TalliedBut block slots →
      (as.foldl (fun g a => g.unlink block a) g).TalliedBut block (slots.diff as) := by
  induction as with
  | nil => exact fun h => h
  | cons a as ih =>
    intro g slots h
    rw [foldl_cons, diff_cons]
    exact ih (h.unlink a)

theorem congr (h : g.TalliedBut block slots) {k : Graph} (hsize : k.size = g.size)
    (hparents : ∀ v, k.parents v = g.parents v) (hlive : ∀ v, k.isLive v = g.isLive v)
    (hchildren : ∀ v, v ≠ block → k.children v = g.children v) : k.TalliedBut block slots := by
  refine ⟨fun c hc p => ?_, fun c hc => hsize ▸ h.slots_lt c hc, fun p hp hpb c hc => ?_⟩
  · rw [hlive] at hc
    rw [hparents, hlive, h.parents_count c hc]
    split
    · rfl
    · next hp => rw [hchildren p hp]
  · rw [hlive] at hp
    rw [hchildren p hpb] at hc
    exact hsize ▸ h.children_lt p hp hpb c hc

theorem modifyExpr (h : g.TalliedBut block slots) (f : Expr → Expr) :
    (g.modifyExpr block f).TalliedBut block slots :=
  h.congr (size_modify ..) (fun _ => parents_modifyExpr _ _) (fun _ => isLive_modifyExpr _ _)
    fun v hv => by rw [children, expr_modifyExpr, if_neg fun hand => hv hand.1, children]

theorem modifyBlock (h : g.TalliedBut block slots) (f : Block → Block) :
    (g.modifyBlock block f).TalliedBut block slots := h.modifyExpr _

/-- The slots of a new node are recorded. -/
theorem add (h : g.TalliedBut block slots) (hblock : block < g.size) {e : Expr}
    (he : ∀ c ∈ e.children, c < g.size) : (g.add e).2.TalliedBut block slots := by
  have hne : block ≠ g.size := hblock.ne
  have hlt {p : NodeId} (hp : (g.add e).2.isLive p) (hpb : p ≠ block) :
      ∀ c ∈ (g.add e).2.children p, c < g.size := by
    rw [children_add]
    split
    · exact he
    · next hpnew => exact h.children_lt p ((isLive_add_iff.1 hp).resolve_left hpnew) hpb
  refine ⟨fun c hc p => ?_, fun c hc => ?_, fun p hp hpb c hc => ?_⟩
  · rw [count_parents_add he]
    rcases isLive_add_iff.1 hc with rfl | hc
    · -- Nothing uses the new node.
      have hnone {cs : List NodeId} (hcs : ∀ c ∈ cs, c < g.size) : cs.count g.size = 0 :=
        count_eq_zero.2 fun hmem => (hcs _ hmem).false
      rw [parents_of_size_le le_rfl, hnone he, hnone h.slots_lt, ite_self]
      split
      · rfl
      · next hpb =>
        split
        · next hp => exact (hnone (hlt hp hpb)).symm
        · rfl
    · rw [h.parents_count c hc, children_add]
      by_cases hpb : p = block
      · simp [hpb, hne]
      · by_cases hpnew : p = g.size
        · simp [hpnew, Ne.symm hne, isLive_add_iff, isLive_of_size_le le_rfl]
        · simp [hpb, hpnew, isLive_add_iff]
  · rw [size_add]
    exact Nat.lt_succ_of_lt (h.slots_lt c hc)
  · rw [size_add]
    exact Nat.lt_succ_of_lt (hlt hp hpb c hc)

/-- A conjunction that is taken apart leaves no entries behind. -/
theorem dissolve (h : g.TalliedBut block slots) {call : NodeId} {args : List NodeId}
    (hcall : g.expr call = .call .and args) (hlive : g.isLive call) (hne : call ≠ block) :
    (g.dissolve call args).TalliedBut block slots := by
  have hchildren : g.children call = args := by rw [children, hcall]; rfl
  have hkept {p : NodeId} (hp : (g.dissolve call args).isLive p) : p ≠ call ∧ g.isLive p := by
    rw [isLive_dissolve hcall] at hp
    split at hp
    · cases hp
    · next hpc => exact ⟨hpc, hp⟩
  have hother {p : NodeId} (hp : p ≠ call) : (g.dissolve call args).children p = g.children p := by
    rw [children, expr_dissolve hcall, if_neg hp, children]
  refine ⟨fun c hc p => ?_, fun c hc => ?_, fun p hp hpb c hc => ?_⟩
  · obtain ⟨hcc, hclive⟩ := hkept hc
    by_cases hpc : p = call
    · have hnone : ((g.dissolve call args).parents c).count call = 0 := by
        rw [parents, node_dissolve hcall, if_neg hcc]
        refine (count_parents_unlinkAll call (lt_size_of_isLive hclive) args).trans ?_
        rw [h.parents_count c hclive, if_neg hne, if_pos hlive, hchildren, Nat.sub_self]
      rw [hpc, hnone, if_neg hne, isLive_dissolve hcall, if_pos rfl]
      rfl
    · rw [count_parents_dissolve hcall hcc hpc, h.parents_count c hclive, isLive_dissolve hcall,
        if_neg hpc, hother hpc]
  · rw [size_dissolve]
    exact h.slots_lt c hc
  · obtain ⟨hpc, hplive⟩ := hkept hp
    rw [hother hpc] at hc
    rw [size_dissolve]
    exact h.children_lt p hplive hpb c hc

end TalliedBut

end

end ShardedQuery.Graph
