import ShardedQuery.Proofs.Graph.Frame

/-!
# Links and whole nodes

What single edits make of a node with all that is recorded at it: its expression, its parents, the
type kept for it and whether it is alive. Parent lists are multisets, so that they are compared by
counting.

A refresh changes nothing but kept types: `Graph.SameShape` holds between the graphs before and
after it. Putting a node between another and its parents is, up to such refreshes, the graph
`Graph.inserted`.
-/

namespace ShardedQuery.Graph

open List

variable {g h : Graph} {p : NodeId} {e : Expr} {ps : List NodeId}

/-! ## Parent lists -/

/-- A list is split at the first place of an element. -/
theorem exists_of_findIdx? {i : NodeId} (hi : ps.findIdx? (· == p) = some i) :
    ∃ before after, ps = before ++ p :: after ∧ before.length = i ∧ p ∉ before := by
  obtain ⟨hlt, hp, hmin⟩ := findIdx?_eq_some_iff_getElem.1 hi
  refine ⟨ps.take i, ps.drop (i + 1), ?_, length_take_of_le (Nat.le_of_lt hlt), ?_⟩
  · have hpi : ps[i] = p := by simpa using hp
    rw [← hpi, getElem_cons_drop, take_append_drop]
  · intro hmem
    obtain ⟨j, hj, hpj⟩ := getElem_of_mem hmem
    rw [length_take_of_le (Nat.le_of_lt hlt)] at hj
    rw [getElem_take] at hpj
    exact hmin j hj (by simp [hpj])

/-- The last entry of a list takes the place of the entry that is taken out. -/
theorem withoutOne_perm (p : NodeId) (ps : List NodeId) :
    (withoutOne p ps).Perm (ps.erase p) := by
  unfold withoutOne
  split
  case h_1 hnone =>
    have hnot : p ∉ ps := by
      intro hp
      have := findIdx?_eq_none_iff.1 hnone p hp
      simp at this
    rw [erase_of_not_mem hnot]
  case h_2 i hi =>
    obtain ⟨before, after, rfl, rfl, hbefore⟩ := exists_of_findIdx? hi
    rw [erase_append_right _ hbefore, erase_cons_head, set_append_right _ _ (by omega),
      Nat.sub_self, set_cons_zero]
    rcases eq_nil_or_concat after with rfl | ⟨init, last, rfl⟩
    · simp
    · have hlast : (before ++ p :: init.concat last).getLastD p = last := by
        rw [concat_eq_append, ← cons_append, ← append_assoc, getLastD_concat]
      rw [hlast, concat_eq_append, ← cons_append, ← append_assoc,
        dropLast_concat]
      exact Perm.append_left before (perm_append_singleton last init).symm

theorem count_withoutOne (p q : NodeId) (ps : List NodeId) :
    (withoutOne p ps).count q = ps.count q - if p = q then 1 else 0 := by
  rw [(withoutOne_perm p ps).count_eq, count_erase]
  simp only [beq_iff_eq]

theorem mem_of_mem_withoutOne {q : NodeId} (h : q ∈ withoutOne p ps) : q ∈ ps :=
  mem_of_mem_erase ((withoutOne_perm p ps).mem_iff.1 h)

/-! ## Nodes after an edit -/

section
variable {v : NodeId}

theorem node_of_size_le (h : g.size ≤ v) : g.node v = Node.absent := by
  have hnone : g.nodes[v]? = none := Array.getElem?_eq_none h
  simp [node, Array.getD_eq_getD_getElem?, hnone]

/-- A change that leaves an absent node absent is seen at its node, wherever that is. -/
theorem node_modify_of_absent {id : NodeId} {f : Node → Node} (hf : f .absent = .absent) :
    (g.modify id f).node v = if v = id then f (g.node v) else g.node v := by
  rw [node_modify]
  by_cases hv : v < g.size
  · simp only [hv, and_true]
  · rw [if_neg fun h => hv h.2, node_of_size_le (Nat.le_of_not_lt hv), hf, ite_self]

theorem node_detach {id : NodeId} : (g.detach id).node v =
    if v = id then { g.node v with parents := [] } else g.node v :=
  node_modify_of_absent rfl

theorem node_kill {id : NodeId} : (g.kill id).node v =
    if v = id then { g.node v with live := false, parents := [] } else g.node v :=
  node_modify_of_absent rfl

theorem isLive_kill {id : NodeId} :
    (g.kill id).isLive v = if v = id then false else g.isLive v := by
  rw [isLive, node_kill]
  split <;> rfl

theorem lt_size_of_isLive (h : g.isLive v) : v < g.size := by
  rcases Nat.lt_or_ge v g.size with hlt | hge
  · exact hlt
  · simp [isLive, node_of_size_le hge, Node.absent] at h

theorem parents_of_size_le (h : g.size ≤ v) : g.parents v = [] := by
  rw [parents, node_of_size_le h]
  rfl

section
variable (id : NodeId) (f : Expr → Expr)

theorem parents_modifyExpr : (g.modifyExpr id f).parents v = g.parents v := by
  simp only [parents, modifyExpr, node_modify]
  split <;> rfl

theorem isLive_modifyExpr : (g.modifyExpr id f).isLive v = g.isLive v := by
  simp only [isLive, modifyExpr, node_modify]
  split <;> rfl

theorem type?_modifyExpr : (g.modifyExpr id f).type? v = g.type? v := by
  simp only [type?, modifyExpr, node_modify]
  split <;> rfl

end

theorem size_link (p c : NodeId) : (g.link p c).size = g.size := size_modify ..

theorem size_unlink (p c : NodeId) : (g.unlink p c).size = g.size := size_modify ..

theorem parents_link (p c : NodeId) : (g.link p c).parents v =
    if v = c ∧ v < g.size then g.parents v ++ [p] else g.parents v := by
  simp only [parents, link, node_modify]
  split <;> rfl

theorem count_parents_link (p c : NodeId) (hv : v < g.size) :
    ((g.link p c).parents v).count p = (g.parents v).count p + [c].count v := by
  rw [parents_link]
  by_cases hvc : v = c
  · rw [if_pos ⟨hvc, hv⟩, hvc]
    simp
  · rw [if_neg fun h => hvc h.1, count_singleton, if_neg (by simpa using Ne.symm hvc)]
    rfl

theorem isLive_link (p c : NodeId) : (g.link p c).isLive v = g.isLive v := by
  simp only [isLive, link, node_modify]
  split <;> rfl

theorem type?_link (p c : NodeId) : (g.link p c).type? v = g.type? v := by
  rw [type?, link, node_modify]
  split <;> rfl

theorem parents_unlink (p c : NodeId) : (g.unlink p c).parents v =
    if v = c ∧ v < g.size then withoutOne p (g.parents v) else g.parents v := by
  simp only [parents, unlink, node_modify]
  split <;> rfl

theorem isLive_unlink (p c : NodeId) : (g.unlink p c).isLive v = g.isLive v := by
  simp only [isLive, unlink, node_modify]
  split <;> rfl

/-- Unlinking a node from a list of children: each loses one entry for each of its places there. -/
theorem count_parents_unlinkAll (p : NodeId) (hv : v < g.size) (cs : List NodeId) :
    ((cs.foldl (fun g c => g.unlink p c) g).parents v).count p =
      (g.parents v).count p - cs.count v := by
  induction cs generalizing g with
  | nil => rfl
  | cons c cs ih =>
    rw [foldl_cons, ih (by rwa [size_unlink]), parents_unlink, count_cons]
    by_cases hvc : v = c
    · rw [if_pos ⟨hvc, hv⟩, count_withoutOne, hvc]
      simp only [beq_self_eq_true, if_true]
      omega
    · rw [if_neg fun h => hvc h.1, if_neg (by simpa using Ne.symm hvc)]
      rfl

theorem isLive_unlinkAll (p : NodeId) (cs : List NodeId) :
    (cs.foldl (fun g c => g.unlink p c) g).isLive v = g.isLive v := by
  induction cs generalizing g with
  | nil => rfl
  | cons c cs ih => rw [foldl_cons, ih, isLive_unlink]

theorem type?_unlink (p c : NodeId) : (g.unlink p c).type? v = g.type? v := by
  rw [type?, unlink, node_modify]
  split <;> rfl

theorem type?_unlinkAll (p : NodeId) (cs : List NodeId) :
    (cs.foldl (fun k c => k.unlink p c) g).type? v = g.type? v := by
  induction cs generalizing g with
  | nil => rfl
  | cons c cs ih => rw [foldl_cons, ih, type?_unlink]

/-- Unlinking takes entries out of parent lists, and none for other nodes. -/
theorem parents_unlinkAll (p : NodeId) (cs : List NodeId) :
    (∀ q ∈ (cs.foldl (fun k c => k.unlink p c) g).parents v, q ∈ g.parents v) ∧
      ∀ q, q ≠ p →
        ((cs.foldl (fun k c => k.unlink p c) g).parents v).count q = (g.parents v).count q := by
  induction cs generalizing g with
  | nil => exact ⟨fun q hq => hq, fun q _ => rfl⟩
  | cons c cs ih =>
    rw [foldl_cons]
    obtain ⟨hmem, hcount⟩ := ih (g := g.unlink p c)
    refine ⟨fun q hq => ?_, fun q hq => ?_⟩
    · have hq := hmem q hq
      rw [parents_unlink] at hq
      split at hq
      · exact mem_of_mem_withoutOne hq
      · exact hq
    · rw [hcount q hq, parents_unlink]
      split
      · rw [count_withoutOne, if_neg (Ne.symm hq), Nat.sub_zero]
      · rfl

theorem isLive_linkAll (p : NodeId) (cs : List NodeId) :
    (cs.foldl (fun g c => g.link p c) g).isLive v = g.isLive v := by
  induction cs generalizing g with
  | nil => rfl
  | cons c cs ih => rw [foldl_cons, ih, isLive_link]

theorem type?_linkAll (p : NodeId) (cs : List NodeId) :
    (cs.foldl (fun g c => g.link p c) g).type? v = g.type? v := by
  induction cs generalizing g with
  | nil => rfl
  | cons c cs ih => rw [foldl_cons, ih, type?_link]

/-- Linking a node to a list of children: each gets one entry for each of its places there. -/
theorem node_linkAll (p : NodeId) (hv : v < g.size) (cs : List NodeId) :
    (cs.foldl (fun g c => g.link p c) g).node v =
      { g.node v with parents := g.parents v ++ List.replicate (cs.count v) p } := by
  induction cs generalizing g with
  | nil => simp [parents]
  | cons c cs ih =>
    have hlink : (g.link p c).node v =
        { g.node v with parents := g.parents v ++ List.replicate ([c].count v) p } := by
      rw [link, node_modify]
      by_cases hc : v = c
      · subst hc
        simp [hv, parents]
      · simp [hc, Ne.symm hc, parents]
    have hcount : (c :: cs).count v = [c].count v + cs.count v := by
      rw [← count_append]
      rfl
    rw [foldl_cons, ih (by rwa [size_link]), parents, hlink, hcount]
    simp only [append_assoc, replicate_append_replicate]

section
variable (e : Expr) (hv : v < g.size)
include hv

theorem node_add_of_lt : (g.add e).2.node v =
      { g.node v with parents := g.parents v ++ List.replicate (e.children.count v) g.size } := by
  have hsame := SameExprs.foldl (fun g' c => SameExprs.link g' g.size c) e.children g
  have hlt : v < (e.children.foldl (fun g' c => g'.link g.size c) g).nodes.size :=
    Nat.lt_of_lt_of_eq hv hsame.size_eq.symm
  rw [← node_linkAll g.size hv e.children]
  simp [add, node, Array.getD_eq_getD_getElem?, Array.getElem?_push_lt hlt, hlt]

theorem expr_add_of_lt : (g.add e).2.expr v = g.expr v := by
  rw [expr_add_eq, if_neg (Nat.ne_of_lt hv)]

theorem isLive_add_of_lt : (g.add e).2.isLive v = g.isLive v := by
  rw [isLive, node_add_of_lt e hv, isLive]

theorem parents_add_of_lt : (g.add e).2.parents v =
    g.parents v ++ List.replicate (e.children.count v) g.size := by
  rw [parents, node_add_of_lt e hv]

end

theorem node_add_self (e : Expr) : (g.add e).2.node g.size = { expr := e } := by
  have hsame := SameExprs.foldl (fun g' c => SameExprs.link g' g.size c) e.children g
  have hsize : (e.children.foldl (fun g' c => g'.link g.size c) g).nodes.size = g.size :=
    hsame.size_eq
  rw [node, Array.getD_eq_getD_getElem?, ← hsize]
  simp [add]

theorem isLive_add_iff : (g.add e).2.isLive v ↔ v = g.size ∨ g.isLive v := by
  rcases Nat.lt_trichotomy v g.size with hv | rfl | hv
  · simp [isLive_add_of_lt e hv, Nat.ne_of_lt hv]
  · simp [isLive, node_add_self]
  · have hge : (g.add e).2.size ≤ v := size_add g e ▸ hv
    simp [isLive, node_of_size_le hge, node_of_size_le (Nat.le_of_lt hv), Nat.ne_of_gt hv, Node.absent]

theorem children_add (e : Expr) :
    (g.add e).2.children v = if v = g.size then e.children else g.children v := by
  rw [children, expr_add_eq]
  split <;> rfl

theorem count_parents_add (he : ∀ c ∈ e.children, c < g.size) (p : NodeId) :
    ((g.add e).2.parents v).count p =
      (g.parents v).count p + if p = g.size then e.children.count v else 0 := by
  rcases Nat.lt_or_ge v g.size with hv | hv
  · rw [parents_add_of_lt e hv, count_append, count_replicate]
    simp only [beq_iff_eq, eq_comm (a := p)]
  · have hnil : (g.add e).2.parents v = [] := by
      rcases Nat.eq_or_lt_of_le hv with rfl | hv
      · rw [parents, node_add_self]
      · exact parents_of_size_le (size_add g e ▸ hv)
    rw [hnil, parents_of_size_le hv, count_eq_zero_of_not_mem fun hmem =>
      Nat.not_lt.2 hv (he v hmem)]
    simp

theorem type?_add (e : Expr) : (g.add e).2.type? v = g.type? v := by
  rcases Nat.lt_trichotomy v g.size with hv | rfl | hv
  · rw [type?, node_add_of_lt e hv, type?]
  · simp [type?, node_add_self, node_of_size_le (Nat.le_refl g.size), Node.absent]
  · have hge : (g.add e).2.size ≤ v := size_add g e ▸ hv
    simp [type?, node_of_size_le hge, node_of_size_le (Nat.le_of_lt hv)]

end

/-! ## The root -/

theorem root_foldl {α : Type} (step : Graph → α → Graph) (hstep : ∀ g x, (step g x).root = g.root) :
    ∀ (xs : List α) (g : Graph), (xs.foldl step g).root = g.root
  | [], _ => rfl
  | x :: xs, g => (root_foldl step hstep xs (step g x)).trans (hstep g x)

theorem root_add (e : Expr) : (g.add e).2.root = g.root :=
  root_foldl (fun h c => h.link g.size c) (fun _ _ => rfl) e.children g

theorem root_release (id : NodeId) :
    ∀ (cs : List NodeId) (g : Graph), (g.release id cs).2.root = g.root
  | [], _ => rfl
  | c :: cs, g => by
    rw [release]
    dsimp only
    split <;> exact root_release id cs (g.unlink id c)

theorem root_sweep : ∀ (n : Nat) (work : List NodeId) (g : Graph), (sweep n work g).root = g.root
  | 0, _, _ => rfl
  | _ + 1, [], _ => rfl
  | n + 1, id :: work, g => by
    rw [sweep]
    split
    · dsimp only
      rw [root_sweep n, root_foldl bury fun _ _ => rfl, root_release]
      rfl
    · exact root_sweep n work g

/-! ## Refreshing -/

/-- The two graphs differ in kept types only. -/
structure SameShape (g h : Graph) : Prop extends SameExprs g h where
  root_eq : h.root = g.root
  parents_eq : ∀ v, h.parents v = g.parents v
  live_eq : ∀ v, h.isLive v = g.isLive v

namespace SameShape

theorem refl (g : Graph) : SameShape g g :=
  ⟨.refl g, rfl, fun _ => rfl, fun _ => rfl⟩

theorem trans {k : Graph} (h₁ : SameShape g h) (h₂ : SameShape h k) : SameShape g k :=
  ⟨h₁.toSameExprs.trans h₂.toSameExprs, h₂.root_eq.trans h₁.root_eq,
    fun v => (h₂.parents_eq v).trans (h₁.parents_eq v),
    fun v => (h₂.live_eq v).trans (h₁.live_eq v)⟩

theorem setType (g : Graph) (id : NodeId) (t : SeqType) : SameShape g (g.setType id t) := by
  refine ⟨SameExprs.modify g id fun _ => rfl, rfl, fun v => ?_, fun v => ?_⟩
  · simp only [parents, Graph.setType, node_modify]
    split <;> rfl
  · simp only [isLive, Graph.setType, node_modify]
    split <;> rfl

/-- Working through a stack of nodes changes kept types only. -/
theorem propagate : ∀ (n : Nat) (work : List NodeId) (g : Graph),
    SameShape g (propagate n work g)
  | 0, _, g => refl g
  | _ + 1, [], g => refl g
  | n + 1, id :: work, g => by
    simp only [Graph.propagate]
    split
    · split
      · exact propagate n work g
      · exact (setType g id _).trans (propagate n _ _)
    · exact propagate n work g

theorem refresh (g : Graph) (id : NodeId) : SameShape g (g.refresh id) :=
  propagate _ _ g

theorem refreshAll : ∀ (ids : List NodeId) (g : Graph), SameShape g (ids.foldl Graph.refresh g)
  | [], g => refl g
  | id :: ids, g => (refresh g id).trans (refreshAll ids (g.refresh id))

theorem modifyExpr (hs : SameShape g h) (id : NodeId) (f : Expr → Expr) :
    SameShape (g.modifyExpr id f) (h.modifyExpr id f) := by
  refine ⟨⟨?_, fun v => ?_⟩, hs.root_eq, fun v => ?_, fun v => ?_⟩
  · rw [Graph.modifyExpr, size_modify, Graph.modifyExpr, size_modify, hs.size_eq]
  · rw [expr_modifyExpr, expr_modifyExpr, hs.size_eq, hs.expr_eq]
  · rw [parents_modifyExpr, parents_modifyExpr, hs.parents_eq]
  · rw [isLive_modifyExpr, isLive_modifyExpr, hs.live_eq]

theorem block?_eq (hs : SameShape g h) (id : NodeId) : h.block? id = g.block? id := by
  unfold block?
  rw [hs.expr_eq]

end SameShape

/-! ## Recorded slots -/

/-- Every slot of a node that holds a living node is recorded there. -/
def RecordsSlots (g : Graph) (p : NodeId) : Prop :=
  ∀ c, g.isLive c → (g.children p).count c ≤ (g.parents c).count p

theorem recordsSlots_iff : g.RecordsSlots p ↔
    ∀ c ∈ g.children p, g.isLive c → (g.children p).count c ≤ (g.parents c).count p := by
  refine ⟨fun h c _ => h c, fun h c hc => ?_⟩
  by_cases hmem : c ∈ g.children p
  · exact h c hmem hc
  · rw [count_eq_zero_of_not_mem hmem]
    exact Nat.zero_le _

instance (g : Graph) (p : NodeId) : Decidable (g.RecordsSlots p) :=
  decidable_of_iff' _ recordsSlots_iff

end ShardedQuery.Graph

namespace ShardedQuery.Expr

variable {e : Expr} {f : NodeId → NodeId}

theorem mapChildren_mapChildren (f f' : NodeId → NodeId) (e : Expr) :
    (e.mapChildren f).mapChildren f' = e.mapChildren (f' ∘ f) := by
  cases e <;> simp [mapChildren, Block.mapSlots, Function.comp_def]

/-- Changes of the slots that agree on what stands in them. -/
theorem mapChildren_congr {f' : NodeId → NodeId} (hf : ∀ c ∈ e.children, f c = f' c) :
    e.mapChildren f = e.mapChildren f' := by
  cases e with
  | block b =>
    simp only [children, List.mem_append, List.mem_map, Option.mem_toList] at hf
    simp only [mapChildren, Block.mapSlots, block.injEq, Block.mk.injEq, List.map_inj_left,
      FromEntry.mk.injEq, SelectField.mk.injEq, SortKey.mk.injEq, true_and, and_true]
    refine ⟨fun e he => hf _ (by grind), Option.map_congr fun c hc => hf _ (by grind),
      fun s hs => hf _ (by grind), fun k hk => hf _ (by grind),
      Option.map_congr fun c hc => hf _ (by grind), Option.map_congr fun c hc => hf _ (by grind)⟩
  | scan s =>
    cases hr : s.range with
    | none =>
      simp only [children, hr, List.mem_append, Option.mem_toList, Option.map_none,
        Option.getD_none, List.append_nil] at hf
      simp only [mapChildren, hr, scan.injEq, TableScan.mk.injEq, List.map_inj_left, true_and,
        and_true, Option.map_none]
      exact ⟨fun c hc => hf c (.inl hc), Option.map_congr fun c hc => hf c (.inr hc)⟩
    | some r =>
      simp only [children, hr, List.mem_append, Option.mem_toList, Option.map_some,
        Option.getD_some, FieldRange.ends] at hf
      simp only [mapChildren, hr, scan.injEq, TableScan.mk.injEq, List.map_inj_left, true_and,
        and_true, Option.map_some, Option.some.injEq, FieldRange.mk.injEq]
      refine ⟨fun c hc => hf c (by grind), ⟨Option.map_congr fun c hc => hf c (by grind),
        Option.map_congr fun c hc => hf c (by grind)⟩, Option.map_congr fun c hc => hf c (by grind)⟩
  | case branches otherwise =>
    simp only [children, List.mem_append, List.mem_flatMap, Option.mem_toList] at hf
    simp only [mapChildren, case.injEq, List.map_inj_left, Prod.mk.injEq]
    exact ⟨fun b hb => ⟨hf _ (by grind), hf _ (by grind)⟩,
      Option.map_congr fun c hc => hf c (.inr hc)⟩
  | slice input low high ctx =>
    simp only [children, List.mem_cons, List.mem_append, Option.mem_toList] at hf
    simp only [mapChildren, slice.injEq, and_true]
    exact ⟨hf _ (.inl rfl), Option.map_congr fun c hc => hf c (by grind),
      Option.map_congr fun c hc => hf c (by grind)⟩
  | filter input condition ctx | mapFilter part input condition ctx =>
    simp only [children, List.mem_cons, Option.mem_toList] at hf
    simp only [mapChildren, filter.injEq, mapFilter.injEq, and_true, true_and]
    exact ⟨hf _ (.inl rfl), Option.map_congr fun c hc => hf c (.inr hc)⟩
  | _ => simp_all [mapChildren, children]

theorem mapChildren_id (e : Expr) : e.mapChildren id = e := by
  cases e <;> simp [mapChildren, Block.mapSlots]

theorem mapChildren_eq_self (hf : ∀ c ∈ e.children, f c = c) : e.mapChildren f = e :=
  (mapChildren_congr hf).trans (mapChildren_id e)

end ShardedQuery.Expr

namespace ShardedQuery.Graph

variable {new old v : NodeId} {g : Graph}

theorem redirect_comp_self (hne : new ≠ old) :
    redirect old new ∘ redirect old new = redirect old new := by
  funext c
  simp only [Function.comp, redirect]
  split <;> simp_all

/-- Redirecting the slots of several nodes, some of them perhaps more than once. -/
theorem node_redirectAll (hne : new ≠ old) (hv : v < g.size) (ps : List NodeId) :
    (ps.foldl (fun g p => g.modifyExpr p (·.mapChildren (redirect old new))) g).node v =
      if v ∈ ps then { g.node v with expr := (g.expr v).mapChildren (redirect old new) }
      else g.node v := by
  induction ps generalizing g with
  | nil => simp
  | cons p ps ih =>
    rw [List.foldl_cons, ih (by simpa [modifyExpr, size_modify] using hv), expr, modifyExpr,
      node_modify]
    have htwice := redirect_comp_self hne
    by_cases hp : v = p <;> by_cases hps : v ∈ ps <;>
      simp_all [Expr.mapChildren_mapChildren, expr]

theorem size_redirectAll (old new : NodeId) (ps : List NodeId) (g : Graph) :
    (ps.foldl (fun g p => g.modifyExpr p (·.mapChildren (redirect old new))) g).size = g.size := by
  induction ps generalizing g with
  | nil => rfl
  | cons p ps ih => rw [List.foldl_cons, ih, modifyExpr, size_modify]

theorem root_redirectAll (old new : NodeId) (ps : List NodeId) (g : Graph) :
    (ps.foldl (fun g p => g.modifyExpr p (·.mapChildren (redirect old new))) g).root = g.root :=
  root_foldl _ (fun _ _ => by rfl) ps g

section
variable {id : NodeId} {make : NodeId → Expr}

theorem root_spliced : (g.spliced id make).root = g.root :=
  (root_redirectAll ..).trans (root_add _)

theorem node_inserted : (g.inserted id make).node v = (g.spliced id make).node v := by
  unfold inserted
  split <;> rfl

theorem root_inserted :
    (g.inserted id make).root = if g.root = some id then some g.size else g.root := by
  unfold inserted
  split
  · rfl
  · exact root_spliced

theorem size_added :
    ((g.detach id).add (make id)).2.size = g.size + 1 := by
  rw [size_add, detach, size_modify]

theorem size_inserted : (g.inserted id make).size = g.size + 1 := by
  have hsize : (g.inserted id make).size = (g.spliced id make).size := by
    unfold inserted
    split <;> rfl
  rw [hsize, spliced, size_modify, size_redirectAll, size_added]

section
variable (hid : id < g.size) (hv : v < g.size)
include hid hv

/-- The old parents use the new node, and what the new node uses knows it. -/
theorem node_inserted_of_lt : (g.inserted id make).node v =
      { g.node v with
        expr := if v ∈ g.parents id then (g.expr v).mapChildren (redirect id g.size) else g.expr v
        parents := (if v = id then [] else g.parents v)
          ++ List.replicate ((make id).children.count v) g.size } := by
  have hadded : ((g.detach id).add (make id)).2.node v =
      { g.node v with
        parents := (if v = id then [] else g.parents v)
          ++ List.replicate ((make id).children.count v) g.size } := by
    rw [node_add_of_lt _ (by rwa [detach, size_modify]), parents, node_detach, detach, size_modify]
    by_cases hvid : v = id <;> simp [hvid, parents]
  rw [node_inserted, spliced, node_modify, if_neg fun h => Nat.ne_of_lt hv h.1,
    node_redirectAll (Nat.ne_of_gt hid) (size_added ▸ Nat.lt_succ_of_lt hv), expr, hadded]
  split <;> rfl

theorem expr_inserted_of_lt : (g.inserted id make).expr v =
      if v ∈ g.parents id then (g.expr v).mapChildren (redirect id g.size) else g.expr v := by
  rw [expr, node_inserted_of_lt hid hv]

theorem parents_inserted_of_lt :
    (g.inserted id make).parents v = (if v = id then [] else g.parents v)
      ++ List.replicate ((make id).children.count v) g.size := by
  rw [parents, node_inserted_of_lt hid hv]

theorem isLive_inserted_of_lt : (g.inserted id make).isLive v = g.isLive v := by
  rw [isLive, node_inserted_of_lt hid hv, isLive]

theorem type?_inserted_of_lt : (g.inserted id make).type? v = g.type? v := by
  rw [type?, node_inserted_of_lt hid hv, type?]

end

/-- The new node has the old parents. -/
theorem node_inserted_self (hid : id < g.size) (hp : ∀ p ∈ g.parents id, p < g.size) :
    (g.inserted id make).node g.size = { expr := make id, parents := g.parents id } := by
  have hlt : g.size < ((g.detach id).add (make id)).2.size := size_added ▸ Nat.lt_succ_self _
  have hself : ((g.detach id).add (make id)).2.node g.size = { expr := make id } := by
    rw [← (SameExprs.detach g id).size_eq]
    exact node_add_self _
  rw [node_inserted, spliced, node_modify, if_pos ⟨rfl, (size_redirectAll ..).symm ▸ hlt⟩,
    node_redirectAll (Nat.ne_of_gt hid) hlt, if_neg fun h => Nat.lt_irrefl _ (hp _ h), hself]

end

end ShardedQuery.Graph
