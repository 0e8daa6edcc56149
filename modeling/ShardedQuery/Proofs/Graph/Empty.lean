import ShardedQuery.Proofs.Graph.Replace

/-!
# The empty sequence in the place of a node

When a node is found to stand for nothing, a new constant takes its place. Up to parent lists this is
`Graph.inserted` with a node that leaves the old one alone. The parents of the old node get new types;
variables over it do not, they are over the empty sequence from now on.
-/

namespace ShardedQuery.Graph

open List

variable {v : NodeId} {g : Graph}

/-! ## The constant in its place -/

/-- A constant in the place of a node, which is still alive, before any type is derived anew. -/
def vacated (g : Graph) (id : NodeId) : Graph := (g.addLiteral .empty).2.redirected id g.size

/-- The graph with the empty sequence above a node. -/
abbrev emptied (g : Graph) (id : NodeId) : Graph := g.inserted id fun _ => .literal .empty

theorem size_vacated {id : NodeId} : (g.vacated id).size = g.size + 1 :=
  size_redirected.trans (size_add ..)

section
variable {id : NodeId} (hid : id < g.size)
include hid

theorem parents_addLiteral : (g.addLiteral .empty).2.parents id = g.parents id := by
  rw [addLiteral, parents_add_of_lt _ hid]
  simp [Expr.children]

theorem replace_addLiteral : (g.addLiteral .empty).2.replace id g.size true =
    (g.parentsInOrder id).foldl refresh ((g.vacated id).destroy id) := by
  rw [replace_eq hid.ne, parentsInOrder, parents_addLiteral hid]
  rfl

theorem size_replace_addLiteral :
    ((g.addLiteral .empty).2.replace id g.size true).size = g.size + 1 := by
  rw [replace_addLiteral hid, (SameShape.refreshAll _ _).size_eq,
    (SameExprs.destroy (g.vacated id) id).size_eq, size_vacated]

variable (hp : ∀ p ∈ g.parents id, p < g.size)
include hp

theorem parents_addLiteral_lt :
    ∀ p ∈ (g.addLiteral .empty).2.parents id, p < (g.addLiteral .empty).2.size := by
  intro p hmem
  rw [parents_addLiteral hid] at hmem
  rw [addLiteral, size_add]
  exact Nat.lt_succ_of_lt (hp p hmem)

theorem sameExprs_vacated : SameExprs (g.emptied id) (g.vacated id) := by
  refine ⟨size_vacated.trans size_inserted.symm, fun v => ?_⟩
  rw [vacated, expr_redirected hid.ne (parents_addLiteral_lt hid hp),
    parents_addLiteral hid, addLiteral, expr_add_eq]
  rcases Nat.lt_trichotomy v g.size with hv | rfl | hv
  · rw [expr_inserted_of_lt hid hv, if_neg hv.ne]
  · rw [expr_inserted_self hid hp, if_neg fun h => (hp _ h).false, if_pos rfl]
  · rw [if_neg fun h => Nat.lt_asymm hv (hp _ h), if_neg hv.ne',
      expr_of_size_le hv.le, expr_of_size_le (by rw [size_inserted]; exact hv)]

theorem type?_vacated : (g.vacated id).type? v =
    (g.emptied id).type? v := by
  rw [vacated, type?_redirected, addLiteral, type?_add]
  rcases Nat.lt_trichotomy v g.size with hv | rfl | hv
  · rw [type?_inserted_of_lt hid hv]
  · rw [type?_of_size_le le_rfl, type?, node_inserted_self hid hp]
  · rw [type?_of_size_le hv.le, type?_of_size_le (by rw [size_inserted]; exact hv)]

theorem isLive_vacated : (g.vacated id).isLive v =
    (g.emptied id).isLive v := by
  rw [vacated, isLive_redirected, addLiteral]
  rcases Nat.lt_trichotomy v g.size with hv | rfl | hv
  · rw [isLive_inserted_of_lt hid hv, isLive_add_of_lt _ hv]
  · rw [isLive_add_self, isLive, node_inserted_self hid hp]
  · rw [isLive_of_size_le (by rw [size_add]; exact hv),
      isLive_of_size_le (by rw [size_inserted]; exact hv)]

end

theorem isInsertable_empty (g : Graph) : g.IsInsertable (.literal .empty) :=
  ⟨fun c hc => (by cases hc), rfl, rfl, nodup_nil, fun u hu => (by cases hu),
    fun b hb => (by cases hb)⟩

section
variable {id : NodeId} (hg : g.Sound) (hlive : g.isLive id) (hscan : (g.expr id).isScan = false)
include hg hlive

theorem linked_vacated : (g.vacated id).Linked := by
  have hid := lt_size_of_isLive hlive
  have hadded : (g.addLiteral .empty).2.Linked :=
    hg.toLinked.add (isInsertable_empty g).children_lt fun _ hnot _ => hg.children_lt hnot
  exact hadded.redirected hid.ne (parents_addLiteral_lt hid (hg.parents_lt id))
    (by rw [addLiteral, size_add]; exact Nat.lt_succ_self _)

include hscan

/-- The constant ranks below everything. -/
theorem sound_inserted_empty : (g.emptied id).Sound := by
  obtain ⟨rank, ho⟩ := hg.ordered
  let rank' : NodeId → Nat := fun v => if v = g.size then 0 else rank v + 1
  have hold {v : NodeId} (hv : v < g.size) : rank' v = rank v + 1 := if_neg hv.ne
  have hlt {v u : NodeId} (hu : u ∈ g.uses v) : v < g.size := Nat.lt_of_not_le fun hle => by
    rw [uses_of_size_le hle] at hu
    cases hu
  have ho' : g.Ordered rank' := by
    refine ⟨fun v u hu => ?_, ho.mem⟩
    rw [hold (hlt hu), hold (ho.mem v u hu)]
    exact Nat.succ_lt_succ (ho.rank_lt v u hu)
  refine Sound.inserted hg hlive (isInsertable_empty g) hscan ho' (fun u hu => ?_) fun v hv => ?_
  · rcases hu with hu | hu <;> cases hu
  · rw [hold (hlt hv)]
    simp [rank']

theorem sound_vacated : (g.vacated id).Sound := by
  have hid := lt_size_of_isLive hlive
  have hexprs := sameExprs_vacated hid (hg.parents_lt id)
  have hsound := sound_inserted_empty hg hlive hscan
  obtain ⟨rank, ho⟩ := hsound.ordered
  exact { linked_vacated hg hlive, hsound.toScoped.sameExprs hexprs fun v =>
    isLive_vacated hid (hg.parents_lt id) with ordered := ⟨rank, hexprs.ordered ho⟩ }

end

/-! ## Types -/

section
variable {id : NodeId} {S : NodeId → Prop} (hw : g.WellTyped S) (hlive : g.isLive id)
  (hscan : (g.expr id).isScan = false)
include hw hlive hscan

theorem isFixed_inserted_empty (hv : v < g.size) (hfixed : g.IsFixed v) :
    (g.emptied id).IsFixed v := by
  have hid := lt_size_of_isLive hlive
  refine ⟨?_, fun x hx => ?_⟩
  · rw [constantType?_inserted hw.toSound hlive (isInsertable_empty g) hscan hv]
    exact hfixed.1
  · have hx' := (expr_inserted_cases hlive (fun _ => .literal .empty) hv).eq_var.1 hx
    obtain ⟨p, b, hdecl, hb, hfirst⟩ := hfixed.2 x hx'
    have hexpr := block?_eq_some.1 hb
    have hp : p < g.size := lt_size_of_expr (by rw [hexpr]; simp)
    rcases expr_inserted_cases hlive (fun _ => .literal .empty) hp with he | he
    · exact ⟨p, b, hdecl, block?_eq_some.2 (he.trans hexpr), hfirst⟩
    · refine ⟨p, _, hdecl, block?_eq_some.2 (he.trans (by rw [hexpr, Expr.mapChildren])), ?_⟩
      rw [Block.firstVar?] at hfirst ⊢
      rw [Block.mapSlots, head?_map, Option.map_map]
      exact hfirst

/-- All types are known in the graph without the old node. -/
theorem known_vacated (hv : grown S g (g.emptied id) v) :
    ((g.vacated id).destroy id).type? v ≠ none ∨ ((g.vacated id).destroy id).IsFixed v := by
  have hid := lt_size_of_isLive hlive
  have hp := hw.parents_lt id
  have hexprs := (sameExprs_vacated hid hp).trans (SameExprs.destroy (g.vacated id) id)
  rw [(Removes.destroy id).type_eq, type?_vacated hid hp]
  rcases hv with hv | ⟨hge, hlt⟩
  · have hin := hw.inside v hv
    rw [type?_inserted_of_lt hid hin]
    exact (hw.known v hv).imp_right fun hfixed =>
      hexprs.isFixed (isFixed_inserted_empty hw hlive hscan hin hfixed)
  · rw [size_inserted] at hlt
    obtain rfl := Nat.le_antisymm (Nat.le_of_lt_succ hlt) hge
    have hself : (g.emptied id).expr g.size = .literal .empty :=
      expr_inserted_self hid hp
    refine .inr (hexprs.isFixed ⟨?_, fun x hx => ?_⟩)
    · rw [constantType?, hself]
      simp
    · rw [hself] at hx
      cases hx

/-- The graph without the old node, whose parents are to be refreshed. -/
theorem maintained_vacated : ((g.vacated id).destroy id).Maintained
    (grown S g (g.emptied id)) (g.parentsInOrder id) := by
  have hid := lt_size_of_isLive hlive
  have hp := hw.parents_lt id
  have hg := hw.toSound
  have hsize : (g.emptied id).size = g.size + 1 := size_inserted
  have hexprs := (sameExprs_vacated hid hp).trans (SameExprs.destroy (g.vacated id) id)
  have hself : (g.emptied id).expr g.size = .literal .empty :=
    expr_inserted_self hid hp
  have hvacated := sound_vacated hg hlive hscan
  have hsound : ((g.vacated id).destroy id).Sound :=
    (Removes.destroy id).sound hvacated (hvacated.declaresBut.destroy hvacated.declaresVars id)
  have hknown (v : NodeId) (hv : grown S g (g.emptied id) v) :=
    known_vacated hw hlive hscan hv
  have hedits := (Edits.inserted hg hlive (isInsertable_empty g) hscan hw.toMaintained).sameExprs
    hexprs (fun v => by rw [(Removes.destroy id).type_eq, type?_vacated hid hp])
    (fun v hv => by rw [← isLive_vacated hid hp]; exact (Removes.destroy id).live v hv)
    fun v hv => (hknown v hv).imp_right And.left
  have hm := hw.toMaintained.edit hsound hedits (fun v hv => ?_) fun v hv u hu => ?_
  · refine hm.dropStale (fun v hv => (hknown v hv).imp_right And.left) fun x hx => ?_
    rw [append_nil] at hx
    rcases mem_append.1 (mem_filter.1 hx).1 with hx | hx
    · exact .inl (mem_parentsInOrder.2 hx)
    · -- A variable that changed its source is over the constant now.
      obtain ⟨hx, hne⟩ := mem_filter.1 hx
      refine .inr ⟨g.size, ?_, (hexprs.expr_eq _).trans hself⟩
      rw [hexprs.varSource?_eq]
      exact ((varSource?_inserted hg hlive (mem_range.1 hx)).resolve_left
        (of_decide_eq_true hne)).2
  · rw [hexprs.size_eq, hsize]
    rcases hv with hv | hv
    · exact Nat.lt_succ_of_lt (hw.inside v hv)
    · exact hsize ▸ hv.2
  · rw [children, hexprs.expr_eq, ← children, (hexprs.sameRule v).reads_eq] at hu
    rcases hv with hv | ⟨hge, hlt⟩
    · exact mem_grown_inserted hg hlive hw.toMaintained hv hu
    · rw [hsize] at hlt
      obtain rfl := Nat.le_antisymm (Nat.le_of_lt_succ hlt) hge
      rw [children, reads, hself] at hu
      rcases hu with hu | hu <;> cases hu

omit hw in
/-- Columns are where they were. -/
theorem isColumn_inserted_empty (hg : g.Sound) {t : SeqType} (hv : v < g.size)
    (hcolumn : (g.emptied id).IsColumn v t) : g.IsColumn v t := by
  have hid := lt_size_of_isLive hlive
  have hself : (g.emptied id).expr g.size = .literal .empty :=
    expr_inserted_self hid (hg.parents_lt id)
  obtain ⟨r, name, x, u, hexpr, hx, hconst, rfl⟩ := hcolumn
  have hr : r < g.size := by
    have hlt : r < (g.emptied id).size :=
      lt_size_of_var hx
    rw [size_inserted] at hlt
    refine Nat.lt_of_le_of_ne (Nat.le_of_lt_succ hlt) fun heq => ?_
    rw [heq, hself] at hx
    cases hx
  have hx' := (expr_inserted_cases hlive (fun _ => .literal .empty) hr).eq_var.1 hx
  have hexpr' : g.expr v = .field r name := by
    rcases expr_inserted_cases hlive (fun _ => .literal .empty) hv with he | he
    · exact he ▸ hexpr
    · rw [he] at hexpr
      cases hold : g.expr v <;> rw [hold] at hexpr <;> cases hexpr
      -- The variable is not the new constant, so that the slot did not change.
      rw [redirect] at hr ⊢
      split
      · next heq =>
        rw [if_pos heq] at hr
        exact absurd hr (Nat.lt_irrefl _)
      · rfl
  rw [constantType?_inserted hg hlive (isInsertable_empty g) hscan hr] at hconst
  exact ⟨r, name, x, u, hexpr', hx', hconst, rfl⟩

/-- A constant takes the place of a node, and the graph stays well-typed. -/
theorem WellTyped.replace : ((g.addLiteral .empty).2.replace id g.size true).WellTyped
    (grown S g ((g.addLiteral .empty).2.replace id g.size true)) := by
  have hid := lt_size_of_isLive hlive
  have hp := hw.parents_lt id
  have hm := maintained_vacated hw hlive hscan
  have hshape := SameShape.refreshAll (g.parentsInOrder id) ((g.vacated id).destroy id)
  have hsize : ((g.parentsInOrder id).foldl refresh ((g.vacated id).destroy id)).size =
      (g.emptied id).size := by
    rw [hshape.size_eq, (SameExprs.destroy (g.vacated id) id).size_eq,
      (sameExprs_vacated hid hp).size_eq]
  rw [replace_addLiteral hid, grown_congr hsize]
  rw [← append_nil (g.parentsInOrder id)] at hm
  refine { hm.refreshAll with
    known := fun v hv => (known_vacated hw hlive hscan hv).imp (kept_refreshAll _)
      hshape.toSameExprs.isFixed
    columns := fun v t hv hcolumn => ?_ }
  have hexprs := (sameExprs_vacated hid hp).trans (SameExprs.destroy (g.vacated id) id)
  have hcolumn := hshape.toSameExprs.isColumn.1 hcolumn
  refine columns_refreshAll _ hm.ordered hm.constants hcolumn ?_
  rw [(Removes.destroy id).type_eq, type?_vacated hid hp]
  rcases hv with hv | ⟨hge, hlt⟩
  · have hin := hw.inside v hv
    rw [type?_inserted_of_lt hid hin]
    exact hw.columns v t hv
      (isColumn_inserted_empty hlive hscan hw.toSound hin (hexprs.isColumn.1 hcolumn))
  · -- The constant is no column.
    rw [size_inserted] at hlt
    obtain rfl := Nat.le_antisymm (Nat.le_of_lt_succ hlt) hge
    obtain ⟨r, name, x, u, hexpr, -⟩ := hexprs.isColumn.1 hcolumn
    rw [expr_inserted_self hid hp] at hexpr
    cases hexpr

end

end ShardedQuery.Graph
