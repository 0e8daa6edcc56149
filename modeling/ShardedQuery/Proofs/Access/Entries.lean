import ShardedQuery.Proofs.Access.Rewrite
import ShardedQuery.Proofs.Graph.Clauses

/-!
# FROM entries that go

A block loses the FROM entries that nothing uses any more, the last one first.
-/

namespace ShardedQuery.Graph

open List

variable {e first : FromEntry} {kept pre rest : List FromEntry} {b : Block} {g : Graph}
  {block : NodeId} {S : NodeId → Prop}

theorem eraseIdx_entry (first e : FromEntry) (pre kept : List FromEntry) :
    (first :: pre ++ e :: kept).eraseIdx (pre.length + 1) = first :: pre ++ kept := by
  simp only [cons_append, eraseIdx_cons_succ,
    eraseIdx_append_of_length_le le_rfl, Nat.sub_self, eraseIdx_cons_zero]

theorem block?_dropEntry (hb : g.block? block = some b)
    (hentries : b.entries = first :: pre ++ e :: kept) :
    (g.dropEntry block (pre.length + 1) e).block? block =
      some { b with entries := first :: pre ++ kept } := by
  have hmodified := block?_modifyBlock hb fun b =>
    { b with entries := b.entries.eraseIdx (pre.length + 1) }
  rw [block?, (sameExprs_dropEntry g block (pre.length + 1) e).expr_eq, ← block?, hmodified, hentries,
    eraseIdx_entry]

theorem size_dropEntry (g : Graph) (block : NodeId) (pos : Nat) (e : FromEntry) :
    (g.dropEntry block pos e).size = g.size := by
  rw [(sameExprs_dropEntry g block pos e).size_eq, modifyBlock, modifyExpr, size_modify]

theorem size_dropUnused (g : Graph) (block : NodeId) (absorbed : List NodeId) :
    (g.dropUnused block absorbed).size = g.size := by
  unfold dropUnused
  refine foldlRecOn (motive := fun k : Graph => k.size = g.size) _ _ rfl fun k hk x _ => ?_
  unfold dropTurn
  split
  · rw [size_dropEntry, hk]
  · exact hk

theorem dropUnused_eq (hb : g.block? block = some b) (hentries : b.entries = first :: rest)
    (absorbed : List NodeId) :
    g.dropUnused block absorbed = (rest.zipIdx 1).reverse.foldl (dropTurn block absorbed) g := by
  unfold dropUnused
  simp only [hb, Option.map_some, Option.getD_some, hentries, zipIdx_cons, drop_succ_cons,
    drop_zero]

/-- The FROM entry `e` of the block is next, after those of `post`, of which `kept` are left. -/
structure IsTurn (k : Graph) (block : NodeId) (b : Block) (first : FromEntry)
    (rest pre : List FromEntry) (e : FromEntry) (post kept : List FromEntry) : Prop where
  rest_eq : rest = pre ++ e :: post
  kept_sublist : kept.Sublist post
  block_eq : k.block? block = some { b with entries := first :: pre ++ e :: kept }

/-- Dropping FROM entries, one after the other: `P` relates a graph to the entries that had their turn
and those of them that are kept. -/
theorem dropUnused_induct (absorbed : List NodeId)
    {P : Graph → List FromEntry → List FromEntry → Prop} (hb : g.block? block = some b)
    (hentries : b.entries = first :: rest) (hstart : P g [] [])
    (hdrop : ∀ {k pre e post kept}, IsTurn k block b first rest pre e post kept →
      k.drops absorbed e → P k post kept → P (k.dropEntry block (pre.length + 1) e) (e :: post) kept)
    (hkeep : ∀ {k pre e post kept}, IsTurn k block b first rest pre e post kept →
      k.drops absorbed e = false → P k post kept → P k (e :: post) (e :: kept)) :
    ∃ kept, kept.Sublist rest ∧
      (g.dropUnused block absorbed).block? block = some { b with entries := first :: kept } ∧
      P (g.dropUnused block absorbed) rest kept := by
  have hfold (pre : List FromEntry) : ∀ {k : Graph} {post kept : List FromEntry},
      rest = pre ++ post → kept.Sublist post →
      k.block? block = some { b with entries := first :: pre ++ kept } → P k post kept →
      ∃ kept', kept'.Sublist rest ∧
        ((pre.zipIdx 1).reverse.foldl (dropTurn block absorbed) k).block? block =
          some { b with entries := first :: kept' } ∧
        P ((pre.zipIdx 1).reverse.foldl (dropTurn block absorbed) k) rest kept' := by
    induction pre using reverseRecOn with
    | nil =>
      rintro k post kept rfl hsub hk hP
      exact ⟨_, hsub, hk, hP⟩
    | append_singleton pre e ih =>
      intro k post kept hrest hsub hk hP
      have hrest' : rest = pre ++ e :: post := by rw [hrest, append_assoc]; rfl
      have hk' : k.block? block = some { b with entries := first :: pre ++ e :: kept } := by
        rw [hk]
        simp
      have hturn : IsTurn k block b first rest pre e post kept := ⟨hrest', hsub, hk'⟩
      rw [zipIdx_append, reverse_append, zipIdx_singleton, reverse_singleton,
        singleton_append, foldl_cons, Nat.add_comm, dropTurn]
      dsimp only
      split
      · next hcond =>
        have hdropped := block?_dropEntry hk' rfl
        exact ih hrest' (hsub.cons e) hdropped (hdrop hturn hcond hP)
      · next hcond =>
        exact ih hrest' (hsub.cons_cons e) hk' (hkeep hturn (Bool.eq_false_iff.2 hcond) hP)
  have hb' : g.block? block = some { b with entries := first :: rest ++ [] } := by
    rw [hb, append_nil, ← hentries]
  rw [dropUnused_eq hb hentries]
  exact hfold rest (append_nil _).symm (Sublist.refl _) hb' hstart

/-- Dropping FROM entries leaves the first one. -/
theorem block?_dropUnused (hb : g.block? block = some b) (absorbed : List NodeId) :
    ∃ entries, (g.dropUnused block absorbed).block? block = some { b with entries := entries } ∧
      entries.head? = b.entries.head? ∧ entries.Sublist b.entries := by
  cases hentries : b.entries with
  | nil =>
    have hsame : g.dropUnused block absorbed = g := by
      unfold dropUnused
      simp [hb, hentries]
    exact ⟨[], by rw [hsame, hb, ← hentries], rfl, .slnil⟩
  | cons first rest =>
    obtain ⟨kept, hkept, hblock, -⟩ := dropUnused_induct absorbed (P := fun _ _ _ => True) hb hentries
      trivial (fun _ _ _ => trivial) fun _ _ _ => trivial
    exact ⟨_, hblock, rfl, hkept.cons_cons first⟩

theorem mem_parents_dropEntry {v q : NodeId} {pos : Nat}
    (hq : q ∈ (g.dropEntry block pos e).parents v) : q ∈ g.parents v := by
  have hmem := (Removes.destroyIfUnused e.domain).mem_parents v q
    ((Removes.destroy e.var).mem_parents v q hq)
  have hunlinked := (parents_unlinkAll block [e.domain]).1 q hmem
  rwa [modifyBlock, parents_modifyExpr] at hunlinked

/-- An absorbed variable is kept only if something uses it. -/
theorem parents_ne_nil_of_kept {absorbed : List NodeId}
    (hb : (g.dropUnused block absorbed).block? block = some b) (he : e ∈ b.entries.tail)
    (habsorbed : e.var ∈ absorbed) : g.parents e.var ≠ [] := by
  cases hold : g.block? block with
  | none =>
    have hsame : g.dropUnused block absorbed = g := by simp [dropUnused, hold]
    rw [hsame, hold] at hb
    cases hb
  | some b₀ =>
    cases hentries : b₀.entries with
    | nil =>
      obtain ⟨entries, hblock, -, hsub⟩ := block?_dropUnused hold absorbed
      cases hb.symm.trans hblock
      rw [hentries, sublist_nil] at hsub
      simp [hsub] at he
    | cons first rest =>
      obtain ⟨kept, -, hblock, -, hused⟩ := dropUnused_induct absorbed
        (P := fun k _ kept => (∀ v, ∀ q ∈ k.parents v, q ∈ g.parents v) ∧
          ∀ e ∈ kept, e.var ∈ absorbed → g.parents e.var ≠ []) hold hentries
        ⟨fun _ _ h => h, by simp⟩
        (fun _ _ hP => ⟨fun v q hq => hP.1 v q (mem_parents_dropEntry hq), hP.2⟩)
        fun {k _ e _ _} _ hkeep hP => by
          refine ⟨hP.1, forall_mem_cons.2 ⟨fun hvar hnil => ?_, hP.2⟩⟩
          have hempty : k.parents e.var = [] := eq_nil_iff_forall_not_mem.2 fun q hq => by
            simpa [hnil] using hP.1 _ q hq
          simp [drops, hempty, hvar] at hkeep
      cases hb.symm.trans hblock
      exact hused e he habsorbed

/-! ## Types -/

/-- A removed node is dead. -/
theorem isLive_destroy_self (g : Graph) (id : NodeId) : (g.destroy id).isLive id = false := by
  rw [Bool.eq_false_iff]
  intro hlive
  unfold destroy at hlive
  rw [sweep] at hlive
  split at hlive
  · have hdead : (g.kill id).isLive id = false := isLive_kill.trans (if_pos rfl)
    have hrest := (Removes.sweep _ _ _).live id hlive
    rw [((Removes.release _ hdead).trans (.foldl (fun k u => .bury u) _)).live id hrest] at hdead
    cases hdead
  · next hid => exact hid ((Removes.sweep _ _ g).live id hlive)

section
variable (hg : g.Sound) (hb : g.block? block = some b)
  (hentries : b.entries = first :: pre ++ e :: kept)
include hg hb hentries

theorem linked_dropEntry : (g.dropEntry block (pre.length + 1) e).Linked := by
  have hmodified := (hg.toLinked.linkedAs_block hb).modifyBlock (f := fun b =>
    { b with entries := b.entries.eraseIdx (pre.length + 1) }) hb
  have hcount (c : NodeId) :
      (e.domain :: (Expr.block { b with entries := first :: pre ++ kept }).children).count c ≤
        (Expr.block b).children.count c := by
    simp only [Expr.children, hentries, map_append, map_cons, count_append,
      count_cons]
    omega
  have hremoved := (Removes.destroy e.var).linkedAs
    ((Removes.destroyIfUnused e.domain).linkedAs (hmodified.mono hcount).unlink)
  refine LinkedAs.linked hremoved fun _ c => Nat.le_of_eq ?_
  exact congrArg (fun x => x.children.count c) (block?_eq_some.1 (block?_dropEntry hb hentries))

omit hg hb in
theorem sublist_dropEntry : (first :: pre ++ kept).Sublist b.entries := by
  rw [hentries]
  exact (sublist_cons_self e kept).append_left (first :: pre)

omit hg hb in
theorem find?_dropEntry {u : NodeId} (hu : u ≠ e.var) :
    (first :: pre ++ kept).find? (·.var == u) = b.entries.find? (·.var == u) := by
  rw [hentries]
  simp only [find?_append, find?_cons, beq_eq_false_iff_ne.2 (Ne.symm hu)]

theorem scoped_dropEntry : (g.dropEntry block (pre.length + 1) e).Scoped := by
  have hblock := block?_modifyBlock hb fun b =>
    { b with entries := b.entries.eraseIdx (pre.length + 1) }
  have hreforms : Reforms (· = e.var) g ((g.modifyBlock block fun b =>
      { b with entries := b.entries.eraseIdx (pre.length + 1) }).unlink block e.domain) := by
    have hsame := SameExprs.unlink (g.modifyBlock block fun b =>
      { b with entries := b.entries.eraseIdx (pre.length + 1) }) block e.domain
    have hsize := hsame.size_eq.trans (size_modify ..)
    refine ⟨hsize.symm.le, fun v _ => hsame.expr_eq v ▸ ?_,
      fun v hge hlt => absurd hge (not_le.2 (hsize ▸ hlt))⟩
    by_cases hv : v = block
    · rw [hv, block?_eq_some.1 hb, block?_eq_some.1 hblock]
      simp only [hentries, eraseIdx_entry]
      refine .block id (by rw [hentries]; rfl) ?_ fun u hu => ?_
      · exact sublist_dropEntry hentries
      · exact find?_dropEntry hentries hu
    · exact expr_modifyBlock_of_ne hv ▸ .refl _
  have hscoped := hreforms.scopedBut_gone hg.toScoped (fun _ hscan _ => hg.children_lt hscan)
    (fun v _ hv => by rwa [isLive_unlink, modifyBlock, isLive_modifyExpr] at hv)
    fun p hp _ => by rwa [isLive_unlink, modifyBlock, isLive_modifyExpr]
  exact ((hscoped.destroyIfUnused e.domain).destroy e.var).scoped fun u hu =>
    hu ▸ isLive_destroy_self _ _

/-- A FROM entry that goes with its variable is an edit of the clauses of the block. -/
theorem editsClauses_dropEntry :
    EditsClauses block (· = e.var) g (g.dropEntry block (pre.length + 1) e) b
      { b with entries := first :: pre ++ kept } := by
  have hexpr := block?_eq_some.1 hb
  have hexprs := sameExprs_dropEntry g block (pre.length + 1) e
  have hremoves := ((Removes.destroyIfUnused e.domain).trans (Removes.destroy e.var) :
    Removes ((g.modifyBlock block fun b =>
      { b with entries := b.entries.eraseIdx (pre.length + 1) }).unlink block e.domain) (g.dropEntry block (pre.length + 1) e))
  have hsize := size_dropEntry g block (pre.length + 1) e
  have hnodup := hg.declared_nodup block
  rw [hexpr] at hnodup
  change (b.entries.map (·.var)).Nodup at hnodup
  -- The variable of the entry is the variable of no other entry.
  have hother : ∀ x ∈ first :: pre ++ kept, x.var ≠ e.var := by
    rw [hentries, (perm_middle.map _).nodup_iff, map_cons, nodup_cons] at hnodup
    intro x hx heq
    exact hnodup.1 (heq ▸ mem_map_of_mem hx)
  have hsub := sublist_dropEntry hentries
  refine
    { size_le := hsize.symm.le
      before := hb
      after := block?_dropEntry hb hentries
      star_eq := rfl
      select_eq := rfl
      head_eq := by rw [hentries]; rfl
      expr := fun v hv hne => .inl ?_
      type_eq := fun v hv => ?_
      live := fun v hv hlive => ?_
      fresh := fun v hge hlt => absurd hge (not_le.2 (hsize ▸ hlt))
      entries := fun u hu => find?_dropEntry hentries hu
      entries_sub := hsub
      vars := fun x hx => hother x hx
      gone := fun u hu => ?_
      mem_children := fun c hc => .inl ?_ }
  · rw [hexprs.expr_eq, expr_modifyBlock_of_ne hne]
  · rw [hremoves.type_eq, type?_unlink, modifyBlock, type?_modifyExpr]
  · have := hremoves.live v hlive
    rwa [isLive_unlink, modifyBlock, isLive_modifyExpr] at this
  · subst hu
    have hmem : e.var ∈ (g.expr block).declared := by
      rw [hexpr]
      exact mem_map_of_mem (by rw [hentries]; simp)
    obtain ⟨x, hx, hdecl⟩ := hg.declared block e.var hmem
    refine ⟨isLive_destroy_self _ _, fun hfirst => ?_, x, hx, fun p hp => ?_⟩
    · rw [Block.firstVar?, hentries] at hfirst
      exact hother first (by simp) (Option.some.inj hfirst)
    · rcases hdecl with hdecl | hdecl
      · rw [hdecl] at hp
        cases hp
      · rw [hdecl] at hp
        exact (Option.some.inj hp).symm
  · simp only [Expr.children, append_assoc] at hc ⊢
    rcases mem_append.1 hc with hc | hc
    · exact mem_append_left _ ((hsub.map _).subset hc)
    · exact mem_append_right _ hc

omit hg in
theorem WellTyped.dropEntry (hw : g.WellTyped S) (hS : S block) :
    (g.dropEntry block (pre.length + 1) e).WellTyped S := by
  have hedits := editsClauses_dropEntry hw.toSound hb hentries
  have hwell := hedits.wellTyped hw hS (linked_dropEntry hw.toSound hb hentries)
    (scoped_dropEntry hw.toSound hb hentries)
  rwa [grown_congr (size_dropEntry g block (pre.length + 1) e), grown_self] at hwell

end

/-- Types stay settled when FROM entries that nothing uses go. -/
theorem WellTyped.dropUnused (hw : g.WellTyped S) (hS : S block) (hb : g.block? block = some b)
    (absorbed : List NodeId) : (g.dropUnused block absorbed).WellTyped S := by
  cases hentries : b.entries with
  | nil =>
    unfold Graph.dropUnused
    simpa [hb, hentries] using hw
  | cons first rest =>
    obtain ⟨kept, -, -, hwell⟩ := dropUnused_induct absorbed
      (P := fun k _ _ => k.WellTyped S) hb hentries hw
      (fun hturn _ hwell => hwell.dropEntry hturn.block_eq rfl hS) fun _ _ hwell => hwell
    exact hwell

end ShardedQuery.Graph
