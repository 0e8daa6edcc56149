import ShardedQuery.Proofs.Graph.Upkeep

/-!
# Removing nodes from well-typed graphs

When types have been inferred, every node of interest has a kept type or one that is fixed, and the
kept types are settled. Edits that choose access paths keep this up: nodes may be removed, since the
type of a removed node is known and does not change any more.
-/

namespace ShardedQuery.Graph

variable {g h : Graph} {S gone : NodeId → Prop} {t : SeqType} {id v : NodeId}

/-! ## Removing nodes -/

/-- Nodes were removed: all nodes have the expressions and the kept types they had, and living nodes
know their living parents as before. -/
structure Removes (g h : Graph) : Prop extends SameExprs g h where
  root_eq : h.root = g.root
  type_eq : ∀ v, h.type? v = g.type? v
  live : ∀ v, h.isLive v → g.isLive v
  mem_parents : ∀ v, ∀ p ∈ h.parents v, p ∈ g.parents v
  count_eq : ∀ v p, h.isLive v → h.isLive p → (h.parents v).count p = (g.parents v).count p

/-- Declared nodes are variables. -/
def DeclaresVars (g : Graph) : Prop := ∀ p, ∀ u ∈ (g.expr p).declared, (g.expr u).isVar

/-- The graph without one node, before what that node leaves unused goes. -/
def sweepOne (g : Graph) (id : NodeId) : Graph :=
  (g.expr id).declared.foldl bury ((g.kill id).release id (g.children id)).2

namespace Removes

variable {k : Graph}

theorem refl (g : Graph) : Removes g g :=
  ⟨.refl g, rfl, fun _ => rfl, fun _ h => h, fun _ _ h => h, fun _ _ _ _ => rfl⟩

theorem trans (h₁ : Removes g h) (h₂ : Removes h k) : Removes g k :=
  ⟨h₁.toSameExprs.trans h₂.toSameExprs, h₂.root_eq.trans h₁.root_eq,
    fun v => (h₂.type_eq v).trans (h₁.type_eq v), fun v hv => h₁.live v (h₂.live v hv),
    fun v p hp => h₁.mem_parents v p (h₂.mem_parents v p hp),
    fun v p hv hp => (h₂.count_eq v p hv hp).trans (h₁.count_eq v p (h₂.live v hv) (h₂.live p hp))⟩

theorem linkedAs (hr : Removes g h) {p : NodeId} {cs : List NodeId} (hg : g.LinkedAs p cs) :
    h.LinkedAs p cs :=
  hg.of_same hr.size_eq hr.live hr.mem_parents hr.count_eq (fun q _ hq => by rwa [hr.expr_eq])
    fun q _ _ hq => by
      rw [hr.expr_eq] at hq
      exact ⟨hq, hr.toSameExprs.children_eq q⟩

theorem linked (hr : Removes g h) (hg : g.Linked) : h.Linked := by
  rw [linked_iff_linkedAs hr.size_eq.le]
  exact hr.linkedAs ((linked_iff_linkedAs le_rfl).1 hg)

/-- A write at one node that leaves it dead. -/
theorem modify {f : Node → Node} (hexpr : ∀ n, (f n).expr = n.expr)
    (htype : ∀ n, (f n).type = n.type) (hlive : ∀ n, (f n).live = false)
    (hmem : ∀ n, ∀ p ∈ (f n).parents, p ∈ n.parents) : Removes g (g.modify id f) := by
  have hother {v : NodeId} (hv : (g.modify id f).isLive v) : ¬ (v = id ∧ v < g.size) := by
    intro hid
    rw [isLive, node_modify, if_pos hid, hlive] at hv
    cases hv
  refine ⟨.modify g id hexpr, rfl, fun v => ?_, fun v hv => ?_, fun v p hp => ?_,
    fun v p hv _ => ?_⟩
  · rw [type?, node_modify]
    split
    · rw [htype]
      rfl
    · rfl
  · have hnot := hother hv
    rwa [isLive, node_modify, if_neg hnot] at hv
  · rw [parents, node_modify] at hp
    split at hp
    · exact hmem _ p hp
    · exact hp
  · rw [parents, node_modify, if_neg (hother hv), parents]

theorem bury (id : NodeId) : Removes g (g.bury id) :=
  modify (fun _ => rfl) (fun _ => rfl) (fun _ => rfl) fun _ _ h => h

theorem foldl {α : Type} {step : Graph → α → Graph} (hstep : ∀ k x, Removes k (step k x))
    (xs : List α) : Removes g (xs.foldl step g) :=
  List.foldlRecOn (motive := fun k => Removes g k) xs step (.refl g)
    fun k hk x _ => hk.trans (hstep k x)

/-- A dead node is taken out of parent lists. -/
theorem unlink {c : NodeId} (hid : g.isLive id = false) : Removes g (g.unlink id c) := by
  have hlive (v : NodeId) : (g.unlink id c).isLive v = g.isLive v := isLive_unlink id c
  refine ⟨.unlink g id c, rfl, fun v => type?_unlink id c, fun v hv => hlive v ▸ hv,
    fun v p hp => ?_, fun v p _ hp => ?_⟩
  · rw [parents_unlink] at hp
    split at hp
    · exact mem_of_mem_withoutOne hp
    · exact hp
  · have hne : id ≠ p := by
      rintro rfl
      rw [hlive, hid] at hp
      cases hp
    rw [parents_unlink]
    split
    · rw [count_withoutOne, if_neg hne, Nat.sub_zero]
    · rfl

theorem release (cs : List NodeId) :
    ∀ {g : Graph}, g.isLive id = false → Removes g (g.release id cs).2 := by
  induction cs with
  | nil => exact fun _ => .refl _
  | cons c cs ih =>
    intro g hid
    have htail : Removes (g.unlink id c) ((g.unlink id c).release id cs).2 :=
      ih ((isLive_unlink id c).trans hid)
    rw [Graph.release]
    dsimp only
    split <;> exact (unlink hid).trans htail

theorem kill (id : NodeId) : Removes g (g.kill id) :=
  modify (fun _ => rfl) (fun _ => rfl) (fun _ => rfl) fun _ _ h => by cases h

theorem sweepOne (id : NodeId) : Removes g (g.sweepOne id) :=
  ((kill id).trans (release _ (isLive_kill.trans (if_pos rfl)))).trans (foldl (fun _ u => bury u) _)

theorem sweep (steps : Nat) : ∀ (work : List NodeId) (g : Graph), Removes g (sweep steps work g) := by
  induction steps with
  | zero => exact fun _ _ => .refl _
  | succ steps ih =>
    intro work g
    cases work with
    | nil => exact .refl _
    | cons id work =>
      rw [Graph.sweep]
      split
      · exact (sweepOne id).trans (ih _ _)
      · exact ih work g

theorem destroy (id : NodeId) : Removes g (g.destroy id) := sweep ..

theorem destroyIfUnused (id : NodeId) : Removes g (g.destroyIfUnused id) := by
  rw [Graph.destroyIfUnused]
  split
  · exact destroy id
  · exact .refl g

end Removes

/-! ## Variables go with their declarations -/

section
variable {E : NodeId → Prop}

theorem ScopedBut.declaresVars (hg : g.ScopedBut E) : g.DeclaresVars := by
  intro p u hu
  obtain ⟨x, hx, -⟩ := hg.declared p u hu
  rw [hx]
  rfl

theorem Scoped.declaresVars (hg : g.Scoped) : g.DeclaresVars :=
  (hg.but fun _ => False).declaresVars

theorem SameExprs.declaresVars (hs : SameExprs g h) (hg : g.DeclaresVars) : h.DeclaresVars := by
  intro p u hu
  rw [hs.expr_eq] at hu ⊢
  exact hg p u hu

/-- Buried nodes are dead. -/
theorem isLive_buryAll (us : List NodeId) :
    (us.foldl bury g).isLive v = if v ∈ us then false else g.isLive v := by
  induction us generalizing g with
  | nil => rfl
  | cons u us ih =>
    rw [List.foldl_cons, ih]
    have hbury : (g.bury u).isLive v = if v = u then false else g.isLive v := by
      rw [isLive, bury, node_modify_of_absent rfl]
      split <;> rfl
    rw [hbury]
    by_cases hv : v = u <;> by_cases hmem : v ∈ us <;> simp [hv, hmem]

theorem isLive_release (cs : List NodeId) : (g.release id cs).2.isLive v = g.isLive v := by
  induction cs generalizing g with
  | nil => rfl
  | cons c cs ih =>
    have htail : ((g.unlink id c).release id cs).2.isLive v = g.isLive v :=
      ih.trans (isLive_unlink id c)
    rw [release]
    dsimp only
    split <;> exact htail

/-- When a node is removed, so are the variables it declares. -/
theorem DeclaresBut.sweepOne (hvars : g.DeclaresVars) (hg : g.DeclaresBut E) (id : NodeId) :
    (g.sweepOne id).DeclaresBut E := by
  have hr : Removes g (g.sweepOne id) := .sweepOne id
  intro u x hu hE hx p hp
  rw [hr.expr_eq] at hx
  rw [hr.expr_eq]
  obtain ⟨hplive, hmem⟩ := hg u x (hr.live u hu) hE hx p hp
  refine ⟨?_, hmem⟩
  rw [Graph.sweepOne, isLive_buryAll] at hu ⊢
  split at hu
  · cases hu
  · next hnot =>
    have hpid : p ≠ id := by
      rintro rfl
      exact hnot hmem
    have hpvar : p ∉ (g.expr id).declared := by
      intro hpmem
      have := hvars id p hpmem
      cases hexpr : g.expr p <;> rw [hexpr] at this hmem <;>
        simp [Expr.isVar, Expr.declared, Expr.context] at this hmem
    rwa [if_neg hpvar, isLive_release, isLive_kill, if_neg hpid]

theorem DeclaresBut.sweep (steps : Nat) : ∀ (work : List NodeId) {g : Graph}, g.DeclaresVars →
    g.DeclaresBut E → (sweep steps work g).DeclaresBut E := by
  induction steps with
  | zero => exact fun _ _ _ hg => hg
  | succ steps ih =>
    intro work g hvars hg
    cases work with
    | nil => exact hg
    | cons id work =>
      rw [Graph.sweep]
      split
      · exact ih _ ((Removes.sweepOne id).toSameExprs.declaresVars hvars) (hg.sweepOne hvars id)
      · exact ih work hvars hg

theorem DeclaresBut.destroy (hvars : g.DeclaresVars) (hg : g.DeclaresBut E) (id : NodeId) :
    (g.destroy id).DeclaresBut E := hg.sweep _ _ hvars

theorem DeclaresBut.destroyIfUnused (hvars : g.DeclaresVars) (hg : g.DeclaresBut E) (id : NodeId) :
    (g.destroyIfUnused id).DeclaresBut E := by
  rw [Graph.destroyIfUnused]
  split
  · exact hg.destroy hvars id
  · exact hg

theorem ScopedBut.destroy (hg : g.ScopedBut E) (id : NodeId) : (g.destroy id).ScopedBut E :=
  .of_sameExprs (.destroy g id) hg (hg.decl.destroy hg.declaresVars id)

theorem ScopedBut.destroyIfUnused (hg : g.ScopedBut E) (id : NodeId) :
    (g.destroyIfUnused id).ScopedBut E :=
  .of_sameExprs (.destroyIfUnused g id) hg (hg.decl.destroyIfUnused hg.declaresVars id)

theorem Removes.sound (hr : Removes g h) (hg : g.Sound) (hdecl : h.DeclaresBut fun _ => False) :
    h.Sound := by
  obtain ⟨rank, ho⟩ := hg.ordered
  have hscoped := ScopedBut.of_sameExprs hr.toSameExprs (hg.toScoped.but _) hdecl
  exact
    { hr.linked hg.toLinked, hscoped.scoped fun _ h => h.elim with
      ordered := ⟨rank, hr.toSameExprs.ordered ho⟩ }

end

/-! ## Known types -/

/-- The type of the node is the same whatever happens to other nodes; if the node is a variable, it is
the first one of the block that declares it. -/
def IsFixed (g : Graph) (v : NodeId) : Prop :=
  g.constantType? v ≠ none ∧ ∀ x, g.expr v = .var x → ∃ p b, x.decl = some p ∧
    g.block? p = some b ∧ b.firstVar? = some v

/-- The node is a field of a variable that stands for the rows of a table. -/
def IsColumn (g : Graph) (v : NodeId) (t : SeqType) : Prop :=
  ∃ r name x u, g.expr v = .field r name ∧ g.expr r = .var x ∧ g.constantType? r = some u ∧
    t = u.fieldStep name

/-- The types of the nodes of `S` are settled, and none of them is unknown. Columns have current types
even when they are dead. -/
structure WellTyped (g : Graph) (S : NodeId → Prop) : Prop extends g.Maintained S [] where
  known : ∀ v, S v → g.type? v ≠ none ∨ g.IsFixed v
  columns : ∀ v t, S v → g.IsColumn v t → ∀ t' ∈ g.type? v, t' = t

theorem SameExprs.isColumn (hs : SameExprs g h) : h.IsColumn v t ↔ g.IsColumn v t := by
  simp only [IsColumn, hs.expr_eq, hs.constantType?_eq]

/-- Fixed types stay, with the first variables of blocks. -/
theorem Reforms.isFixed (hr : Reforms gone g h) (hg : g.Sound) (hv : v < g.size) (hgone : ¬ gone v)
    (hfixed : g.IsFixed v) : h.IsFixed v := by
  refine ⟨by rw [hr.constantType?_eq hv hgone hg]; exact hfixed.1, fun x hx => ?_⟩
  obtain ⟨p, b, hdecl, hb, hfirst⟩ := hfixed.2 x ((hr.expr v hv).eq_var.1 hx)
  have he := hr.expr p (lt_size_of_block? hb)
  rw [block?_eq_some.1 hb] at he
  generalize hh : h.expr p = e' at he
  cases he with
  | refl => exact ⟨p, b, hdecl, block?_eq_some.2 hh, hfirst⟩
  | block _ hhead =>
    exact ⟨p, _, hdecl, block?_eq_some.2 hh, by rw [Block.firstVar?, hhead]; exact hfirst⟩

/-- An edit that changes no typing rule. Nodes of known types may die, and those that are added have
fixed types. -/
theorem WellTyped.edit (hw : g.WellTyped S) (hr : Reforms gone g h) (hh : h.Sound)
    (htype : ∀ v, v < g.size → h.type? v = g.type? v)
    (hlive : ∀ v, v < g.size → h.isLive v → g.isLive v)
    (hnew : ∀ v, g.size ≤ v → v < h.size → h.type? v = none ∧ h.IsFixed v)
    (hrule : ∀ v, v < g.size → ¬ gone v → g.constantType? v = none → SameRule g h v)
    (hgone : ∀ v, gone v → h.isLive v = false ∧ h.constantType? v = none ∧ (S v → g.type? v ≠ none))
    (hclosed : ∀ v, grown S g h v → ∀ u, u ∈ h.children v ∨ u ∈ h.reads v → grown S g h u) :
    h.WellTyped (grown S g h) := by
  have hg := hw.toSound
  have htype' (v : NodeId) (hge : g.size ≤ v) : h.type? v = none := by
    rcases Nat.lt_or_ge v h.size with hlt | hge'
    · exact (hnew v hge hlt).1
    · exact type?_of_size_le hge'
  have hconst {v : NodeId} {t : SeqType} (hv : v < g.size) (ht : h.constantType? v = some t) :
      g.constantType? v = some t := by
    by_cases hgone' : gone v
    · rw [(hgone v hgone').2.1] at ht
      cases ht
    · exact hr.constantType?_eq hv hgone' hg ▸ ht
  have hknown (v : NodeId) (hv : grown S g h v) : h.type? v ≠ none ∨ h.IsFixed v := by
    rcases hv with hv | ⟨hge, hlt⟩
    · have hin := hw.inside v hv
      rw [htype v hin]
      by_cases hgone' : gone v
      · exact .inl ((hgone v hgone').2.2 hv)
      · exact (hw.known v hv).imp_right (hr.isFixed hg hin hgone')
    · exact .inr (hnew v hge hlt).2
  have he : Edits g h S (grown S g h) [] :=
    { mono := fun v hv => .inl hv
      fresh := fun v hv => hv.imp_right fun hv => htype' v hv.1
      type_eq := fun v hv => htype v (hw.inside v hv)
      live := fun v hv => hlive v (hw.inside v hv)
      dead := fun v hv _ => (hknown v hv).imp_right And.left
      constants := fun v t ht t' ht' => by
        rcases Nat.lt_or_ge v g.size with hlt | hge
        · exact hw.constants v t (hconst hlt ht) t' (htype v hlt ▸ ht')
        · rw [htype' v hge] at ht'
          cases ht'
      rule := fun v hv _ => by
        have hin := hw.inside v hv
        by_cases hgone' : gone v
        · exact .inl ⟨(hgone v hgone').1, (hgone v hgone').2.2 hv⟩
        · have hsame := hr.constantType?_eq hin hgone' hg
          cases hc : g.constantType? v with
          | some t => exact .inr (.inl ⟨t, hc, hsame.trans hc⟩)
          | none => exact .inr (.inr ⟨hrule v hin hgone' hc, hc, hsame.trans hc⟩)
      open_rule := fun v hv => by cases hv
      stale := fun v hv _ hvlive hstale => by
        obtain ⟨u, hu, hempty⟩ := hstale
        have hgone' : ¬ gone v := fun hgone' => by
          rw [(hgone v hgone').1] at hvlive
          cases hvlive
        exact ⟨u, (hr.varSource?_eq (hw.inside v hv) hgone' hg.toScoped).trans hu,
          (hr.expr u (hg.source_lt hu)).eq_literal.2 hempty⟩ }
  have hinside (v : NodeId) (hv : grown S g h v) : v < h.size := by
    rcases hv with hv | ⟨-, hlt⟩
    · exact (hw.inside v hv).trans_le hr.size_le
    · exact hlt
  refine { hw.toMaintained.edit hh he hinside hclosed with
    known := hknown
    columns := fun v t hv hcolumn t' ht' => ?_ }
  rcases hv with hv | ⟨hge, -⟩
  · have hin := hw.inside v hv
    obtain ⟨r, name, x, u, hexpr, hx, hconst', rfl⟩ := hcolumn
    have hexpr := (hr.expr v hin).eq_field.1 hexpr
    have hrlt : r < g.size := by
      refine hw.inside r (hw.closed v hv r (.inl ?_))
      rw [children, hexpr]
      exact List.mem_singleton_self r
    exact hw.columns v _ hv ⟨r, name, x, u, hexpr, (hr.expr r hrlt).eq_var.1 hx, hconst hrlt hconst',
      rfl⟩ t' (htype v hin ▸ ht')
  · rw [htype' v hge] at ht'
    cases ht'

theorem SameExprs.isFixed (hs : SameExprs g h) (hv : g.IsFixed v) : h.IsFixed v := by
  refine ⟨by rw [hs.constantType?_eq]; exact hv.1, fun x hx => ?_⟩
  obtain ⟨p, b, hdecl, hb, hfirst⟩ := hv.2 x (hs.expr_eq v ▸ hx)
  exact ⟨p, b, hdecl, by rw [block?, hs.expr_eq]; exact hb, hfirst⟩

/-- Nodes may die, and links may change, if the graph stays sound. -/
theorem WellTyped.sameExprs (hw : g.WellTyped S) (hs : SameExprs g h)
    (htype : ∀ v, h.type? v = g.type? v) (hlive : ∀ v, h.isLive v → g.isLive v) (hh : h.Sound) :
    h.WellTyped S := by
  have hgrown : grown S g h = S := by rw [grown_congr hs.size_eq, grown_self]
  have hedit := hw.edit hs.reforms hh (fun v _ => htype v) (fun v _ => hlive v)
    (fun v hge hlt => absurd hge (not_le.2 (hs.size_eq ▸ hlt))) (fun v _ _ _ => hs.sameRule v)
    (fun v hv => hv.elim) fun v hv u hu => ?_
  · exact hgrown ▸ hedit
  · rw [hgrown] at hv ⊢
    rw [children, hs.expr_eq, (hs.sameRule v).reads_eq] at hu
    exact hw.closed v hv u hu

theorem WellTyped.removes (hw : g.WellTyped S) (hr : Removes g h)
    (hdecl : h.DeclaresBut fun _ => False) : h.WellTyped S :=
  hw.sameExprs hr.toSameExprs hr.type_eq hr.live (hr.sound hw.toSound hdecl)

theorem WellTyped.destroyIfUnused (hw : g.WellTyped S) (id : NodeId) :
    (g.destroyIfUnused id).WellTyped S :=
  hw.removes (.destroyIfUnused id) (hw.declaresBut.destroyIfUnused hw.declaresVars id)

/-- Data of nodes may change, if new slots of scans are over nodes of `S`. -/
theorem Retouches.wellTyped (hr : Retouches g h) (hw : g.WellTyped S)
    (hscan : ∀ v s, S v → h.scan? v = some s → ∀ c ∈ (Expr.scan s).children, S c) :
    h.WellTyped S := by
  have hgrown : grown S g h = S := by rw [grown_congr hr.size_eq, grown_self]
  have hedit := hw.edit hr.reforms (hr.sound hw.toSound) (fun v _ => hr.type_eq v)
    (fun v _ hv => hr.live_eq v ▸ hv)
    (fun v hge hlt => absurd hge (not_le.2 (hr.size_eq ▸ hlt)))
    (fun v hv _ _ => hr.sameRule hw.toScoped hv) (fun v hv => hv.elim) fun v hv u hu => ?_
  · exact hgrown ▸ hedit
  · rw [hgrown] at hv ⊢
    exact hr.closed hw.toMaintained hscan v hv u hu

/-- A node of a fixed type may be added. -/
theorem WellTyped.add {e : Expr} (hw : g.WellTyped S) (he : g.IsPlain e)
    (hS : ∀ c ∈ e.children, S c) (hfixed : (g.add e).2.IsFixed g.size) :
    (g.add e).2.WellTyped (grown S g (g.add e).2) := by
  refine hw.edit he.reforms (hw.toSound.add he) (fun v _ => type?_add e)
    (fun v hv hlive => isLive_add_of_lt e hv ▸ hlive) (fun v hge hlt => ?_) (fun v hv _ _ => ?_)
    (fun v hv => hv.elim) (hw.toMaintained.add he hS).closed
  · rw [size_add] at hlt
    obtain rfl := Nat.le_antisymm (Nat.le_of_lt_succ hlt) hge
    exact ⟨(type?_add e).trans (type?_of_size_le hge), hfixed⟩
  · exact .of_expr_eq (expr_add_of_lt e hv) fun _ => he.reforms.varSource?_eq hv id hw.toScoped

/-! ## Work that is left -/

section
variable {k : Graph} {S' : NodeId → Prop} {work changed : List NodeId}

/-- After an edit, nodes whose types are known may die. -/
theorem Edits.sameExprs (he : Edits g h S S' changed) (hs : SameExprs h k)
    (htype : ∀ v, k.type? v = h.type? v) (hlive : ∀ v, k.isLive v → h.isLive v)
    (hknown : ∀ v, S' v → k.type? v ≠ none ∨ k.constantType? v ≠ none) :
    Edits g k S S' changed where
  mono := he.mono
  fresh v hv := htype v ▸ he.fresh v hv
  type_eq v hv := (htype v).trans (he.type_eq v hv)
  live v hv hk := he.live v hv (hlive v hk)
  dead v hv _ := hknown v hv
  constants v t ht t' ht' := by
    rw [hs.constantType?_eq] at ht
    rw [htype] at ht'
    exact he.constants v t ht t' ht'
  rule v hv hnot := by
    rcases he.rule v hv hnot with ⟨hdead, hkept⟩ | ⟨t, hg, hh⟩ | ⟨hrule, hg, hh⟩
    · refine .inl ⟨Bool.eq_false_iff.2 fun hk => ?_, hkept⟩
      rw [hlive v hk] at hdead
      cases hdead
    · exact .inr (.inl ⟨t, hg, (hs.constantType?_eq v).trans hh⟩)
    · exact .inr (.inr ⟨hrule.trans (hs.sameRule v), hg, (hs.constantType?_eq v).trans hh⟩)
  open_rule v hv hS := (hs.constantType?_eq v).trans (he.open_rule v hv hS)
  stale v hv hnot hk hstale := by
    obtain ⟨u, hu, hempty⟩ := he.stale v hv hnot (hlive v hk) hstale
    exact ⟨u, (hs.varSource?_eq v).trans hu, (hs.expr_eq u).trans hempty⟩

/-- Where all types are known, variables over the empty sequence need not be refreshed. -/
theorem Maintained.dropStale {work' : List NodeId} (hm : g.Maintained S work)
    (hknown : ∀ v, S v → g.type? v ≠ none ∨ g.constantType? v ≠ none)
    (hsub : ∀ x ∈ work, x ∈ work' ∨ g.IsStale x) : g.Maintained S work' := by
  refine { hm with current := fun v hv hlive => ?_ }
  rcases hm.current v hv hlive with h | h | h
  · exact .inl h
  · exact .inr (.inl h)
  · cases h with
    | here hmem =>
      rcases hsub v hmem with hmem | hstale
      · exact .inr (.inr (.here hmem))
      · exact .inr (.inl hstale)
    | through hread hulive hnone hconst _ =>
      rcases hknown _ (hm.closed v hv _ (.inr hread)) with h | h
      · exact absurd hnone h
      · exact absurd hconst h

/-- A refresh takes no type away. -/
theorem kept_propagate : ∀ (n : Nat) (work : List NodeId) {g : Graph},
    g.type? v ≠ none → (propagate n work g).type? v ≠ none
  | 0, _, _, hv => hv
  | _ + 1, [], _, hv => hv
  | n + 1, id :: work, g, hv => by
    rw [propagate]
    split
    · next hlive =>
      dsimp only
      split
      · exact kept_propagate n work hv
      · refine kept_propagate n _ ?_
        rw [type?_setType (lt_size_of_isLive hlive)]
        split
        · simp
        · exact hv
    · exact kept_propagate n work hv

/-- A refresh leaves constant types and the types of columns alone. -/
theorem columns_propagate {t : SeqType} : ∀ (n : Nat) (work : List NodeId) {g : Graph},
    (∃ rank, g.Ordered rank) → g.KeepsConstants → g.IsColumn v t → (∀ t' ∈ g.type? v, t' = t) →
    (propagate n work g).KeepsConstants ∧ ∀ t' ∈ (propagate n work g).type? v, t' = t
  | 0, _, _, _, hk, _, hv => ⟨hk, hv⟩
  | _ + 1, [], _, _, hk, _, hv => ⟨hk, hv⟩
  | n + 1, id :: work, g, ho, hk, hcolumn, hv => by
    obtain ⟨rank, hrank⟩ := ho
    rw [propagate]
    split
    · next hlive =>
      dsimp only
      split
      · exact columns_propagate n work ⟨rank, hrank⟩ hk hcolumn hv
      · have hs := (SameShape.setType g id (g.derivedType id)).toSameExprs
        have hid := lt_size_of_isLive hlive
        refine columns_propagate n _ ⟨rank, hs.ordered hrank⟩ (fun w u hw u' hu' => ?_)
          (hs.isColumn.2 hcolumn) fun t' ht' => ?_
        · rw [hs.constantType?_eq] at hw
          rw [type?_setType hid] at hu'
          split at hu'
          · next heq =>
            rw [← derivedType_of_constant hk hw, heq]
            exact (Option.some.inj hu').symm
          · exact hk w u hw u' hu'
        · rw [type?_setType hid] at ht'
          split at ht'
          · next heq =>
            obtain ⟨r, name, x, u, hexpr, -, hr, rfl⟩ := hcolumn
            rw [← Option.some.inj ht', ← heq, derivedType, typeRule, hexpr]
            simp only [hrank.exprType_of_constant hk hr]
          · exact hv t' ht'
    · exact columns_propagate n work ⟨rank, hrank⟩ hk hcolumn hv

theorem columns_refreshAll (ids : List NodeId) : ∀ {g : Graph},
    (∃ rank, g.Ordered rank) → g.KeepsConstants → g.IsColumn v t → (∀ t' ∈ g.type? v, t' = t) →
    ∀ t' ∈ (ids.foldl refresh g).type? v, t' = t := by
  induction ids with
  | nil => exact fun _ _ _ hv => hv
  | cons id ids ih =>
    intro g ⟨rank, ho⟩ hk hcolumn hv
    have hs := (SameShape.refresh g id).toSameExprs
    obtain ⟨hk', hv'⟩ := columns_propagate g.propagationBound [id] ⟨rank, ho⟩ hk hcolumn hv
    exact ih ⟨rank, hs.ordered ho⟩ hk' (hs.isColumn.2 hcolumn) hv'

theorem kept_refreshAll (ids : List NodeId) : ∀ {g : Graph}, g.type? v ≠ none →
    (ids.foldl refresh g).type? v ≠ none := by
  induction ids with
  | nil => exact fun hv => hv
  | cons id ids ih => exact fun hv => ih (kept_propagate _ _ hv)

end

end ShardedQuery.Graph
