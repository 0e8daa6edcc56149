import ShardedQuery.Proofs.Graph.Waiting

/-!
# Settled types

A kept type is current if it is what the typing rule derives. Edits leave some kept types behind, and
refreshing a node carries the change on. `Settled g S W` says how far this has come: among the nodes
of `S`, a living node has a current type or waits for a refresh of one of the nodes of `W`. A node
waits if it is in `W` itself or reads a node that keeps no type and waits.

Two kinds of nodes are apart. A variable over the empty sequence may have a type from the time before
the block it ranged over was found to select nothing. And a dead node does not change any more: it
has a kept type, or one that depends on nothing.
-/

namespace ShardedQuery.Graph

open List

variable {g h : Graph} {S S' : NodeId → Prop} {work work' : List NodeId} {rank rank' : NodeId → Nat}
  {v : NodeId} {t : SeqType}

/-! ## Constant types -/

/-- The type of a node that has the same type whatever happens to other nodes. -/
def constantType? (g : Graph) (v : NodeId) : Option SeqType :=
  match g.expr v with
  | .scan s => some (.star s.rowType)
  | .literal a => some (if a.isEmpty then .empty else .one a.itemType)
  | .call f _ => if f.isBoolean then some .boolean else none
  | .var x =>
    match x.kind with
    | .row => (g.domain? v).bind fun d => (g.scan? d).map fun s => .one s.rowType
    | _ => none
  | _ => none

/-- A constant type is kept as it is or not at all. -/
def KeepsConstants (g : Graph) : Prop :=
  ∀ v t, g.constantType? v = some t → ∀ t' ∈ g.type? v, t' = t

theorem derivedType_of_constant (hk : g.KeepsConstants) (h : g.constantType? v = some t) :
    g.derivedType v = t := by
  have hc := h
  unfold constantType? at h
  split at h
  case h_1 s hs =>
    cases h
    simp only [derivedType, typeRule, hs]
  case h_2 a ha =>
    cases h
    simp only [derivedType, typeRule, ha]
  case h_3 f args hf =>
    split at h
    · next hbool =>
      cases h
      simp only [derivedType, typeRule, hf, hbool, if_true]
    · cases h
  case h_4 x hx =>
    split at h
    · next hkind =>
      obtain ⟨d, hd, h⟩ := Option.bind_eq_some_iff.1 h
      obtain ⟨s, hs, rfl⟩ := Option.map_eq_some_iff.1 h
      have hscan : g.constantType? d = some (.star s.rowType) := by
        simp only [constantType?, scan?_eq_some.1 hs]
      have htype : g.exprType d = .star s.rowType := by
        rw [exprType, typeWithin]
        split
        · next t ht => exact hk d _ hscan t ht
        · simp only [typeRule, scan?_eq_some.1 hs]
      simp only [derivedType, typeRule, hx, varSource?, var?, hkind, hd, Option.map_some, htype]
      rfl
    · cases h
  case h_5 => cases h

theorem Ordered.exprType_of_constant (ho : g.Ordered rank) (hk : g.KeepsConstants)
    (h : g.constantType? v = some t) : g.exprType v = t := by
  rw [ho.exprType_eq, derivedType_of_constant hk h]
  cases ht : g.type? v with
  | none => rfl
  | some t' => exact hk v t h t' ht

theorem SameExprs.constantType?_eq (hs : SameExprs g h) (v : NodeId) :
    h.constantType? v = g.constantType? v := by
  simp only [constantType?, scan?, hs.expr_eq, hs.domain?_eq]

/-! ## Waiting nodes -/

/-- A variable over the empty sequence. -/
def IsStale (g : Graph) (v : NodeId) : Prop :=
  ∃ u, g.varSource? v = some u ∧ g.expr u = .literal .empty

/-- A refresh of the nodes of `work` will reach the node. -/
inductive Awaits (g : Graph) (work : List NodeId) : NodeId → Prop
  | here {v : NodeId} (h : v ∈ work) : Awaits g work v
  | through {v u : NodeId} (hread : u ∈ g.reads v) (hlive : g.isLive u) (hnone : g.type? u = none)
      (hconst : g.constantType? u = none) (hu : Awaits g work u) : Awaits g work v

theorem Awaits.mono (hsub : ∀ x ∈ work, g.Awaits work' x) (h : g.Awaits work v) :
    g.Awaits work' v := by
  induction h with
  | here h => exact hsub _ h
  | through hread hlive hnone hconst _ ih => exact .through hread hlive hnone hconst ih

/-- Types are settled among the nodes of `S`, as soon as those of `work` are refreshed. -/
structure Settled (g : Graph) (S : NodeId → Prop) (work : List NodeId) : Prop where
  constants : g.KeepsConstants
  dead : ∀ v, S v → g.isLive v = false → g.type? v ≠ none ∨ g.constantType? v ≠ none
  current : ∀ v, S v → g.isLive v → g.IsCurrent v ∨ g.IsStale v ∨ g.Awaits work v

theorem Settled.mono (hs : g.Settled S work) (hsub : ∀ x ∈ work, g.Awaits work' x) :
    g.Settled S work' :=
  { constants := hs.constants
    dead := hs.dead
    current := fun v hv hlive => (hs.current v hv hlive).imp_right fun h =>
      h.imp_right fun h => h.mono hsub }

/-- The nodes that `S` names are known to those they depend on. -/
structure Tracks (g : Graph) (S : NodeId → Prop) : Prop where
  reads : ∀ v, S v → ∀ u ∈ g.reads v, S u
  linked : ∀ v, S v → g.isLive v → ∀ u ∈ g.reads v, g.isLive u → g.constantType? u = none →
    v ∈ g.dependents u

/-! ## Refreshing -/

/-- A refresh keeps a constant as it is, where it keeps a type at all. -/
theorem KeepsConstants.setType (hk : g.KeepsConstants) {id : NodeId}
    (hid : id < g.size) : (g.retype id).KeepsConstants := by
  intro v t hv t' ht'
  rw [(SameShape.setType g id _).toSameExprs.constantType?_eq] at hv
  rw [type?_setType hid] at ht'
  split at ht'
  · next h =>
    subst h
    rw [← derivedType_of_constant hk hv]
    exact (Option.some.inj ht').symm
  · exact hk v t hv t' ht'

/-- The nodes of `S` whose types do not change: those that are dead, and those whose type is
constant. -/
def IsStill (g : Graph) (S : NodeId → Prop) (v : NodeId) : Prop :=
  S v ∧ (g.isLive v = false ∨ g.constantType? v ≠ none)

theorem Tracks.watches (ht : g.Tracks S) :
    g.Watches (fun v => S v ∧ g.isLive v) (g.IsStill S) := by
  refine ⟨fun v hv => hv.2, fun v hv u hu => ?_⟩
  have hS := ht.reads v hv.1 u hu
  by_cases hstill : g.isLive u = false ∨ g.constantType? u ≠ none
  · exact .inl ⟨hS, hstill⟩
  · simp only [not_or, Bool.not_eq_false, not_not] at hstill
    exact .inr ⟨⟨hS, hstill.1⟩, ht.linked v hv.1 hv.2 u hu hstill.1 hstill.2⟩

theorem Awaits.waitsPast (h : g.Awaits work v) : g.WaitsPast (g.IsStill S) work v := by
  induction h with
  | here h => exact .here h
  | through hread hlive hnone hconst _ ih =>
    refine .through hread (fun hstill => ?_) hnone ih
    rcases hstill.2 with hdead | hne
    · rw [hlive] at hdead
      cases hdead
    · exact hne hconst

theorem SameShape.awaits_of_waitsPast (hshape : SameShape g h) (ht : g.Tracks S) (hv : S v)
    (hw : h.WaitsPast (g.IsStill S) work v) : h.Awaits work v := by
  induction hw with
  | here hmem => exact .here hmem
  | @through v u hread hmoves hnone _ ih =>
    have hu := ht.reads v hv u (by rwa [(hshape.toSameExprs.sameRule v).reads_eq] at hread)
    have hmoves := not_and.1 hmoves hu
    simp only [not_or, Bool.not_eq_false, not_not] at hmoves
    refine .through hread ?_ hnone ?_ (ih hu)
    · rw [hshape.live_eq, hmoves.1]
    · rw [hshape.toSameExprs.constantType?_eq, hmoves.2]

/-- When a refresh is through, nothing waits for it any more. -/
theorem Settled.refresh {id : NodeId} (ho : g.Ordered rank) (hl : g.LinksInside) (ht : g.Tracks S)
    (hs : g.Settled S (id :: work)) : (g.refresh id).Settled S work := by
  have hshape := SameShape.refresh g id
  have hwaits : g.UpToDate (fun v => S v ∧ g.isLive v) (g.IsStill S) g.IsStale (id :: work) := by
    intro v hv
    rcases hs.current v hv.1 hv.2 with h | h | h
    · exact .inr (.inl h)
    · exact .inl h
    · exact .inr (.inr h.waitsPast)
  let J (k : Graph) : Prop := k.KeepsConstants ∧ ∀ v, g.isLive v = false → k.type? v = g.type? v
  -- A dead node has kept its type, and a constant has no other one.
  have hfixed : ∀ k, SameShape g k → J k → ∀ u, g.IsStill S u → k.exprType u = g.exprType u := by
    intro k hshape hJ u hu
    have hconstant {t : SeqType} (hc : g.constantType? u = some t) : k.exprType u = g.exprType u := by
      rw [ho.exprType_of_constant hs.constants hc,
        (hshape.toSameExprs.ordered ho).exprType_of_constant hJ.1
          ((hshape.toSameExprs.constantType?_eq u).trans hc)]
    obtain ⟨hS, hdead | hne⟩ := hu
    · rcases hs.dead u hS hdead with hne | hne
      · obtain ⟨t, htype⟩ := Option.ne_none_iff_exists'.1 hne
        rw [exprType_of_kept htype, exprType_of_kept ((hJ.2 u hdead).trans htype)]
      · exact hconstant (Option.ne_none_iff_exists'.1 hne).choose_spec
    · exact hconstant (Option.ne_none_iff_exists'.1 hne).choose_spec
  have hstep : ∀ k v, SameShape g k → J k → k.isLive v → J (k.retype v) := by
    intro k v hshape hJ hlive
    refine ⟨hJ.1.setType (lt_size_of_isLive hlive), fun u hu => ?_⟩
    have hne : u ≠ v := by
      rintro rfl
      rw [hshape.live_eq, hu] at hlive
      cases hlive
    rw [type?_setType (lt_size_of_isLive hlive), if_neg hne]
    exact hJ.2 u hu
  obtain ⟨⟨hconst, hdead⟩, hdone⟩ :=
    hwaits.refresh ho hl ht.watches hfixed hstep ⟨hs.constants, fun _ _ => rfl⟩
  refine ⟨hconst, fun v hv hvdead => ?_, fun v hv hlive => ?_⟩
  · rw [hshape.live_eq] at hvdead
    rw [hdead v hvdead, hshape.toSameExprs.constantType?_eq]
    exact hs.dead v hv hvdead
  · rw [hshape.live_eq] at hlive
    rcases hdone v ⟨hv, hlive⟩ with h | h | h
    · obtain ⟨u, hu, hempty⟩ := h
      exact .inr (.inl ⟨u, (hshape.toSameExprs.varSource?_eq v).trans hu,
        (hshape.expr_eq u).trans hempty⟩)
    · exact .inl h
    · exact .inr (.inr (hshape.awaits_of_waitsPast ht hv h))

/-! ## What a refresh leaves alone -/

/-- Neither a constant nor a variable over the empty sequence. -/
def IsCalm (g : Graph) (v : NodeId) : Prop := (∀ a, g.expr v ≠ .literal a) ∧ ¬ g.IsStale v

/-- A node whose kept type no refresh of a calm node changes. -/
def IsIdle (g : Graph) (v : NodeId) : Prop := g.isLive v = false ∨ ¬ g.IsCalm v

theorem SameShape.isCalm_iff (hs : SameShape g h) (v : NodeId) : h.IsCalm v ↔ g.IsCalm v := by
  simp only [IsCalm, IsStale, hs.expr_eq, hs.toSameExprs.varSource?_eq]

/-- If calm nodes have calm dependents, the refresh of a calm node reaches no other nodes. -/
theorem type?_refresh_of_isIdle {id : NodeId} (ho : g.Ordered rank) (hl : g.LinksInside)
    (hdep : ∀ v, g.IsCalm v → ∀ w ∈ g.dependents v, g.IsCalm w) (hcalm : g.IsCalm id)
    (hv : g.IsIdle v) : (g.refresh id).type? v = g.type? v :=
  (type?_refresh_of_closed (J := fun _ => True) ho hl
    (fun _ v _ _ hv _ => ⟨trivial, hdep v hv⟩) trivial hcalm).2 v hv

theorem not_awaits_nil (h : g.Awaits [] v) : False := by
  induction h with
  | here h => cases h
  | through _ _ _ _ _ ih => exact ih

theorem Settled.exprType_of_isCalm (hs : g.Settled S []) (ho : g.Ordered rank) (hv : S v)
    (hlive : g.isLive v) (hcalm : ¬ g.IsStale v) : g.exprType v = g.derivedType v := by
  rcases hs.current v hv hlive with h | h | h
  · rw [ho.exprType_eq]
    cases ht : g.type? v with
    | none => rfl
    | some t => exact (h t ht).symm
  · exact absurd h hcalm
  · exact (not_awaits_nil h).elim

/-- Where types are settled before and after, nodes have the same type if they have the same
expressions, on a set that holds what its members read. -/
theorem Settled.exprType_eq {B : NodeId → Prop} (hs : g.Settled S []) (hs' : h.Settled S' [])
    (hog : g.Ordered rank) (hoh : h.Ordered rank') (hreads : ∀ v, B v → ∀ u ∈ g.reads v, B u)
    (hB : ∀ v, B v → S v ∧ S' v)
    (hexpr : ∀ v, B v → h.expr v = g.expr v ∧ h.varSource? v = g.varSource? v)
    (hlive : ∀ v, B v → h.isLive v = g.isLive v)
    (hidle : ∀ v, B v → g.IsIdle v → h.type? v = g.type? v) (hv : B v) :
    h.exprType v = g.exprType v := by
  induction hr : rank v using Nat.strong_induction_on generalizing v with
  | _ n ih =>
    subst hr
    have hrule : SameRule g h v := .of_expr_eq (hexpr v hv).1 fun _ => (hexpr v hv).2
    have hderived : h.derivedType v = g.derivedType v := by
      rw [derivedType, hrule.typeRule_eq]
      exact typeRule_congr fun u hu =>
        ih _ (hog.rank_lt v u (reads_subset_uses hu)) (hreads v hv u hu) rfl
    by_cases hcalm : g.IsIdle v
    · rw [hoh.exprType_eq, hog.exprType_eq, hidle v hv hcalm, hderived]
    · obtain ⟨hvlive, hcalm⟩ : g.isLive v = true ∧ g.IsCalm v := by
        simpa [IsIdle] using hcalm
      have hstale : ¬ h.IsStale v := by
        rintro ⟨u, hu, hempty⟩
        rw [(hexpr v hv).2] at hu
        refine hcalm.2 ⟨u, hu, ?_⟩
        rw [← (hexpr u (hreads v hv u (mem_reads_of_varSource? hu))).1]
        exact hempty
      rw [hs'.exprType_of_isCalm hoh (hB v hv).2 (hlive v hv ▸ hvlive) hstale,
        hs.exprType_of_isCalm hog (hB v hv).1 hvlive hcalm.2, hderived]

/-! ## Edits -/

/-- An edit does not disturb the type of a node: the node is dead and has a kept type, its type is
constant, or its rule stays the same. -/
def KeepsRule (g h : Graph) (v : NodeId) : Prop :=
  (h.isLive v = false ∧ g.type? v ≠ none) ∨
    (∃ t, g.constantType? v = some t ∧ h.constantType? v = some t) ∨
    (SameRule g h v ∧ g.constantType? v = none ∧ h.constantType? v = none)

/-- `h` comes from `g` by an edit that gives new typing rules to the nodes of `changed` alone.
Nodes may be added and may die. -/
structure Edits (g h : Graph) (S S' : NodeId → Prop) (changed : List NodeId) : Prop where
  mono : ∀ v, S v → S' v
  fresh : ∀ v, S' v → S v ∨ h.type? v = none
  type_eq : ∀ v, S v → h.type? v = g.type? v
  live : ∀ v, S v → h.isLive v → g.isLive v
  dead : ∀ v, S' v → h.isLive v = false → h.type? v ≠ none ∨ h.constantType? v ≠ none
  constants : h.KeepsConstants
  rule : ∀ v, S v → v ∉ changed → KeepsRule g h v
  open_rule : ∀ v ∈ changed, S v → h.constantType? v = none
  stale : ∀ v, S v → v ∉ changed → h.isLive v → g.IsStale v → h.IsStale v

section
variable {changed : List NodeId}

/-- A node that keeps no type and none that is constant lives, or it is of no interest. -/
theorem Edits.isLive (he : Edits g h S S' changed) (hv : S v)
    (hnone : h.type? v = none) (hconst : h.constantType? v = none) : h.isLive v := by
  by_contra hdead
  rcases he.dead v (he.mono v hv) (by simpa using hdead) with h | h
  · exact h hnone
  · exact h hconst

variable (hog : g.Ordered rank) (hoh : h.Ordered rank') (hkeep : g.KeepsConstants)
  (hclosed : ∀ v, S v → ∀ u ∈ g.reads v, S u) (he : Edits g h S S' changed)
include hog hoh hkeep hclosed he

/-- Where an edit changes a type, the node keeps none and reads a node with a new rule. -/
theorem Edits.awaits_of_exprType_ne (hv : S v) (hne : h.exprType v ≠ g.exprType v) :
    h.isLive v ∧ h.type? v = none ∧ h.constantType? v = none ∧ h.Awaits changed v := by
  induction hr : rank' v using Nat.strong_induction_on generalizing v with
  | _ n ih =>
    subst hr
    have hnone : h.type? v = none := by
      cases ht : h.type? v with
      | none => rfl
      | some t =>
        exact absurd ((exprType_of_kept ht).trans
          (exprType_of_kept ((he.type_eq v hv).symm.trans ht)).symm) hne
    have hnone' : g.type? v = none := (he.type_eq v hv).symm.trans hnone
    by_cases hmem : v ∈ changed
    · have hconst := he.open_rule v hmem hv
      exact ⟨he.isLive hv hnone hconst, hnone, hconst, .here hmem⟩
    rcases he.rule v hv hmem with ⟨-, hkept⟩ | ⟨t, hg, hh⟩ | ⟨hrule, -, hconst⟩
    · exact absurd hnone' hkept
    · exact absurd ((hoh.exprType_of_constant he.constants hh).trans
        (hog.exprType_of_constant hkeep hg).symm) hne
    · obtain ⟨u, hu, hdiff⟩ : ∃ u ∈ g.reads v, h.exprType u ≠ g.exprType u := by
        by_contra hsame
        refine hne ?_
        rw [hoh.exprType_of_unkept hnone, hog.exprType_of_unkept hnone', derivedType,
          hrule.typeRule_eq]
        exact typeRule_congr fun u hu => by_contra fun h => hsame ⟨u, hu, h⟩
      have hu' : u ∈ h.reads v := hrule.reads_eq ▸ hu
      obtain ⟨hulive, hunone, huconst, huawaits⟩ :=
        ih _ (hoh.rank_lt v u (reads_subset_uses hu')) (hclosed v hv u hu) hdiff rfl
      exact ⟨he.isLive hv hnone hconst, hnone, hconst,
        .through hu' hulive hunone huconst huawaits⟩

omit hog hoh hkeep in
/-- What waited still waits. -/
theorem Edits.awaits (hv : S v) (hlive : h.isLive v) (hvconst : h.constantType? v = none)
    (hw : g.Awaits work v) : h.Awaits (changed ++ work) v := by
  induction hw with
  | here hmem => exact .here (mem_append_right _ hmem)
  | @through v u hread hulive hnone hconst _ ih =>
    by_cases hmem : v ∈ changed
    · exact .here (mem_append_left _ hmem)
    rcases he.rule v hv hmem with ⟨hdead, -⟩ | ⟨t, -, hh⟩ | ⟨hrule, -, -⟩
    · rw [hdead] at hlive
      cases hlive
    · rw [hvconst] at hh
      cases hh
    · have hu := hclosed v hv u hread
      have hunone : h.type? u = none := (he.type_eq u hu).trans hnone
      have huconst : h.constantType? u = none := by
        by_cases humem : u ∈ changed
        · exact he.open_rule u humem hu
        rcases he.rule u hu humem with ⟨-, hkept⟩ | ⟨t, hg, -⟩ | ⟨-, -, h⟩
        · exact absurd hnone hkept
        · rw [hconst] at hg
          cases hg
        · exact h
      have hulive' := he.isLive hu hunone huconst
      exact .through (hrule.reads_eq ▸ hread) hulive' hunone huconst (ih hu hulive' huconst)

/-- After an edit, the nodes with new rules are to be refreshed. -/
theorem Edits.settled (hs : g.Settled S work) : h.Settled S' (changed ++ work) := by
  refine ⟨he.constants, he.dead, fun v hv' hlive => ?_⟩
  rcases he.fresh v hv' with hv | hnone
  swap
  · refine .inl fun t ht => ?_
    rw [hnone] at ht
    cases ht
  by_cases hmem : v ∈ changed
  · exact .inr (.inr (.here (mem_append_left _ hmem)))
  rcases he.rule v hv hmem with ⟨hdead, -⟩ | ⟨t, -, hh⟩ | ⟨hrule, -, hconst⟩
  · rw [hdead] at hlive
    cases hlive
  · refine .inl fun t' ht' => ?_
    rw [derivedType_of_constant he.constants hh, he.constants v t hh t' ht']
  rcases hs.current v hv (he.live v hv hlive) with hc | hstale | hw
  · by_cases hsame : ∀ u ∈ g.reads v, h.exprType u = g.exprType u
    · refine .inl fun t ht => ?_
      rw [← hc t ((he.type_eq v hv).symm.trans ht), derivedType, hrule.typeRule_eq]
      exact typeRule_congr hsame
    · simp only [not_forall] at hsame
      obtain ⟨u, hu, hdiff⟩ := hsame
      obtain ⟨hulive, hunone, huconst, huawaits⟩ :=
        he.awaits_of_exprType_ne hog hoh hkeep hclosed (hclosed v hv u hu) hdiff
      refine .inr (.inr ?_)
      refine .through (hrule.reads_eq ▸ hu) hulive hunone huconst (huawaits.mono fun x hx => ?_)
      exact .here (mem_append_left _ hx)
  · exact .inr (.inl (he.stale v hv hmem hlive hstale))
  · exact .inr (.inr (he.awaits hclosed hv hlive hconst hw))

end

end ShardedQuery.Graph
