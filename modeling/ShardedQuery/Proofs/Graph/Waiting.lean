import ShardedQuery.Proofs.Graph.Propagation

/-!
# Waiting for a refresh

A refresh works through a stack of nodes. A kept type that is not what its rule derives is no harm as
long as the node waits for the refresh: it stands on the stack, or it reads a node that keeps no type
and waits itself. `Graph.Watches` says which nodes a refresh has to reach for this: a node is among
the dependents of what it reads, unless the type of what it reads does not change. One step of a
propagation keeps every node current or waiting (`UpToDate.pop`, `UpToDate.push`), and when the stack
is empty no node waits any more (`UpToDate.refresh`).
-/

namespace ShardedQuery.Graph

open List

variable {D F X : NodeId → Prop} {g : Graph} {rank : NodeId → Nat} {J : Graph → Prop}
  {work : List NodeId} {v : NodeId}

/-- The kept type of the node, if there is one, is what its rule derives. -/
def IsCurrent (g : Graph) (v : NodeId) : Prop := ∀ t ∈ g.type? v, g.derivedType v = t

theorem Ordered.exprType_of_current (ho : g.Ordered rank) (hv : g.IsCurrent v) :
    g.exprType v = g.derivedType v := by
  rw [ho.exprType_eq]
  cases ht : g.type? v with
  | none => rfl
  | some t => exact (hv t ht).symm

/-- A refresh of the nodes of `work` will reach the node. Nodes of `F`, whose types do not change,
pass nothing on. -/
inductive WaitsPast (g : Graph) (F : NodeId → Prop) (work : List NodeId) : NodeId → Prop
  | here {v : NodeId} (h : v ∈ work) : WaitsPast g F work v
  | through {v u : NodeId} (hread : u ∈ g.reads v) (hmoves : ¬ F u) (hnone : g.type? u = none)
      (hu : WaitsPast g F work u) : WaitsPast g F work v

/-- The nodes of `D` live, and those they read know of them, but for the nodes of `F`. -/
structure Watches (g : Graph) (D F : NodeId → Prop) : Prop where
  live : ∀ v, D v → g.isLive v
  linked : ∀ v, D v → ∀ u ∈ g.reads v, F u ∨ (D u ∧ v ∈ g.dependents u)

/-- Every node of `D` has a current type or waits, those of `X` apart. -/
def UpToDate (g : Graph) (D F X : NodeId → Prop) (work : List NodeId) : Prop :=
  ∀ v, D v → X v ∨ g.IsCurrent v ∨ g.WaitsPast F work v

section
variable {h : Graph} {id : NodeId} {work' : List NodeId}

theorem WaitsPast.mono (hsub : ∀ x ∈ work, x ∈ work') (h : g.WaitsPast F work v) :
    g.WaitsPast F work' v := by
  induction h with
  | here h => exact .here (hsub _ h)
  | through hread hmoves hnone _ ih => exact .through hread hmoves hnone ih

theorem not_waitsPast_nil : ¬ g.WaitsPast F [] v := by
  intro h
  induction h with
  | here h => cases h
  | through _ _ _ _ ih => exact ih

theorem UpToDate.mono (hsub : ∀ x ∈ work, x ∈ work') (hs : g.UpToDate D F X work) :
    g.UpToDate D F X work' :=
  fun v hv => (hs v hv).imp_right fun h => h.imp_right (·.mono hsub)

theorem SameShape.dependents_eq (hs : SameShape g h) (v : NodeId) :
    h.dependents v = g.dependents v := by
  have hover : h.declaredOver v = g.declaredOver v := by
    funext p
    rw [declaredOver, hs.expr_eq, declaredOver]
  rw [dependents, hover, hs.parents_eq, dependents]

theorem SameShape.linksInside (hs : SameShape g h) (hl : g.LinksInside) : h.LinksInside :=
  ⟨fun v p hp => hs.size_eq ▸ hl.parents_lt v p (hs.parents_eq v ▸ hp),
    fun v u hu => hs.size_eq ▸ hl.declared_lt v u (hs.expr_eq v ▸ hu)⟩

theorem SameShape.watches (hs : SameShape g h) (hw : g.Watches D F) : h.Watches D F := by
  refine ⟨fun v hv => (hs.live_eq v).trans (hw.live v hv), fun v hv u hu => ?_⟩
  rw [(hs.toSameExprs.sameRule v).reads_eq] at hu
  rw [hs.dependents_eq]
  exact hw.linked v hv u hu

/-- A node that has a current type, or is dead, need not be refreshed. -/
theorem UpToDate.pop (hw : g.Watches D F) (hs : g.UpToDate D F X (id :: work))
    (hclosed : g.isOpen id = false) : g.UpToDate D F X work := by
  have hkept (hlive : g.isLive id) : g.type? id = some (g.derivedType id) := by
    rw [isOpen, hlive, Bool.true_and, decide_eq_false_iff_not, not_not] at hclosed
    exact hclosed
  have hwaits {v : NodeId} (hv : D v) (h : g.WaitsPast F (id :: work) v) :
      v = id ∨ g.WaitsPast F work v := by
    induction h with
    | here h => exact (mem_cons.1 h).imp_right .here
    | @through v u hread hmoves hnone _ ih =>
      have hu := ((hw.linked v hv u hread).resolve_left hmoves).1
      rcases ih hu with rfl | ih
      · rw [hkept (hw.live _ hu)] at hnone
        cases hnone
      · exact .inr (.through hread hmoves hnone ih)
  refine fun v hv => (hs v hv).imp_right fun h => ?_
  rcases h with h | h
  · exact .inl h
  · rcases hwaits hv h with rfl | h
    · refine .inl fun t ht => ?_
      rw [hkept (hw.live v hv)] at ht
      exact Option.some.inj ht
    · exact .inr h

variable (ho : g.Ordered rank) (hw : g.Watches D F) (hlive : g.isLive id)
  (hfixed : ∀ u, F u → (g.retype id).exprType u = g.exprType u)
include ho hw hlive hfixed

/-- A node that reads a type that changes when the derived type of another node is kept, reads this
node itself or through nodes that keep no type. -/
theorem Watches.waits_of_exprType_ne {u : NodeId} (hv : D v) (hu : u ∈ g.reads v)
    (hne : (g.retype id).exprType u ≠ g.exprType u) :
    (g.retype id).WaitsPast F (g.dependents id) v := by
  have hid := lt_size_of_isLive hlive
  have hshape := SameShape.setType g id (g.derivedType id)
  have ho' := hshape.toSameExprs.ordered ho
  induction hr : rank v using Nat.strong_induction_on generalizing v u with
  | _ n ih =>
    subst hr
    have hmoves : ¬ F u := fun h => hne (hfixed u h)
    obtain ⟨hD, hmem⟩ := (hw.linked v hv u hu).resolve_left hmoves
    by_cases huid : u = id
    · subst huid
      exact .here hmem
    have htype : (g.retype id).type? u = g.type? u := by
      rw [type?_setType hid, if_neg huid]
    have hnone : g.type? u = none := by
      cases h : g.type? u with
      | none => rfl
      | some t => exact absurd (by rw [exprType_of_kept (htype.trans h), exprType_of_kept h]) hne
    obtain ⟨w, hread, hdiff⟩ : ∃ w ∈ g.reads u,
        (g.retype id).exprType w ≠ g.exprType w := by
      by_contra hsame
      refine hne ?_
      rw [ho.exprType_of_unkept hnone, ho'.exprType_of_unkept (htype.trans hnone), derivedType,
        (hshape.toSameExprs.sameRule u).typeRule_eq]
      exact typeRule_congr fun w hw => by_contra fun h => hsame ⟨w, hw, h⟩
    refine .through ?_ hmoves (htype.trans hnone)
      (ih _ (ho.rank_lt v u (reads_subset_uses hu)) hD hread hdiff rfl)
    rwa [(hshape.toSameExprs.sameRule v).reads_eq]

/-- Keeping the derived type of a node leaves its dependents to be refreshed. -/
theorem UpToDate.push (hs : g.UpToDate D F X (id :: work)) :
    (g.retype id).UpToDate D F X (g.dependents id ++ work) := by
  have hid := lt_size_of_isLive hlive
  have hshape := SameShape.setType g id (g.derivedType id)
  have hwaits {v : NodeId} (hv : D v) (h : g.WaitsPast F (id :: work) v) :
      v = id ∨ (g.retype id).WaitsPast F (g.dependents id ++ work) v := by
    induction h with
    | here h => exact (mem_cons.1 h).imp_right fun h => .here (mem_append_right _ h)
    | @through v u hread hmoves hnone _ ih =>
      obtain ⟨hu, hmem⟩ := (hw.linked v hv u hread).resolve_left hmoves
      by_cases huid : u = id
      · subst huid
        exact .inr (.here (mem_append_left _ hmem))
      · refine .inr (.through ?_ hmoves ?_ ((ih hu).resolve_left huid))
        · rwa [(hshape.toSameExprs.sameRule v).reads_eq]
        · rwa [type?_setType hid, if_neg huid]
  refine fun v hv => (hs v hv).imp_right fun h => ?_
  by_cases hvid : v = id
  · subst hvid
    refine .inl fun t htype => ?_
    rw [type?_setType hid, if_pos rfl] at htype
    rw [ho.derivedType_setType hid le_rfl]
    exact Option.some.inj htype
  rcases h with h | h
  · by_cases hsame : ∀ u ∈ g.reads v, (g.retype id).exprType u = g.exprType u
    · refine .inl fun t htype => ?_
      rw [type?_setType hid, if_neg hvid] at htype
      rw [← h t htype, derivedType, (hshape.toSameExprs.sameRule v).typeRule_eq]
      exact typeRule_congr hsame
    · simp only [not_forall] at hsame
      obtain ⟨u, hu, hdiff⟩ := hsame
      exact .inr ((hw.waits_of_exprType_ne ho hlive hfixed hv hu hdiff).mono
        fun x hx => mem_append_left _ hx)
  · exact .inr ((hwaits hv h).resolve_left hvid)

end

/-- When a refresh is through, nothing waits for it any more. What the steps keep, `J`, has to make
sure that the types of the nodes of `F` do not change. -/
theorem UpToDate.refresh {t : NodeId → SeqType} {id : NodeId} (ho : g.Ordered rank)
    (hl : g.LinksInside) (hw : g.Watches D F)
    (hfixed : ∀ k, SameShape g k → J k → ∀ u, F u → k.exprType u = t u)
    (hstep : ∀ k v, SameShape g k → J k → k.isLive v → J (k.retype v)) (hJ : J g)
    (hs : g.UpToDate D F X (id :: work)) :
    J (g.refresh id) ∧ (g.refresh id).UpToDate D F X work := by
  have h := propagate_induction rank
    (P := fun stack k => SameShape g k ∧ J k ∧ k.UpToDate D F X (stack ++ work))
    (fun k v stack hP hclosed => ⟨hP.1, hP.2.1, hP.2.2.pop (hP.1.watches hw) hclosed⟩)
    (fun k v stack hP hopen => ?_) ho hl ⟨.refl g, hJ, hs⟩
    (g.workLeft_le_propagationBound rank id)
  · exact h.2
  · obtain ⟨hshape, hJ, hs⟩ := hP
    have hlive : k.isLive v := (Bool.and_eq_true_iff.1 hopen).1
    have hshape' := hshape.trans (SameShape.setType k v (k.derivedType v))
    have hJ' := hstep k v hshape hJ hlive
    have hpush := hs.push (hshape.toSameExprs.ordered ho) (hshape.watches hw) hlive fun u hu =>
      (hfixed _ hshape' hJ' u hu).trans (hfixed k hshape hJ u hu).symm
    refine ⟨hshape', hJ', hpush.mono fun x hx => ?_⟩
    simpa [or_assoc] using hx

/-- A refresh changes kept types of living nodes only, and only in a set that holds the dependents of
those of its members that change. -/
theorem type?_refresh_of_closed {C : NodeId → Prop} {id : NodeId} (ho : g.Ordered rank)
    (hl : g.LinksInside) (hstep : ∀ k v, SameShape g k → J k → C v → k.isOpen v →
      J (k.retype v) ∧ ∀ w ∈ g.dependents v, C w) (hJ : J g) (hid : C id) :
    J (g.refresh id) ∧ ∀ v, g.isLive v = false ∨ ¬ C v → (g.refresh id).type? v = g.type? v := by
  have h := propagate_induction rank (P := fun stack k => SameShape g k ∧ J k ∧ (∀ x ∈ stack, C x) ∧
      ∀ v, g.isLive v = false ∨ ¬ C v → k.type? v = g.type? v)
    (fun k v stack hP _ =>
      ⟨hP.1, hP.2.1, fun x hx => hP.2.2.1 x (.tail _ hx), hP.2.2.2⟩)
    (fun k v stack hP hopen => ?_) ho hl
    ⟨.refl g, hJ, fun x hx => mem_singleton.1 hx ▸ hid, fun _ _ => rfl⟩
    (g.workLeft_le_propagationBound rank id)
  · exact ⟨h.2.1, h.2.2.2⟩
  · obtain ⟨hshape, hJ, hstack, hsame⟩ := hP
    have hv := hstack v (.head _)
    have hlive : k.isLive v := (Bool.and_eq_true_iff.1 hopen).1
    obtain ⟨hJ', hdep⟩ := hstep k v hshape hJ hv hopen
    refine ⟨hshape.trans (.setType ..), hJ', fun x hx => ?_, fun u hu => ?_⟩
    · rcases mem_append.1 hx with hx | hx
      · rw [hshape.dependents_eq, mem_reverse] at hx
        exact hdep x hx
      · exact hstack x (.tail _ hx)
    · have hne : u ≠ v := by
        rintro rfl
        rcases hu with hdead | hnot
        · rw [hshape.live_eq, hdead] at hlive
          cases hlive
        · exact hnot hv
      rw [type?_setType (lt_size_of_isLive hlive), if_neg hne]
      exact hsame u hu

end ShardedQuery.Graph
