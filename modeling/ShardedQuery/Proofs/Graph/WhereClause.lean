import ShardedQuery.Proofs.Graph.Clauses
import ShardedQuery.Proofs.Graph.Garbage

/-!
# Rewriting a WHERE clause

`Graph.setConjuncts` first gives the block its new clause (`Graph.reconditioned`) and then removes
the conjuncts that are dropped and unused. Parent lists agree with the slots all the time
(`Cuts.tallied`). A conjunction that was the old clause dies before its other users are asked: the
result is consistent only if there are none.
-/

namespace ShardedQuery.Graph

open Relation List

variable {d w c p v : NodeId} {g h : Graph} {b : Block}

/-! ## Removing what is unused -/

/-- What is reached through one node only: the node itself, and what is used from there alone. -/
inductive OnlyBelow (g : Graph) (id : NodeId) : NodeId → Prop
  | self : OnlyBelow g id id
  | used {v : NodeId} (hlive : g.isLive v) (hused : g.parents v ≠ [])
      (hparents : ∀ p ∈ g.parents v, OnlyBelow g id p) : OnlyBelow g id v

/-- `h` is left of `k` when nodes of `Q` were removed, with the variables they declare. -/
structure Pruned (k : Graph) (Q : NodeId → Prop) (h : Graph) : Prop where
  same : SameExprs k h
  tallied : h.Tallied
  isLive_of : ∀ v, h.isLive v → k.isLive v
  gone : ∀ v, k.isLive v → h.isLive v = false → Q v ∨ ∃ d, Q d ∧ v ∈ (k.expr d).declared
  /-- Variables go with the nodes that declare them. -/
  buried : ∀ d, k.isLive d → h.isLive d = false → ∀ u ∈ (k.expr d).declared, h.isLive u = false
  /-- Nothing else is missing that is still used. -/
  missing : ∀ p, h.isLive p → ∀ c ∈ k.children p, k.isLive c → h.isLive c = false →
    ∃ d, k.isLive d ∧ h.isLive d = false ∧ c ∈ (k.expr d).declared

section
variable {k : Graph} {Q : NodeId → Prop} {id : NodeId}

theorem OnlyBelow.reached (hg : g.Tallied) (hv : g.OnlyBelow id v) :
    ReflTransGen g.IsChild id v := by
  induction hv with
  | self => exact .refl
  | used hlive hused _ ih =>
    obtain ⟨p, hp⟩ := exists_mem_of_ne_nil _ hused
    exact .tail (ih p hp) ((hg.mem_parents_iff hlive).1 hp).2

theorem Pruned.refl (hk : k.Tallied) : Pruned k Q k where
  same := .refl k
  tallied := hk
  isLive_of _ hv := hv
  gone _ hv hdead := absurd hv (by simp [hdead])
  buried _ hv hdead := absurd hv (by simp [hdead])
  missing _ _ _ _ hv hdead := absurd hv (by simp [hdead])

/-- Removing one more node that is unused. -/
theorem Pruned.destroy (hp : Pruned k Q h) (hvars : k.DeclaresVars) (hd : h.isLive d)
    (hnil : h.parents d = []) (hQ : ∀ v, h.Garbage d v → Q v) :
    Pruned k Q (h.destroy d) := by
  have hhvars := hp.same.declaresVars hvars
  have hlive := hp.tallied.isLive_destroy hhvars hd hnil
  have hsame := SameExprs.destroy h d
  -- What dies in this step is garbage or declared by it.
  have hstep (v : NodeId) (hv : h.isLive v) (hdead : (h.destroy d).isLive v = false) :
      h.GoesWith d v := by
    by_contra hstays
    exact absurd ((hlive v).2 ⟨hv, hstays⟩) (by simp [hdead])
  have hdeclared (e v : NodeId) : v ∈ (h.expr e).declared ↔ v ∈ (k.expr e).declared := by
    rw [hp.same.expr_eq]
  have hgone (e : NodeId) (he : h.Garbage d e) : (h.destroy d).isLive e = false :=
    Bool.eq_false_iff.2 fun hl => ((hlive e).1 hl).2 (.inl he)
  have hdies (v : NodeId) (hv : h.isLive v = false) : (h.destroy d).isLive v = false :=
    Bool.eq_false_iff.2 fun hl => absurd ((hlive v).1 hl).1 (by simp [hv])
  refine
    { same := hp.same.trans hsame
      tallied := hp.tallied.destroy hhvars hd hnil
      isLive_of := fun v hv => hp.isLive_of v ((hlive v).1 hv).1
      gone := fun v hv hdead => ?_
      buried := fun e he hdead u hu => ?_
      missing := fun p hplive c hc hclive hdead => ?_ }
  · by_cases hvh : h.isLive v
    · rcases hstep v hvh hdead with hv | ⟨e, he, hv⟩
      · exact .inl (hQ v hv)
      · exact .inr ⟨e, hQ e he, (hdeclared e v).1 hv⟩
    · exact hp.gone v hv (Bool.eq_false_iff.2 hvh)
  · by_cases heh : h.isLive e
    · rcases hstep e heh hdead with hgarb | ⟨f, -, hf⟩
      · exact Bool.eq_false_iff.2 fun hl =>
          ((hlive u).1 hl).2 (.inr ⟨e, hgarb, (hdeclared e u).2 hu⟩)
      · -- A variable declares nothing.
        have hvar := hvars f e ((hdeclared f e).1 hf)
        rw [declared_of_isVar hvar] at hu
        cases hu
    · exact hdies u (hp.buried e he (Bool.eq_false_iff.2 heh) u hu)
  · have hph := ((hlive p).1 hplive).1
    by_cases hch : h.isLive c
    · rcases hstep c hch hdead with hgarb | ⟨e, he, hc'⟩
      · -- Garbage is used by garbage only.
        have hmem : p ∈ h.parents c :=
          (hp.tallied.mem_parents_iff hch).2 ⟨hph, (hp.same.children_eq p).symm ▸ hc⟩
        exact absurd (.inl (hgarb.of_mem_parents hnil hmem)) ((hlive p).1 hplive).2
      · exact ⟨e, hp.isLive_of e (he.isLive hd), hgone e he, (hdeclared e c).1 hc'⟩
    · obtain ⟨e, he, hdead', hmem⟩ := hp.missing p hph c hc hclive (Bool.eq_false_iff.2 hch)
      exact ⟨e, he, hdies e hdead', hmem⟩

theorem Pruned.destroyIfUnused (hp : Pruned k Q h) (hvars : k.DeclaresVars)
    (hQ : h.isLive d → h.parents d = [] → ∀ v, h.Garbage d v → Q v) :
    Pruned k Q (h.destroyIfUnused d) := by
  rw [Graph.destroyIfUnused]
  split
  · next hnil =>
    rw [List.isEmpty_iff] at hnil
    by_cases hd : h.isLive d
    · exact hp.destroy hvars hd hnil (hQ hd hnil)
    · rw [destroy_of_dead (Bool.eq_false_iff.2 hd)]
      exact hp
  · exact hp

end

/-! ## The new clause -/

theorem children_condition_perm (b : Block) (x : Option NodeId) :
    (Expr.block { b with condition := x }).children.Perm
      (x.toList ++ (Expr.block { b with condition := none }).children) := by
  rw [perm_iff_count]
  intro c
  simp only [Expr.children, count_append, Option.toList_none, count_nil]
  omega

theorem children_perm_of_condition {x : Option NodeId} (hx : b.condition = x) :
    (Expr.block b).children.Perm
      (x.toList ++ (Expr.block { b with condition := none }).children) :=
  hx ▸ children_condition_perm b b.condition

/-- The WHERE clause of a living block of a consistent graph is cut down to some of its conjuncts. -/
structure Cuts (g : Graph) (block : NodeId) (b : Block) (cs : List NodeId) : Prop where
  consistent : g.Consistent
  vars : g.DeclaresVars
  live : g.isLive block
  block_eq : g.block? block = some b
  sublist : cs.Sublist (g.conjuncts block)

/-- What the node of the new clause stands for: the conjunction that was taken apart. -/
def standsFor (g : Graph) (block v : NodeId) : NodeId :=
  if v = g.size then ((g.block? block).bind (·.condition)).getD v else v

/-- Reached through the WHERE clause of a block only. A conjunction that is the clause is taken
apart, so that it does not matter what else uses it. -/
def ClauseOnly (g : Graph) (block : NodeId) (b : Block) (v : NodeId) : Prop :=
  ∃ w, b.condition = some w ∧ ((g.expr w).isConjunction ∨ g.parents w = [block]) ∧ g.OnlyBelow w v

section
variable {block : NodeId} {cs : List NodeId}

theorem standsFor_of_lt (hv : v < g.size) : g.standsFor block v = v := if_neg hv.ne

theorem standsFor_size (hw : g.TakesApart block w) : g.standsFor block g.size = w := by
  rw [standsFor, if_pos rfl, hw.1]
  rfl

theorem isLive_reconditioned_iff (cs : List NodeId) (hv : v < g.size) :
    (g.reconditioned block cs).isLive v ↔ g.isLive v ∧ ¬ g.TakesApart block v := by
  rw [isLive_reconditioned]
  exact or_iff_right fun h => hv.ne h.1

theorem expr_reconditioned_eq (hv : g.isLive v) (hne : v ≠ block) (hnot : ¬ g.TakesApart block v) :
    (g.reconditioned block cs).expr v = g.expr v := by
  rw [expr_reconditioned hne, if_neg fun h => (lt_size_of_isLive hv).ne h.1, if_neg hnot]

namespace Cuts

variable (hr : g.Cuts block b cs)
include hr

theorem takesApart_iff : g.TakesApart block v ↔ b.condition = some v ∧ (g.expr v).isConjunction := by
  rw [TakesApart, hr.block_eq, Option.bind_some]

theorem isChild_of_condition (hw : b.condition = some v) : g.IsChild block v := by
  rw [IsChild, children_of_block? hr.block_eq]
  simp [Expr.children, hw]

theorem isLive_of_condition (hw : b.condition = some v) : g.isLive v :=
  hr.consistent.children_live block hr.live v (hr.isChild_of_condition hw)

theorem isLive_of_takesApart (hv : g.TakesApart block v) : g.isLive v :=
  hr.isLive_of_condition (hr.takesApart_iff.1 hv).1

theorem isChild_of_takesApart (hv : g.TakesApart block v) : g.IsChild block v :=
  hr.isChild_of_condition (hr.takesApart_iff.1 hv).1

theorem ne_of_takesApart (hv : g.TakesApart block v) : v ≠ block := by
  rintro rfl
  exact not_takesApart_self hr.block_eq hv

section
variable (hc : c ∈ g.conjuncts block)
include hc

/-- A conjunct is the clause, or an argument of the conjunction that is taken apart. -/
theorem conjunct_cases :
    (b.condition = some c ∧ (g.expr c).isConjunction = false ∧ g.conjuncts block = [c]) ∨
      ∃ w, g.TakesApart block w ∧ g.IsChild w c := by
  rw [conjuncts_eq_parts, hr.block_eq] at hc ⊢
  cases hw : b.condition with
  | none => simp [hw] at hc
  | some w =>
    simp only [Option.bind_some, hw, Option.elim_some] at hc ⊢
    cases hconj : (g.expr w).isConjunction with
    | false =>
      rw [parts_of_not_conjunction hconj] at hc ⊢
      cases mem_singleton.1 hc
      exact .inl ⟨rfl, hconj, rfl⟩
    | true =>
      obtain ⟨args, hargs⟩ := Expr.exists_of_isConjunction hconj
      refine .inr ⟨w, hr.takesApart_iff.2 ⟨hw, hconj⟩, ?_⟩
      rw [parts, hargs] at hc
      rw [IsChild, children, hargs]
      exact hc

theorem reached_of_conjunct : TransGen g.IsChild block c := by
  rcases hr.conjunct_cases hc with ⟨hw, -, -⟩ | ⟨w, hw, hwc⟩
  · exact .single (hr.isChild_of_condition hw)
  · exact .tail (.single (hr.isChild_of_takesApart hw)) hwc

theorem isLive_conjunct : g.isLive c := by
  rcases hr.conjunct_cases hc with ⟨hw, -, -⟩ | ⟨w, hw, hwc⟩
  · exact hr.isLive_of_condition hw
  · exact hr.consistent.children_live w (hr.isLive_of_takesApart hw) c hwc

theorem not_reached_of_conjunct (hw : g.TakesApart block w) :
    ¬ ReflTransGen g.IsChild c w := by
  intro hcw
  rcases hr.conjunct_cases hc with ⟨hcond, hconj, -⟩ | ⟨w', hw', hchild⟩
  · obtain rfl : w = c := Option.some.inj ((hr.takesApart_iff.1 hw).1.symm.trans hcond)
    rw [hw.2] at hconj
    cases hconj
  · obtain rfl := hw'.iff_eq.1 hw
    exact hr.consistent.acyclic w (hr.isLive_of_takesApart hw) (.head' hchild hcw)

theorem not_takesApart_conjunct : ¬ g.TakesApart block c :=
  fun happart => hr.not_reached_of_conjunct hc happart .refl

end

theorem expr_apart (hv : g.TakesApart block v) :
    (g.reconditioned block cs).expr v = .call .and [] := by
  have hlt := lt_size_of_isLive (hr.isLive_of_takesApart hv)
  rw [expr_reconditioned (hr.ne_of_takesApart hv), if_neg fun h => hlt.ne h.1, if_pos hv]

theorem block_perm : ((g.reconditioned block cs).children block).Perm
    ((g.newCondition block cs).toList ++ (Expr.block { b with condition := none }).children) := by
  rw [children_of_block? (block?_reconditioned hr.block_eq cs)]
  exact children_condition_perm b _

/-- A slot of a living node is one that it had, the slot of the new clause, or a slot of the node of
that clause. -/
theorem child_cases (hp : (g.reconditioned block cs).isLive p)
    (hc : (g.reconditioned block cs).IsChild p c) :
    (g.isLive p ∧ g.IsChild p c ∧
        (p = block → c ∈ (Expr.block { b with condition := none }).children)) ∨
      (p = block ∧ (cs = [c] ∨ (2 ≤ cs.length ∧ c = g.size))) ∨
      (p = g.size ∧ 2 ≤ cs.length ∧ c ∈ cs) := by
  by_cases hpb : p = block
  · subst hpb
    rcases mem_append.1 (hr.block_perm.mem_iff.1 hc) with hc | hc
    · exact .inr (.inl ⟨rfl, newCondition_eq_some.1 (Option.mem_toList.1 hc)⟩)
    · refine .inl ⟨hr.live, ?_, fun _ => hc⟩
      rw [IsChild, children_of_block? hr.block_eq]
      exact (children_perm_of_condition rfl).mem_iff.2 (mem_append_right _ hc)
  · rcases isLive_reconditioned.1 hp with ⟨rfl, htwo⟩ | ⟨hlive, hnot⟩
    · rw [IsChild, children, expr_reconditioned hpb, if_pos ⟨rfl, htwo⟩] at hc
      exact .inr (.inr ⟨rfl, htwo, hc⟩)
    · rw [IsChild, children, expr_reconditioned_eq hlive hpb hnot] at hc
      exact .inl ⟨hlive, hc, fun h => absurd h hpb⟩

/-- The block has lost the slot of its clause. -/
theorem talliedBut_withoutCondition : (g.withoutCondition block).TalliedBut block
    (Expr.block { b with condition := none }).children := by
  have hlt : ∀ p, g.isLive p → ∀ c ∈ g.children p, c < g.size := fun p hp c hc =>
    lt_size_of_isLive (hr.consistent.children_live p hp c hc)
  have hbase := hr.consistent.but hr.live hlt
  rw [children_of_block? hr.block_eq] at hbase
  have hunlinked {w : NodeId} (hw : b.condition = some w) : (g.unlink block w).TalliedBut block
      (Expr.block { b with condition := none }).children := by
    refine (hbase.unlink w).perm ?_
    have := (children_perm_of_condition hw).erase w
    rwa [Option.toList_some, singleton_append, erase_cons_head] at this
  rcases g.withoutCondition_cases block with
    ⟨-, ⟨hnone, h⟩ | ⟨w, hw, h⟩⟩ | ⟨w, args, hw, hargs, h⟩ <;> rw [h]
  · rw [hr.block_eq, Option.bind_some] at hnone
    exact hbase.perm (children_perm_of_condition hnone)
  · rw [hr.block_eq, Option.bind_some] at hw
    exact hunlinked hw
  · refine (hunlinked (hr.takesApart_iff.1 hw).1).dissolve hargs ?_ (hr.ne_of_takesApart hw)
    rw [isLive_unlink]
    exact hr.isLive_of_takesApart hw

theorem tallied : (g.reconditioned block cs).Tallied := by
  have hbefore := hr.talliedBut_withoutCondition
  have hsize := size_withoutCondition g block
  have hltcs : ∀ c ∈ cs, c < g.size := fun c hc =>
    lt_size_of_isLive (hr.isLive_conjunct (hr.sublist.subset hc))
  have hlt := lt_size_of_isLive hr.live
  -- The node of the new clause exists, and nothing else has changed.
  have hwith : (g.withCondition block cs).TalliedBut block
      (Expr.block { b with condition := none }).children := by
    rcases addCondition_cases (g.withoutCondition block) cs with ⟨-, h, -⟩ | ⟨-, h⟩
    · rwa [withCondition, h]
    · rw [withCondition, h]
      exact hbefore.add (hsize ▸ hlt) fun c hc => hsize ▸ hltcs c hc
  have hnew : ∀ c ∈ (g.newCondition block cs).toList, c < (g.withCondition block cs).size := by
    intro c hc
    rw [size_withCondition]
    rcases newCondition_eq_some.1 (Option.mem_toList.1 hc) with hone | ⟨htwo, rfl⟩
    · rw [if_neg (by simp [hone])]
      exact hltcs c (hone ▸ mem_singleton_self c)
    · rw [if_pos htwo]
      exact Nat.lt_succ_self _
  have hlinked : (g.reconditioned block cs).TalliedBut block
      ((g.newCondition block cs).toList.reverse ++
        (Expr.block { b with condition := none }).children) := (hwith.linkAll _ hnew).modifyBlock _
  refine hlinked.tallied
    ((isLive_reconditioned_iff cs hlt).2 ⟨hr.live, not_takesApart_self hr.block_eq⟩) ?_
  exact hr.block_perm.trans (Perm.append_right _ (reverse_perm _).symm)

theorem exists_takesApart_of_two (htwo : 2 ≤ cs.length) :
    ∃ w, g.TakesApart block w ∧ ∀ c ∈ cs, g.IsChild w c := by
  have hlength := htwo.trans hr.sublist.length_le
  have hmany {d : NodeId} (hd : d ∈ g.conjuncts block) :
      ∃ w, g.TakesApart block w ∧ g.IsChild w d := by
    refine (hr.conjunct_cases hd).resolve_left fun ⟨_, _, hsingle⟩ => ?_
    rw [hsingle, length_singleton] at hlength
    omega
  obtain ⟨c, hc⟩ := exists_mem_of_length_pos (Nat.zero_lt_two.trans_le hlength)
  obtain ⟨w, hw, -⟩ := hmany hc
  refine ⟨w, hw, fun d hd => ?_⟩
  obtain ⟨w', hw', hchild⟩ := hmany (hr.sublist.subset hd)
  rwa [hw'.iff_eq.1 hw]

/-- A slot of the new graph holds a living node or the conjunction that was taken apart. There was a
way in the old graph where it leads. -/
theorem isChild (hp : (g.reconditioned block cs).isLive p)
    (hc : (g.reconditioned block cs).IsChild p c) :
    ((g.reconditioned block cs).isLive c ∨ g.TakesApart block c) ∧
      TransGen g.IsChild (g.standsFor block p) (g.standsFor block c) := by
  have hlt := lt_size_of_isLive hr.live
  have hold {q c : NodeId} (hq : q < g.size) (hc : g.isLive c)
      (hreach : TransGen g.IsChild q c) :
      ((g.reconditioned block cs).isLive c ∨ g.TakesApart block c) ∧
        TransGen g.IsChild (g.standsFor block q) (g.standsFor block c) := by
    have hclt := lt_size_of_isLive hc
    rw [standsFor_of_lt hq, standsFor_of_lt hclt, isLive_reconditioned_iff cs hclt]
    exact ⟨by tauto, hreach⟩
  rcases hr.child_cases hp hc with ⟨hplive, hc, -⟩ | ⟨rfl, hone | ⟨htwo, rfl⟩⟩ | ⟨rfl, htwo, hc⟩
  · exact hold (lt_size_of_isLive hplive) (hr.consistent.children_live p hplive c hc) (.single hc)
  · have hmem : c ∈ g.conjuncts p := hr.sublist.subset (hone ▸ mem_singleton_self c)
    exact hold hlt (hr.isLive_conjunct hmem) (hr.reached_of_conjunct hmem)
  · obtain ⟨w, hw, -⟩ := hr.exists_takesApart_of_two htwo
    rw [standsFor_of_lt hlt, standsFor_size hw]
    exact ⟨.inl (isLive_reconditioned.2 (.inl ⟨rfl, htwo⟩)), .single (hr.isChild_of_takesApart hw)⟩
  · obtain ⟨w, hw, hchild⟩ := hr.exists_takesApart_of_two htwo
    have hwlt := lt_size_of_isLive (hr.isLive_of_takesApart hw)
    have := hold hwlt (hr.isLive_conjunct (hr.sublist.subset hc)) (.single (hchild c hc))
    rwa [standsFor_of_lt hwlt, ← standsFor_size hw] at this

theorem reached (hp : (g.reconditioned block cs).isLive p)
    (hc : TransGen (g.reconditioned block cs).IsChild p c) :
    ((g.reconditioned block cs).isLive c ∨ g.TakesApart block c) ∧
      TransGen g.IsChild (g.standsFor block p) (g.standsFor block c) := by
  induction hc with
  | single h => exact hr.isChild hp h
  | @tail q c _ h ih =>
    rcases ih.1 with hq | happart
    · obtain ⟨hc, hway⟩ := hr.isChild hq h
      exact ⟨hc, ih.2.trans hway⟩
    · rw [IsChild, children, hr.expr_apart happart] at h
      cases h

theorem acyclic (hv : (g.reconditioned block cs).isLive v) :
    ¬ TransGen (g.reconditioned block cs).IsChild v v := by
  intro hcycle
  have hway := (hr.reached hv hcycle).2
  rcases isLive_reconditioned.1 hv with ⟨rfl, htwo⟩ | ⟨hlive, -⟩
  · obtain ⟨w, hw, -⟩ := hr.exists_takesApart_of_two htwo
    rw [standsFor_size hw] at hway
    exact hr.consistent.acyclic w (hr.isLive_of_takesApart hw) hway
  · rw [standsFor_of_lt (lt_size_of_isLive hlive)] at hway
    exact hr.consistent.acyclic v hlive hway

/-- Below a conjunct everything is as it was. -/
theorem below_conjunct (hd : d ∈ g.conjuncts block)
    (h : ReflTransGen (g.reconditioned block cs).IsChild d p) :
    g.isLive p ∧ (g.reconditioned block cs).children p = g.children p := by
  have hdlive := hr.isLive_conjunct hd
  have hdlt := lt_size_of_isLive hdlive
  have hdk := (isLive_reconditioned_iff cs hdlt).2 ⟨hdlive, hr.not_takesApart_conjunct hd⟩
  have hway : g.isLive p ∧ ¬ g.TakesApart block p ∧ ReflTransGen g.IsChild d p := by
    rcases Relation.reflTransGen_iff_eq_or_transGen.1 h with rfl | h
    · exact ⟨hdlive, hr.not_takesApart_conjunct hd, .refl⟩
    · obtain ⟨hp, hway⟩ := hr.reached hdk h
      rw [standsFor_of_lt hdlt] at hway
      have hp : g.isLive p := by
        rcases hp with hp | happart
        · rcases isLive_reconditioned.1 hp with ⟨rfl, htwo⟩ | ⟨hlive, -⟩
          · obtain ⟨w, hw, -⟩ := hr.exists_takesApart_of_two htwo
            rw [standsFor_size hw] at hway
            exact absurd hway.to_reflTransGen (hr.not_reached_of_conjunct hd hw)
          · exact hlive
        · exact hr.isLive_of_takesApart happart
      rw [standsFor_of_lt (lt_size_of_isLive hp)] at hway
      exact ⟨hp, fun happart => hr.not_reached_of_conjunct hd happart hway.to_reflTransGen,
        hway.to_reflTransGen⟩
  obtain ⟨hp, happart, hway⟩ := hway
  have hne : p ≠ block := by
    rintro rfl
    exact hr.consistent.acyclic p hr.live ((hr.reached_of_conjunct hd).trans_left hway)
  exact ⟨hp, by rw [children, expr_reconditioned_eq hp hne happart, children]⟩

theorem declared_eq : ((g.reconditioned block cs).expr v).declared = (g.expr v).declared := by
  by_cases hvb : v = block
  · rw [hvb, block?_eq_some.1 (block?_reconditioned hr.block_eq cs), block?_eq_some.1 hr.block_eq]
    rfl
  · rw [expr_reconditioned hvb]
    split
    · next hnew =>
      rw [expr_of_size_le hnew.1.symm.le]
      rfl
    · split
      · next happart =>
        obtain ⟨args, hargs⟩ := Expr.exists_of_isConjunction happart.2
        rw [hargs]
        rfl
      · rfl

theorem declaresVars : (g.reconditioned block cs).DeclaresVars := by
  intro p u hu
  rw [hr.declared_eq] at hu
  have hvar := hr.vars p u hu
  have hne : u ≠ block := by
    rintro rfl
    rw [block?_eq_some.1 hr.block_eq] at hvar
    cases hvar
  rw [expr_reconditioned hne, if_neg, if_neg, hvar]
  · rintro ⟨-, hconj⟩
    obtain ⟨args, hargs⟩ := Expr.exists_of_isConjunction hconj
    rw [hargs] at hvar
    cases hvar
  · rintro ⟨rfl, -⟩
    rw [expr_of_size_le le_rfl] at hvar
    cases hvar

/-- The clause stands in no slot but that of the block for it. -/
theorem parents_clause_eq (hw : b.condition = some w) (hall : ∀ p ∈ g.parents w, p = block)
    (hrest : w ∉ (Expr.block { b with condition := none }).children) : g.parents w = [block] := by
  have hone : (g.parents w).count block = 1 := by
    rw [hr.consistent.parents_count w (hr.isLive_of_condition hw), if_pos hr.live,
      children_of_block? hr.block_eq, (children_perm_of_condition hw).count_eq,
      count_append, count_eq_zero.2 hrest]
    simp
  have hreplicate := eq_replicate_of_mem hall
  rw [hreplicate, count_replicate_self] at hone
  rw [hreplicate, hone]
  rfl

/-- Nothing above the clause is reached through it. -/
theorem not_clauseOnly (hw : b.condition = some w) (hv : g.IsChild v w) :
    ¬ g.ClauseOnly block b v := by
  rintro ⟨w', hw', -, hbelow⟩
  obtain rfl : w = w' := Option.some.inj (hw.symm.trans hw')
  exact hr.consistent.acyclic w (hr.isLive_of_condition hw)
    (.tail' (hbelow.reached hr.consistent.toTallied) hv)

section
variable (hp : Pruned (g.reconditioned block cs) (g.ClauseOnly block b) h)
include hp

/-- What is gone was reached through the clause only, or it was declared there. -/
theorem isLive_of_not (hv : g.isLive v) (hnot : ¬ g.TakesApart block v)
    (honly : ¬ g.ClauseOnly block b v)
    (hdecl : ∀ d, g.ClauseOnly block b d → v ∉ (g.expr d).declared) : h.isLive v := by
  by_contra hgone
  have hk := (isLive_reconditioned_iff cs (lt_size_of_isLive hv)).2 ⟨hv, hnot⟩
  rcases hp.gone v hk (Bool.eq_false_iff.2 hgone) with h | ⟨d, hd, hvd⟩
  · exact honly h
  · exact hdecl d hd (hr.declared_eq ▸ hvd)

/-- What uses something is not declared. -/
theorem isLive_of_isChild (hv : g.isLive v) (hc : g.IsChild v c) (hnot : ¬ g.TakesApart block v)
    (honly : ¬ g.ClauseOnly block b v) : h.isLive v :=
  hr.isLive_of_not hp hv hnot honly fun d _ hd => by
    rw [IsChild, children_of_isVar (hr.vars d v hd)] at hc
    cases hc

theorem isLive_block : h.isLive block := by
  refine hr.isLive_of_not hp hr.live (not_takesApart_self hr.block_eq) ?_ fun d _ hd => ?_
  · rintro ⟨w, hw, hkind, hbelow⟩
    exact hr.not_clauseOnly hw (hr.isChild_of_condition hw) ⟨w, hw, hkind, hbelow⟩
  · have hvar := hr.vars d block hd
    rw [block?_eq_some.1 hr.block_eq] at hvar
    cases hvar

/-- What uses a node still uses it, was reached through the clause only, or is the block, which has
lost the slot of its clause. -/
theorem user_cases (hvlive : g.isLive v) (hvh : h.isLive v) (hmem : p ∈ g.parents v) :
    p ∈ h.parents v ∨ g.ClauseOnly block b p ∨
      (p = block ∧ b.condition = some v ∧ v ∉ (Expr.block { b with condition := none }).children) := by
  obtain ⟨hplive, hchild⟩ := (hr.consistent.mem_parents_iff hvlive).1 hmem
  rw [hp.tallied.mem_parents_iff hvh, hp.same.children_eq]
  by_cases hpb : p = block
  · subst hpb
    by_cases hrest : v ∈ (Expr.block { b with condition := none }).children
    · exact .inl ⟨hr.isLive_block hp, hr.block_perm.mem_iff.2 (mem_append_right _ hrest)⟩
    · refine .inr (.inr ⟨rfl, ?_, hrest⟩)
      rw [children_of_block? hr.block_eq, (children_perm_of_condition rfl).mem_iff] at hchild
      exact Option.mem_toList.1 ((mem_append.1 hchild).resolve_right hrest)
  · by_cases happart : g.TakesApart block p
    · exact .inr (.inl ⟨p, (hr.takesApart_iff.1 happart).1, .inl happart.2, .self⟩)
    · by_cases honly : g.ClauseOnly block b p
      · exact .inr (.inl honly)
      · refine .inl ⟨hr.isLive_of_isChild hp hplive hchild happart honly, ?_⟩
        rw [children, expr_reconditioned_eq hplive hpb happart]
        exact hchild

/-- What is removed with an unused conjunct was reached through the clause only. -/
theorem clauseOnly_of_garbage (hd : d ∈ g.conjuncts block) (hdh : h.isLive d)
    (hnil : h.parents d = []) (hv : h.Garbage d v) : g.ClauseOnly block b v := by
  have hg := hr.consistent
  have hdlive := hr.isLive_conjunct hd
  induction hv with
  | self =>
    have huser {p : NodeId} (hmem : p ∈ g.parents d) := hr.user_cases hp hdlive hdh hmem
    simp only [hnil, not_mem_nil, false_or] at huser
    rcases hr.conjunct_cases hd with ⟨hcond, -, -⟩ | ⟨w, hw, hchild⟩
    · -- The clause is the conjunct, and only the block used it.
      have hall {p : NodeId} (hmem : p ∈ g.parents d) :=
        (huser hmem).resolve_left (hr.not_clauseOnly hcond ((hg.mem_parents_iff hdlive).1 hmem).2)
      have hmem : block ∈ g.parents d :=
        (hg.mem_parents_iff hdlive).2 ⟨hr.live, hr.isChild_of_condition hcond⟩
      refine ⟨d, hcond, .inr ?_, .self⟩
      exact hr.parents_clause_eq hcond (fun p hmem => (hall hmem).1) (hall hmem).2.2
    · have hmem : w ∈ g.parents d :=
        (hg.mem_parents_iff hdlive).2 ⟨hr.isLive_of_takesApart hw, hchild⟩
      have hwb := (hr.takesApart_iff.1 hw).1
      refine ⟨w, hwb, .inl hw.2, .used hdlive (ne_nil_of_mem hmem) fun p hpd => ?_⟩
      rcases huser hpd with ⟨w', hw', -, hbelow⟩ | ⟨-, hcond, -⟩
      · obtain rfl : w = w' := Option.some.inj (hwb.symm.trans hw')
        exact hbelow
      · obtain rfl : w = d := Option.some.inj (hwb.symm.trans hcond)
        exact absurd hw (hr.not_takesApart_conjunct hd)
  | @used v hvh hvar hused hparents ih =>
    obtain ⟨q, hq⟩ := exists_mem_of_ne_nil _ hused
    have hreach := (hparents q hq).reached hp.tallied
    rw [hp.same.isChild_eq] at hreach
    obtain ⟨hqlive, hchildren⟩ := hr.below_conjunct hd hreach
    have hqv : v ∈ g.children q := by
      rw [← hchildren, ← hp.same.children_eq]
      exact ((hp.tallied.mem_parents_iff hvh).1 hq).2
    have hvlive := hg.children_live q hqlive v hqv
    obtain ⟨w, hw, hkind, -⟩ := ih q hq
    by_cases hvw : v = w
    · exact ⟨w, hw, hkind, hvw ▸ .self⟩
    · have hmem : q ∈ g.parents v := (hg.mem_parents_iff hvlive).2 ⟨hqlive, hqv⟩
      refine ⟨w, hw, hkind, .used hvlive (ne_nil_of_mem hmem) fun p hpv => ?_⟩
      have honly : g.ClauseOnly block b p := by
        rcases hr.user_cases hp hvlive hvh hpv with h | h | ⟨-, hcond, -⟩
        · exact ih p h
        · exact h
        · exact absurd (Option.some.inj (hcond.symm.trans hw)) hvw
      obtain ⟨w', hw', -, hbelow⟩ := honly
      rwa [Option.some.inj (hw.symm.trans hw')]

end

/-- Removing the conjuncts that are dropped leaves everything else. -/
theorem pruned :
    Pruned (g.reconditioned block cs) (g.ClauseOnly block b) (g.setConjuncts block cs) := by
  have hrun : ∀ ds ⊆ g.conjuncts block, ∀ h,
      Pruned (g.reconditioned block cs) (g.ClauseOnly block b) h →
      Pruned (g.reconditioned block cs) (g.ClauseOnly block b)
        (ds.foldl (fun h c => if cs.contains c then h else h.destroyIfUnused c) h) := by
    intro ds
    induction ds with
    | nil => exact fun _ _ hp => hp
    | cons d ds ih =>
      intro hds h hp
      refine ih (subset_of_cons_subset hds) _ ?_
      dsimp only
      split
      · exact hp
      · exact hp.destroyIfUnused hr.declaresVars
          fun hdh hnil v hv => hr.clauseOnly_of_garbage hp (hds (.head _)) hdh hnil hv
  rw [setConjuncts]
  exact hrun _ (Subset.refl _) _ (Pruned.refl hr.tallied)

/-- A slot that still holds the conjunction which was taken apart is one more slot of it. -/
theorem parents_ne_of_apart (hp : (g.reconditioned block cs).isLive p)
    (hchild : (g.reconditioned block cs).IsChild p w) (hw : g.TakesApart block w) :
    g.parents w ≠ [block] := by
  intro hparents
  have hwlive := hr.isLive_of_takesApart hw
  have hcs : w ∉ cs := fun hmem => hr.not_takesApart_conjunct (hr.sublist.subset hmem) hw
  rcases hr.child_cases hp hchild with
    ⟨hplive, hchild, hrest⟩ | ⟨-, hone | ⟨-, rfl⟩⟩ | ⟨-, -, hmem⟩
  · have hpb : p = block := by
      have := (hr.consistent.mem_parents_iff hwlive).2 ⟨hplive, hchild⟩
      rwa [hparents, mem_singleton] at this
    -- The block holds it twice.
    have hcount := hr.consistent.parents_count w hwlive block
    rw [if_pos hr.live, hparents, children_of_block? hr.block_eq,
      (children_perm_of_condition (hr.takesApart_iff.1 hw).1).count_eq, count_append] at hcount
    have hpos := count_pos_iff.2 (hrest hpb)
    simp at hcount
    omega
  · exact hcs (hone ▸ mem_singleton_self w)
  · exact (lt_size_of_isLive hwlive).false
  · exact hcs hmem

theorem isLive_apart (hv : g.TakesApart block v) : (g.setConjuncts block cs).isLive v = false :=
  Bool.eq_false_iff.2 fun hl =>
    ((isLive_reconditioned_iff cs (lt_size_of_isLive (hr.isLive_of_takesApart hv))).1
      (hr.pruned.isLive_of v hl)).2 hv

theorem consistent_iff : (g.setConjuncts block cs).Consistent ↔
    (∀ w, g.TakesApart block w → g.parents w = [block]) ∧
    ∀ d, g.isLive d → (g.setConjuncts block cs).isLive d = false → ∀ u ∈ (g.expr d).declared,
      ∀ p, (g.setConjuncts block cs).isLive p → u ∉ (g.setConjuncts block cs).children p := by
  have hp := hr.pruned
  constructor
  · intro hc
    refine ⟨fun w hw => ?_, fun d hd hdead u hu p hplive hmem => ?_⟩
    · -- A user that outlives the conjunction would use a dead node.
      have hnone {p : NodeId} (hplive : (g.setConjuncts block cs).isLive p)
          (hchild : w ∈ (g.reconditioned block cs).children p) : False := by
        have hlive := hc.children_live p hplive w (by rwa [hp.same.children_eq])
        rw [hr.isLive_apart hw] at hlive
        cases hlive
      have hwlive := hr.isLive_of_takesApart hw
      have hwb := (hr.takesApart_iff.1 hw).1
      refine hr.parents_clause_eq hwb (fun p hmem => ?_) fun hrest => ?_
      · by_contra hpb
        obtain ⟨hplive, hchild⟩ := (hr.consistent.mem_parents_iff hwlive).1 hmem
        have hnot : ¬ g.TakesApart block p := fun happart => by
          obtain rfl := hw.iff_eq.1 happart
          exact hr.consistent.acyclic p hwlive (.single hchild)
        refine hnone (hr.isLive_of_isChild hp hplive hchild hnot (hr.not_clauseOnly hwb hchild)) ?_
        rwa [children, expr_reconditioned_eq hplive hpb hnot]
      · exact hnone (hr.isLive_block hp) (hr.block_perm.mem_iff.2 (mem_append_right _ hrest))
    · by_cases happart : g.TakesApart block d
      · obtain ⟨args, hargs⟩ := Expr.exists_of_isConjunction happart.2
        rw [hargs] at hu
        cases hu
      · have hk := (isLive_reconditioned_iff cs (lt_size_of_isLive hd)).2 ⟨hd, happart⟩
        have hu' := hp.buried d hk hdead u (hr.declared_eq ▸ hu)
        rw [hc.children_live p hplive u hmem] at hu'
        cases hu'
  · rintro ⟨hshared, hused⟩
    refine ⟨hp.tallied, fun p hplive c hc => ?_, fun v hv => ?_⟩
    · have hk := hp.isLive_of p hplive
      have hchild : (g.reconditioned block cs).IsChild p c := by
        rwa [hp.same.children_eq] at hc
      have hck := (hr.isChild hk hchild).1.resolve_right fun happart =>
        hr.parents_ne_of_apart hk hchild happart (hshared c happart)
      by_contra hdead
      obtain ⟨d, hd, hddead, hcd⟩ := hp.missing p hplive c hchild hck (Bool.eq_false_iff.2 hdead)
      rw [hr.declared_eq] at hcd
      have hdlt : d < g.size := lt_size_of_expr fun hempty => by
        rw [hempty] at hcd
        cases hcd
      exact hused d ((isLive_reconditioned_iff cs hdlt).1 hd).1 hddead c hcd p hplive hc
    · rw [hp.same.isChild_eq]
      exact hr.acyclic (hp.isLive_of v hv)

end Cuts

end

/-! ## The main statement -/

/-- Rewriting the WHERE clause of a block touches what was reached through the old clause only, and
the variables that are declared there. Nothing else but the block changes, except that a conjunction
which was the old clause dies and loses its arguments whatever else uses it. The result is consistent
exactly if nothing else used such a conjunction, and if no variable is used that was declared by a
node which is gone. -/
theorem setConjuncts_frame {g : Graph} (hg : g.Consistent) (hvars : g.DeclaresVars)
    {block : NodeId} {b : Block} (hblock : g.isLive block) (hb : g.block? block = some b)
    {cs : List NodeId} (hcs : cs.Sublist (g.conjuncts block)) :
    let h := g.setConjuncts block cs
    (∀ v, g.isLive v → v ≠ block →
      (∀ w, b.condition = some w → (g.expr w).isConjunction ∨ g.parents w = [block] →
        ¬ g.OnlyBelow w v ∧ ∀ d, g.OnlyBelow w d → v ∉ (g.expr d).declared) →
      h.isLive v ∧ h.expr v = g.expr v) ∧
    (h.isLive block ∧ ∃ x, h.block? block = some { b with condition := x }) ∧
    (∀ w, b.condition = some w → (g.expr w).isConjunction →
      h.isLive w = false ∧ h.expr w = .call .and []) ∧
    (h.Tallied ∧ ∀ v, h.isLive v → ¬ Relation.TransGen h.IsChild v v) ∧
    (h.Consistent ↔
      (∀ w, b.condition = some w → (g.expr w).isConjunction → g.parents w = [block]) ∧
      ∀ d, g.isLive d → h.isLive d = false → ∀ u ∈ (g.expr d).declared,
        ∀ p, h.isLive p → u ∉ h.children p) := by
  intro h
  have hr : g.Cuts block b cs := ⟨hg, hvars, hblock, hb, hcs⟩
  have hp : Pruned (g.reconditioned block cs) (g.ClauseOnly block b) h := hr.pruned
  refine ⟨fun v hv hvb hout => ?_, ⟨hr.isLive_block hp, _, block?_setConjuncts hb cs⟩,
    fun w hw hconj => ?_, ⟨hp.tallied, fun v hv => ?_⟩, ?_⟩
  · have hnot : ¬ g.TakesApart block v := fun happart =>
      (hout v (hr.takesApart_iff.1 happart).1 (.inl happart.2)).1 .self
    refine ⟨hr.isLive_of_not hp hv hnot ?_ ?_, ?_⟩
    · rintro ⟨w, hw, hkind, hbelow⟩
      exact (hout w hw hkind).1 hbelow
    · rintro d ⟨w, hw, hkind, hbelow⟩
      exact (hout w hw hkind).2 d hbelow
    · rw [hp.same.expr_eq, expr_reconditioned_eq hv hvb hnot]
  · have happart := hr.takesApart_iff.2 ⟨hw, hconj⟩
    exact ⟨hr.isLive_apart happart, by rw [hp.same.expr_eq, hr.expr_apart happart]⟩
  · rw [hp.same.isChild_eq]
    exact hr.acyclic (hp.isLive_of v hv)
  · refine hr.consistent_iff.trans (and_congr_left' (forall_congr' fun w => ?_))
    rw [hr.takesApart_iff, and_imp]

theorem not_onlyBelow_of_unused {id : NodeId} (hne : v ≠ id) (hnil : g.parents v = []) :
    ¬ g.OnlyBelow id v := by
  intro h
  cases h with
  | self => exact hne rfl
  | used _ hused => exact hused hnil

/-- A block over a constant `c` that selects a negation, with the WHERE clause `c AND d`. -/
def selectsNegation (d : Expr) (negated : NodeId) : Graph :=
  let (c, g) := ({} : Graph).addLiteral (.boolean true)
  let (d, g) := g.add d
  let (w, g) := g.addCall .and [c, d]
  let (n, g) := g.addCall .not [negated]
  let (u, g) := g.addVar "$u" .row
  let (q, g) := g.addDeclaring
    (.block { entries := [⟨c, u⟩], condition := some w, select := [⟨"n", n⟩] }) none
  g.setRoot q

/-- A block over a constant `c` that selects `NOT c`, with the WHERE clause `c AND NOT c`. -/
def twoNegations : Graph := selectsNegation (.call .not [0]) 0

/-- The second conjunct is dropped, and the select field stays. -/
theorem setConjuncts_frame_twoNegations :
    twoNegations.Consistent ∧ twoNegations.DeclaresVars ∧
      (twoNegations.setConjuncts 5 [0]).Consistent ∧ (twoNegations.setConjuncts 5 [0]).isLive 3 ∧
      (twoNegations.setConjuncts 5 [0]).expr 3 = twoNegations.expr 3 := by
  have hg : twoNegations.Consistent := consistent_of_lt (by decide +kernel) (by decide +kernel)
    (by decide +kernel) (by decide +kernel)
  have hvars : twoNegations.DeclaresVars := declaresVars_of_lt (by decide +kernel)
  have hb : twoNegations.block? 5 = some
      { entries := [⟨0, 4⟩], condition := some 2, select := [⟨"n", 3⟩] } := rfl
  obtain ⟨hframe, -, -, -, hconsistent⟩ := setConjuncts_frame hg hvars
    (by decide +kernel : twoNegations.isLive 5) hb
    (by decide +kernel : [0].Sublist (twoNegations.conjuncts 5))
  refine ⟨hg, hvars, hconsistent.2 ⟨fun w hw _ => ?_, fun d hd hdead u hu => ?_⟩,
    hframe 3 (by decide +kernel) (by decide) fun w hw _ => ⟨fun hbelow => ?_, fun d _ hd => ?_⟩⟩
  · cases hw
    decide +kernel
  · have hnone : ∀ d < 6, (twoNegations.setConjuncts 5 [0]).isLive d = false →
        (twoNegations.expr d).declared = [] := by decide +kernel
    rw [hnone d (lt_size_of_isLive hd) hdead] at hu
    cases hu
  · cases hw
    cases hbelow with
    | used _ _ hparents =>
      exact not_onlyBelow_of_unused (by decide) (by decide +kernel)
        (hparents 5 (by decide +kernel))
  · exact absurd (hvars d 3 hd) (by decide +kernel)

/-- A block that selects the negation of its WHERE clause, a conjunction. -/
def negatedClause : Graph := selectsNegation (.literal (.boolean false)) 2

/-- The conjunction dies and loses its arguments, although the negation uses it. -/
theorem setConjuncts_shared_dies :
    negatedClause.Consistent ∧ negatedClause.isLive 5 ∧ [0].Sublist (negatedClause.conjuncts 5) ∧
      (negatedClause.setConjuncts 5 [0]).isLive 3 ∧
      (negatedClause.setConjuncts 5 [0]).children 3 = [2] ∧
      (negatedClause.setConjuncts 5 [0]).isLive 2 = false ∧
      negatedClause.children 2 = [0, 1] ∧ (negatedClause.setConjuncts 5 [0]).children 2 = [] ∧
      ¬ (negatedClause.setConjuncts 5 [0]).Consistent := by
  have hg : negatedClause.Consistent := consistent_of_lt (by decide +kernel) (by decide +kernel)
    (by decide +kernel) (by decide +kernel)
  have hlive : (negatedClause.setConjuncts 5 [0]).isLive 3 := by decide +kernel
  have hchildren : (negatedClause.setConjuncts 5 [0]).children 3 = [2] := by decide +kernel
  have hdead : (negatedClause.setConjuncts 5 [0]).isLive 2 = false := by decide +kernel
  refine ⟨hg, by decide +kernel, by decide +kernel, hlive, hchildren, hdead, by decide +kernel,
    by decide +kernel, fun hc => ?_⟩
  have := hc.children_live 3 hlive 2 (by rw [hchildren]; exact mem_singleton_self 2)
  rw [hdead] at this
  cases this

end ShardedQuery.Graph
