import ShardedQuery.Proofs.Graph.Dissolve
import ShardedQuery.Proofs.Graph.WellTyped

/-!
# Changing the clauses of a block

Choosing an access path changes the WHERE clause of a block, its order and its FROM entries, but not
what it selects. `Graph.EditsClauses` says what such edits do to expressions, and that is all that
types depend on: they stay settled. What is left to show for an edit is that parent lists stay in
order.
-/

namespace ShardedQuery.Graph

open List

variable {block c u v : NodeId} {g h : Graph} {cs : List NodeId} {S : NodeId → Prop} {b : Block}

/-! ## Expressions -/

/-- `h` comes from `g` by edits of the clauses of one block, which loses the FROM variables of
`gone`. Old conjunctions may be taken apart, and new ones are over the conjuncts of the block. -/
structure EditsClauses (block : NodeId) (gone : NodeId → Prop) (g h : Graph) (b b' : Block) : Prop where
  size_le : g.size ≤ h.size
  before : g.block? block = some b
  after : h.block? block = some b'
  star_eq : b'.star = b.star
  select_eq : b'.select = b.select
  head_eq : b'.entries.head? = b.entries.head?
  expr : ∀ v, v < g.size → v ≠ block →
    h.expr v = g.expr v ∨ ((g.expr v).isConjunction ∧ h.expr v = .call .and [])
  type_eq : ∀ v, v < g.size → h.type? v = g.type? v
  live : ∀ v, v < g.size → h.isLive v → g.isLive v
  fresh : ∀ v, g.size ≤ v → v < h.size → h.type? v = none ∧
    ∃ cs, h.expr v = .call .and cs ∧ ∀ c ∈ cs, c ∈ g.conjuncts block
  entries : ∀ u, ¬ gone u → b'.entries.find? (·.var == u) = b.entries.find? (·.var == u)
  entries_sub : b'.entries.Sublist b.entries
  vars : ∀ e ∈ b'.entries, ¬ gone e.var
  gone : ∀ u, gone u → h.isLive u = false ∧ b.firstVar? ≠ some u ∧
    ∃ x, g.expr u = .var x ∧ ∀ p ∈ x.decl, p = block
  mem_children : ∀ c ∈ (Expr.block b').children,
    c ∈ (Expr.block b).children ∨ c ∈ g.conjuncts block ∨ (g.size ≤ c ∧ c < h.size)

section
variable {b' : Block} {gone : NodeId → Prop} (he : EditsClauses block gone g h b b')
include he

theorem EditsClauses.reforms : Reforms gone g h := by
  refine ⟨he.size_le, fun v hv => ?_, fun v hge hlt => ?_⟩
  · by_cases hb : v = block
    · rw [hb, block?_eq_some.1 he.before, block?_eq_some.1 he.after]
      exact .block (fun hstar => he.star_eq ▸ hstar) he.head_eq he.entries_sub he.entries
    · rcases he.expr v hv hb with h | ⟨hconj, h⟩
      · exact h ▸ .refl _
      · obtain ⟨args, hargs⟩ := Expr.exists_of_isConjunction hconj
        rw [h, hargs]
        exact .conjunction args
  · obtain ⟨-, cs, hexpr, -⟩ := he.fresh v hge hlt
    rw [hexpr]
    exact ⟨rfl, fun x hx => (by cases hx), fun b hb => (by cases hb)⟩

variable (hg : g.Sound)
include hg

/-- No typing rule changes. -/
theorem EditsClauses.sameRule (hv : v < g.size) (hgone : ¬ gone v)
    (hconst : g.constantType? v = none) : SameRule g h v := by
  refine he.reforms.sameRule hv hgone hg.toScoped (fun args hargs => ?_) fun c c' hc hc' => ?_
  · rw [constantType?, hargs] at hconst
    cases hconst
  · by_cases hb : v = block
    · rw [hb, block?_eq_some.1 he.before] at hc
      rw [hb, block?_eq_some.1 he.after] at hc'
      cases hc
      cases hc'
      exact ⟨he.star_eq, he.select_eq⟩
    · rcases he.expr v hv hb with h | ⟨-, h⟩
      · rw [h, hc] at hc'
        cases hc'
        exact ⟨rfl, rfl⟩
      · rw [h] at hc'
        cases hc'

omit hg in
/-- A variable that is lost has no source any more. -/
theorem EditsClauses.varSource?_gone (hgone : gone v) : h.varSource? v = none := by
  obtain ⟨-, -, x, hx, hdecl⟩ := he.gone v hgone
  have hx' := (he.reforms.expr v (lt_size_of_var hx)).eq_var.2 hx
  have hnone : b'.entries.find? (·.var == v) = none := by
    rw [find?_eq_none]
    intro e hmem heq
    exact he.vars e hmem (by rwa [eq_of_beq heq])
  cases hp : x.decl with
  | none =>
    have hdomain : h.domain? v = none := by simp [domain?, var?, hx', hp]
    rw [varSource?, var?_eq_some.2 hx']
    simp only [hp, Option.bind_none, hdomain]
    cases x.kind <;> rfl
  | some p =>
    obtain rfl := hdecl p hp
    have hdomain : h.domain? v = none := by
      rw [domain?_of_decl hx' hp, he.after, Option.bind_some, hnone]
      rfl
    rw [varSource?, var?_eq_some.2 hx']
    simp only [hp, Option.bind_some, block?_eq_some.1 he.after, hdomain]
    cases x.kind <;> rfl

omit hg in
theorem EditsClauses.constantType?_gone (hgone : gone v) : h.constantType? v = none := by
  obtain ⟨-, -, x, hx, -⟩ := he.gone v hgone
  have hx' := (he.reforms.expr v (lt_size_of_var hx)).eq_var.2 hx
  have hsource := he.varSource?_gone hgone
  rw [varSource?, var?_eq_some.2 hx'] at hsource
  rw [constantType?, hx']
  cases hk : x.kind with
  | row =>
    simp only [hk] at hsource ⊢
    rw [hsource]
    rfl
  | _ => simp only [hk]

omit he hg in
/-- A conjunct stands in the WHERE slot of its block, or in a slot of the conjunction there. -/
theorem exists_of_mem_conjuncts (hc : c ∈ g.conjuncts block) :
    ∃ old, (g.expr block).isScan = false ∧ old ∈ g.children block ∧
      (c = old ∨ ((g.expr old).isScan = false ∧ c ∈ g.children old)) := by
  rw [conjuncts_eq_parts] at hc
  cases hcond : (g.block? block).bind (·.condition) with
  | none =>
    rw [hcond] at hc
    cases hc
  | some old =>
    rw [hcond] at hc
    obtain ⟨b, hb, hold⟩ := Option.bind_eq_some_iff.1 hcond
    refine ⟨old, isScan_of_block? hb, by simp [children_of_block? hb, Expr.children, hold], ?_⟩
    simp only [Option.elim_some, parts] at hc
    split at hc
    · next args hargs => exact .inr ⟨by rw [hargs]; rfl, by rw [children, hargs]; exact hc⟩
    · exact .inl (mem_singleton.1 hc)

omit he hg in
theorem Ordered.rank_conjunct {rank : NodeId → Nat} (ho : g.Ordered rank)
    (hc : c ∈ g.conjuncts block) : rank c < rank block ∧ c < g.size := by
  obtain ⟨old, hscan, hold, hc⟩ := exists_of_mem_conjuncts hc
  have huse := mem_uses_of_child hscan hold
  rcases hc with rfl | ⟨hscan, hc⟩
  · exact ⟨ho.rank_lt _ _ huse, ho.mem _ _ huse⟩
  · have hmem := mem_uses_of_child hscan hc
    exact ⟨(ho.rank_lt _ _ hmem).trans (ho.rank_lt _ _ huse), ho.mem _ _ hmem⟩

/-- What a node uses it used before, or it is the block and uses a new conjunction or a conjunct, or it
is a new conjunction. -/
theorem EditsClauses.mem_uses (hu : u ∈ h.uses v) :
    u ∈ g.uses v ∨ (v = block ∧ (u ∈ g.conjuncts block ∨ (g.size ≤ u ∧ u < h.size))) ∨
      (g.size ≤ v ∧ u ∈ g.conjuncts block) := by
  rcases Nat.lt_or_ge v g.size with hv | hv
  · by_cases hb : v = block
    · have hexpr := block?_eq_some.1 he.after
      have hexpr' := block?_eq_some.1 he.before
      rw [hb, uses, children, hexpr, varSource?, var?, hexpr] at hu
      rw [hb, uses, children, hexpr', varSource?, var?, hexpr']
      simp only [Expr.isScan, Bool.false_eq_true, if_false, Option.toList_none, append_nil,
        mem_append] at hu ⊢
      rcases hu with hu | hu
      · rcases he.mem_children u hu with hu | hu
        · exact .inl (.inl hu)
        · exact .inr (.inl ⟨trivial, hu⟩)
      · exact .inl (.inr ((he.entries_sub.map _).subset hu))
    · left
      rw [uses, mem_append] at hu ⊢
      rcases hu with hu | hu
      · left
        rcases he.expr v hv hb with hexpr | ⟨-, hexpr⟩
        · rw [children, hexpr] at hu
          exact hu
        · rw [children, hexpr] at hu
          simp [Expr.isScan, Expr.children, Expr.declared, Expr.context] at hu
      · right
        by_cases hgone : gone v
        · rw [he.varSource?_gone hgone] at hu
          cases hu
        · rwa [he.reforms.varSource?_eq hv hgone hg.toScoped] at hu
  · have hlt := lt_size_of_mem_uses hu
    obtain ⟨-, cs, hexpr, hcs⟩ := he.fresh v hv hlt
    have hu := (he.reforms.fresh v hv hlt).mem_children hu
    rw [children, hexpr] at hu
    exact .inr (.inr ⟨hv, hcs u hu⟩)

/-- New conjunctions rank right below the block. -/
theorem EditsClauses.exists_ordered : ∃ rank, h.Ordered rank := by
  obtain ⟨rank, ho⟩ := hg.ordered
  obtain ⟨rank', ho', -⟩ := ho.exists_below (lt_size_of_block? he.before) he.size_le fun v u hu => by
    rcases he.mem_uses hg hu with hu | ⟨hv, hu | hu⟩ | ⟨hv, hu⟩
    · exact .inl hu
    · exact .inr (.inr ⟨.inl hv, ho.rank_conjunct hu⟩)
    · exact .inr (.inl ⟨hv, hu⟩)
    · exact .inr (.inr ⟨.inr hv, ho.rank_conjunct hu⟩)
  exact ⟨rank', ho'⟩

/-! ## Types -/

omit he hg in
theorem Maintained.conjunct {work : List NodeId} (hm : g.Maintained S work) (hblock : S block)
    (hc : c ∈ g.conjuncts block) : S c := by
  obtain ⟨old, -, hold, hc⟩ := exists_of_mem_conjuncts hc
  have hS := hm.closed block hblock old (.inl hold)
  rcases hc with rfl | ⟨-, hc⟩
  · exact hS
  · exact hm.closed old hS c (.inl hc)

/-- What stands in the slots of an old node, or what it reads. -/
theorem EditsClauses.mem_slots (hv : v < g.size) (hu : u ∈ h.children v ∨ u ∈ h.reads v) :
    (u ∈ g.children v ∨ u ∈ g.reads v) ∨ u ∈ g.conjuncts block ∨ (g.size ≤ u ∧ u < h.size) := by
  by_cases hb : v = block
  · subst hb
    rcases hu with hu | hu
    · rw [children, block?_eq_some.1 he.after] at hu
      rw [children, block?_eq_some.1 he.before]
      exact (he.mem_children u hu).imp_left .inl
    · have hnone : g.constantType? v = none := by rw [constantType?, block?_eq_some.1 he.before]
      have hgone : ¬ gone v := fun hgone => by
        obtain ⟨-, -, x, hx, -⟩ := he.gone v hgone
        rw [block?_eq_some.1 he.before] at hx
        cases hx
      rw [(he.sameRule hg hv hgone hnone).reads_eq] at hu
      exact .inl (.inr hu)
  · rcases he.expr v hv hb with hexpr | ⟨-, hexpr⟩
    · rcases hu with hu | hu
      · rw [children, hexpr] at hu
        exact .inl (.inl hu)
      · by_cases hgone : gone v
        · obtain ⟨-, -, x, hx, -⟩ := he.gone v hgone
          rw [reads, hexpr, hx, he.varSource?_gone hgone] at hu
          cases hu
        · rw [(SameRule.of_expr_eq hexpr fun _ =>
            he.reforms.varSource?_eq hv hgone hg.toScoped).reads_eq] at hu
          exact .inl (.inr hu)
    · rw [children, reads, hexpr] at hu
      exact absurd hu (by simp [Expr.children])

omit hg in
/-- Edits of the clauses of a block disturb no types. -/
theorem EditsClauses.wellTyped (hw : g.WellTyped S) (hblock : S block) (hlinked : h.Linked)
    (hscoped : h.Scoped) : h.WellTyped (grown S g h) := by
  have hg := hw.toSound
  refine hw.edit he.reforms { hlinked, hscoped with ordered := he.exists_ordered hg } he.type_eq
    he.live (fun v hge hlt => ?_) (fun v hv hgone => he.sameRule hg hv hgone) (fun v hgone => ?_)
    fun v hv u hu => ?_
  · obtain ⟨htype, cs, hexpr, -⟩ := he.fresh v hge hlt
    refine ⟨htype, ?_, fun x hx => ?_⟩
    · rw [constantType?, hexpr]
      simp [Function.isBoolean]
    · rw [hexpr] at hx
      cases hx
  · obtain ⟨hdead, hfirst, x, hx, hdecl⟩ := he.gone v hgone
    refine ⟨hdead, he.constantType?_gone hgone, fun hS => ?_⟩
    refine (hw.known v hS).resolve_right fun hfixed => hfirst ?_
    obtain ⟨p, c, hp, hc, hfirst⟩ := hfixed.2 x hx
    rw [hdecl p hp, he.before, Option.some.injEq] at hc
    rw [hc]
    exact hfirst
  · rcases hv with hv | ⟨hge, hlt⟩
    · rcases he.mem_slots hg (hw.inside v hv) hu with hu | hu | hu
      · exact .inl (hw.closed v hv u hu)
      · exact .inl (hw.conjunct hblock hu)
      · exact .inr hu
    · obtain ⟨-, cs, hexpr, hcs⟩ := he.fresh v hge hlt
      rw [children, reads, hexpr] at hu
      exact .inl (hw.conjunct hblock (hcs u (hu.elim id id)))

end

/-! ## Links -/

section
variable {p : NodeId}

/-- The node itself may change, if it stays one that has slots. -/
theorem LinkedAs.modifyExpr (hg : g.LinkedAs p cs) {f : Expr → Expr}
    (hf : (f (g.expr p)).isLeaf = false) : (g.modifyExpr p f).LinkedAs p cs := by
  refine hg.of_same (size_modify ..) (fun v hv => isLive_modifyExpr p f ▸ hv)
    (fun v q hq => parents_modifyExpr p f ▸ hq) (fun c q _ _ => by rw [parents_modifyExpr])
    (fun q hlt hq => ?_) fun q hqp _ hscan => ?_
  · by_cases hqp : q = p
    · subst hqp
      rwa [expr_modifyExpr, if_pos ⟨rfl, hlt⟩]
    · rwa [expr_modifyExpr, if_neg fun h => hqp h.1]
  · have hexpr : (g.modifyExpr p f).expr q = g.expr q := by
      rw [expr_modifyExpr, if_neg fun h => hqp h.1]
    rw [hexpr] at hscan
    exact ⟨hscan, by rw [children, hexpr, children]⟩

theorem LinkedAs.unlink (hg : g.LinkedAs p (c :: cs)) : (g.unlink p c).LinkedAs p cs := by
  have hexpr (v : NodeId) := (SameExprs.unlink g p c).expr_eq v
  have hmem {v q : NodeId} (hq : q ∈ (g.unlink p c).parents v) : q ∈ g.parents v := by
    rw [parents_unlink] at hq
    split at hq
    · exact mem_of_mem_withoutOne hq
    · exact hq
  refine ⟨fun v q hq => ?_, fun v q hq => ?_, fun q hqp hq hscan v hv => ?_, fun hp v hv => ?_⟩
  · rw [size_unlink]
    exact hg.parents_lt v q (hmem hq)
  · rw [hexpr]
    exact hg.parents_inner v q (hmem hq)
  · rw [isLive_unlink] at hq hv
    rw [hexpr] at hscan
    have hcount : ((g.unlink p c).parents v).count q = (g.parents v).count q := by
      rw [parents_unlink]
      split
      · rw [count_withoutOne, if_neg (Ne.symm hqp), Nat.sub_zero]
      · rfl
    rw [children, hexpr, hcount]
    exact hg.slots q hqp hq hscan v hv
  · rw [isLive_unlink] at hp hv
    have hold := hg.claimed hp v hv
    rw [count_cons] at hold
    rw [parents_unlink]
    by_cases hvc : v = c
    · subst hvc
      simp only [beq_self_eq_true, if_true] at hold
      rw [if_pos ⟨rfl, lt_size_of_isLive hv⟩, count_withoutOne, if_pos rfl]
      omega
    · rw [if_neg fun h => hvc h.1]
      omega

theorem mem_parents_link {q : NodeId} (hq : q ∈ (g.link p c).parents v) :
    q ∈ g.parents v ∨ q = p := by
  rw [parents_link] at hq
  split at hq
  · simpa using hq
  · exact .inl hq

theorem count_le_parents_link (v q c : NodeId) :
    (g.parents v).count q ≤ ((g.link p c).parents v).count q := by
  rw [parents_link]
  split
  · rw [count_append]
    exact Nat.le_add_right _ _
  · exact le_rfl

theorem LinkedAs.link (hg : g.LinkedAs p cs) (hp : p < g.size) (hleaf : (g.expr p).isLeaf = false) :
    (g.link p c).LinkedAs p (c :: cs) := by
  have hexpr (v : NodeId) := (SameExprs.link g p c).expr_eq v
  refine ⟨fun v q hq => ?_, fun v q hq => ?_, fun q hqp hq hscan v hv => ?_, fun hlive v hv => ?_⟩
  · rw [size_link]
    rcases mem_parents_link hq with hq | rfl
    · exact hg.parents_lt v q hq
    · exact hp
  · rw [hexpr]
    rcases mem_parents_link hq with hq | rfl
    · exact hg.parents_inner v q hq
    · exact hleaf
  · rw [isLive_link] at hq hv
    rw [hexpr] at hscan
    have hold := hg.slots q hqp hq hscan v hv
    rw [children, hexpr]
    exact hold.trans (count_le_parents_link v q c)
  · rw [isLive_link] at hlive hv
    have hold := hg.claimed hlive v hv
    rw [count_parents_link p c (lt_size_of_isLive hv), count_cons, count_singleton]
    omega

/-- A slot may be recorded more often than it is there. -/
theorem Linked.link (hg : g.Linked) (hp : p < g.size) (hleaf : (g.expr p).isLeaf = false) :
    (g.link p c).Linked := by
  have hs := SameExprs.link g p c
  cases hscan : (g.expr p).isScan with
  | true =>
    have hall : g.LinkedAs p [] := ⟨hg.parents_lt, hg.parents_inner, fun q _ => hg.slots q,
      fun _ c _ => by simp⟩
    exact (hall.link hp hleaf).linked fun h => by simp [hs.expr_eq, hscan] at h
  | false =>
    refine ((hg.linkedAs hscan).link hp hleaf).linked fun _ d => ?_
    rw [hs.children_eq, count_cons]
    exact Nat.le_add_right _ _

end

/-! ## Declarations -/

theorem WellTyped.relink (hw : g.WellTyped S) (hs : SameExprs g h)
    (htype : ∀ v, h.type? v = g.type? v) (hlive : ∀ v, h.isLive v = g.isLive v)
    (hlinked : h.Linked) : h.WellTyped S := by
  obtain ⟨rank, ho⟩ := hw.ordered
  exact hw.sameExprs hs htype (fun v hv => hlive v ▸ hv)
    { hlinked, hw.toScoped.sameExprs hs hlive with ordered := ⟨rank, hs.ordered ho⟩ }

section
variable {f : Block → Block}

theorem scan?_modifyBlock (hb : g.block? block = some b) (v : NodeId) :
    (g.modifyBlock block f).scan? v = g.scan? v := by
  by_cases hv : v = block
  · rw [hv, scan?, scan?, block?_eq_some.1 (block?_modifyBlock hb f), block?_eq_some.1 hb]
  · rw [scan?, expr_modifyBlock_of_ne hv, scan?]

theorem LinkedAs.modifyBlock (hg : g.LinkedAs block cs) (hb : g.block? block = some b) :
    (g.modifyBlock block f).LinkedAs block cs :=
  LinkedAs.modifyExpr hg (by rw [block?_eq_some.1 hb]; rfl)

theorem LinkedAs.linked_modifyBlock (hg : g.LinkedAs block cs) (hb : g.block? block = some b)
    (hcs : ∀ c, (Expr.block (f b)).children.count c ≤ cs.count c) :
    (g.modifyBlock block f).Linked := by
  refine (hg.modifyBlock hb).linked fun _ c => ?_
  rw [children_of_block? (block?_modifyBlock hb f)]
  exact hcs c

end

end ShardedQuery.Graph
