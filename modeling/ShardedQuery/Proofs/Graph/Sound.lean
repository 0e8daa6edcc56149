import ShardedQuery.Proofs.Graph.Settled

/-!
# Sound graphs

What every stage of a compilation relies on and keeps: nodes can be ranked so that each ranks above
the nodes it uses, living nodes are known to the living nodes in their slots, and variables and the
nodes that declare them agree. In a sound graph a refresh reaches all nodes that depend on the
refreshed one.
-/

namespace ShardedQuery

open List

variable {g h : Graph} {p w u v : NodeId} {b : Block} {e : FromEntry} {ids : List NodeId}
  {S : NodeId → Prop}

/-- Nodes that have no slots. -/
def Expr.isLeaf : Expr → Bool
  | .var _ | .literal _ => true
  | _ => false

namespace Graph

/-- Parent lists are in order. -/
structure Linked (g : Graph) : Prop where
  parents_lt : ∀ v, ∀ p ∈ g.parents v, p < g.size
  /-- What has no slots is nobody's parent. -/
  parents_inner : ∀ v, ∀ p ∈ g.parents v, (g.expr p).isLeaf = false
  /-- Scans apart, living nodes are known to the nodes in their slots. -/
  slots : ∀ p, g.isLive p → (g.expr p).isScan = false → g.RecordsSlots p

/-- Parent lists are in order, where the slots of one node are taken to be `cs`. In the course of an
edit these may be other slots than it has. -/
structure LinkedAs (g : Graph) (p : NodeId) (cs : List NodeId) : Prop where
  parents_lt : ∀ v, ∀ q ∈ g.parents v, q < g.size
  parents_inner : ∀ v, ∀ q ∈ g.parents v, (g.expr q).isLeaf = false
  slots : ∀ q, q ≠ p → g.isLive q → (g.expr q).isScan = false → g.RecordsSlots q
  claimed : g.isLive p → ∀ c, g.isLive c → cs.count c ≤ (g.parents c).count p

/-- Declarations are of variables, and blocks that scan a table declare its rows. -/
structure Declares (g : Graph) : Prop where
  /-- Declared nodes are variables that name no other declaration. -/
  declared : ∀ p, ∀ u ∈ (g.expr p).declared, ∃ x, g.expr u = .var x ∧
    (x.decl = none ∨ x.decl = some p)
  declared_nodup : ∀ p, (g.expr p).declared.Nodup
  decl_lt : ∀ u x, g.expr u = .var x → ∀ p ∈ x.decl, p < g.size
  /-- A block that selects the items of its first variable scans a table, -/
  starred : ∀ v b, g.block? v = some b → b.star → ∃ e s, b.entries.head? = some e ∧
    g.scan? e.domain = some s
  /-- and the first variable of a block that scans a table stands for its rows. -/
  scanned : ∀ v b e s, g.block? v = some b → b.entries.head? = some e →
    g.scan? e.domain = some s → ∃ x, g.expr e.var = .var x ∧ x.kind = .row ∧ x.decl = some v

/-- The declaration of a living variable lives and declares it, but for the variables of `E`. -/
def DeclaresBut (g : Graph) (E : NodeId → Prop) : Prop :=
  ∀ u x, g.isLive u → ¬ E u → g.expr u = .var x → ∀ p ∈ x.decl,
    g.isLive p ∧ u ∈ (g.expr p).declared

/-- Variables and the nodes that declare them agree. -/
structure Scoped (g : Graph) : Prop extends g.Declares where
  decl : ∀ u x, g.isLive u → g.expr u = .var x → ∀ p ∈ x.decl,
    g.isLive p ∧ u ∈ (g.expr p).declared

/-- Variables and the nodes that declare them agree, but that the variables of `E` may live on without
their declarations. -/
structure ScopedBut (g : Graph) (E : NodeId → Prop) : Prop extends g.Declares where
  decl : g.DeclaresBut E

/-- Nodes can be ranked, and links and declarations are in order. -/
structure Sound (g : Graph) : Prop extends g.Linked, g.Scoped where
  ordered : ∃ rank, g.Ordered rank

section
variable {cs : List NodeId}

theorem Linked.linkedAs (hg : g.Linked) (hp : (g.expr p).isScan = false) :
    g.LinkedAs p (g.children p) :=
  ⟨hg.parents_lt, hg.parents_inner, fun q _ hq => hg.slots q hq, fun hlive => hg.slots p hlive hp⟩

theorem Linked.linkedAs_block {block : NodeId} (hg : g.Linked) (hb : g.block? block = some b) :
    g.LinkedAs block (Expr.block b).children :=
  children_of_block? hb ▸ hg.linkedAs (isScan_of_block? hb)

/-- The slots of scans do not count. -/
theorem LinkedAs.linked (hg : g.LinkedAs p cs)
    (hcs : (g.expr p).isScan = false → ∀ c, (g.children p).count c ≤ cs.count c) : g.Linked := by
  refine ⟨hg.parents_lt, hg.parents_inner, fun q hq hscan c hc => ?_⟩
  by_cases hqp : q = p
  · subst hqp
    exact (hcs hscan c).trans (hg.claimed hq c hc)
  · exact hg.slots q hqp hq hscan c hc

theorem LinkedAs.mono {cs' : List NodeId} (hg : g.LinkedAs p cs)
    (hcs : ∀ c, cs'.count c ≤ cs.count c) : g.LinkedAs p cs' :=
  ⟨hg.parents_lt, hg.parents_inner, hg.slots,
    fun hp c hc => (hcs c).trans (hg.claimed hp c hc)⟩

/-- No slots are claimed for a node that is not there. -/
theorem linked_iff_linkedAs (hp : g.size ≤ p) : g.Linked ↔ g.LinkedAs p [] := by
  have hnil : g.children p = [] := by
    rw [children, expr_of_size_le hp]
    rfl
  refine ⟨fun hg => hnil ▸ hg.linkedAs (by rw [expr_of_size_le hp]; rfl), fun hg => hg.linked ?_⟩
  exact fun _ c => by simp [hnil]

section
variable (hsize : h.size = g.size) (hlive : ∀ v, h.isLive v → g.isLive v)
  (hmem : ∀ v, ∀ q ∈ h.parents v, q ∈ g.parents v)
  (hcount : ∀ c q, h.isLive c → h.isLive q → (h.parents c).count q = (g.parents c).count q)
  (hleaf : ∀ q, q < g.size → (g.expr q).isLeaf = false → (h.expr q).isLeaf = false)
include hsize hlive hmem hcount hleaf

/-- Parent lists stay in order where nodes may die but else keep their parents, and have the slots
they had. -/
theorem LinkedAs.of_same (hg : g.LinkedAs p cs)
    (hslots : ∀ q, q ≠ p → h.isLive q → (h.expr q).isScan = false →
      (g.expr q).isScan = false ∧ h.children q = g.children q) : h.LinkedAs p cs := by
  refine ⟨fun v q hq => ?_, fun v q hq => ?_, fun q hqp hq hscan c hc => ?_, fun hp c hc => ?_⟩
  · exact hsize ▸ hg.parents_lt v q (hmem v q hq)
  · have hq := hmem v q hq
    exact hleaf q (hg.parents_lt v q hq) (hg.parents_inner v q hq)
  · obtain ⟨hscan, hchildren⟩ := hslots q hqp hq hscan
    rw [hchildren, hcount c q hc hq]
    exact hg.slots q hqp (hlive q hq) hscan c (hlive c hc)
  · rw [hcount c p hc hp]
    exact hg.claimed (hlive p hp) c (hlive c hc)

theorem Linked.of_same (hg : g.Linked) (hslots : ∀ q, h.isLive q → (h.expr q).isScan = false →
    (g.expr q).isScan = false ∧ h.children q = g.children q) : h.Linked :=
  (linked_iff_linkedAs hsize.le).2 (.of_same hsize hlive hmem hcount hleaf
    ((linked_iff_linkedAs le_rfl).1 hg) fun q _ => hslots q)

end

end

section
variable {E : NodeId → Prop}

theorem Scoped.declaresBut (hg : g.Scoped) : g.DeclaresBut E :=
  fun u x hu _ hx p hp => hg.decl u x hu hx p hp

theorem Scoped.but (hg : g.Scoped) (E : NodeId → Prop) : g.ScopedBut E :=
  ⟨hg.toDeclares, hg.declaresBut⟩

/-- No variable of `E` is alive. -/
theorem ScopedBut.scoped (hg : g.ScopedBut E) (hE : ∀ u, E u → g.isLive u = false) : g.Scoped := by
  refine ⟨hg.toDeclares, fun u x hu hx p hp => ?_⟩
  refine hg.decl u x hu (fun hmem => ?_) hx p hp
  rw [hE u hmem] at hu
  cases hu

/-- Declarations stay in order if variables stay the same, and if blocks may lose FROM entries after
the first. New nodes declare only variables that nothing else declares. -/
theorem ScopedBut.of_same (hg : g.ScopedBut E) (hsize : g.size ≤ h.size)
    (hvar : ∀ v, v < g.size → ∀ x, h.expr v = .var x ↔ g.expr v = .var x)
    (hdeclared : ∀ v, v < g.size → (h.expr v).declared.Sublist (g.expr v).declared)
    (hscan : ∀ v s, g.scan? v = some s → ∃ s', h.scan? v = some s')
    (hblock : ∀ v, v < g.size → ∀ b', h.block? v = some b' → ∃ b, g.block? v = some b ∧
      (b'.star → b.star) ∧ (∀ e s, b.entries.head? = some e → g.scan? e.domain = some s →
        b'.entries.head? = some e) ∧
      ∀ e s', b'.entries.head? = some e → h.scan? e.domain = some s' →
        b.entries.head? = some e ∧ ∃ s, g.scan? e.domain = some s)
    (hnew : ∀ v, g.size ≤ v → v < h.size → (h.expr v).declared.Nodup ∧
      (∀ u ∈ (h.expr v).declared, ∃ x, h.expr u = .var x ∧ x.decl = none) ∧
      (∀ x, h.expr v = .var x → x.decl = none) ∧ ∀ b, h.block? v = some b → b.star = false ∧
        ∀ e ∈ b.entries.head?, h.scan? e.domain = none)
    (hdecl : h.DeclaresBut E) : h.ScopedBut E := by
  refine
    { declared := fun p u hu => ?_
      declared_nodup := fun p => ?_
      decl_lt := fun u x hx p hp => ?_
      decl := hdecl
      starred := fun v b' hb hs => ?_
      scanned := fun v b' e s' hb he hs => ?_ }
  · rcases Nat.lt_or_ge p g.size with hp | hp
    · obtain ⟨x, hx, hdecl⟩ := hg.declared p u ((hdeclared p hp).subset hu)
      exact ⟨x, (hvar u (lt_size_of_var hx) x).2 hx, hdecl⟩
    · have hlt : p < h.size := lt_size_of_expr fun hexpr => by
        rw [hexpr] at hu
        cases hu
      obtain ⟨x, hx, hdecl⟩ := (hnew p hp hlt).2.1 u hu
      exact ⟨x, hx, .inl hdecl⟩
  · rcases Nat.lt_or_ge p g.size with hp | hp
    · exact (hg.declared_nodup p).sublist (hdeclared p hp)
    · rcases Nat.lt_or_ge p h.size with hlt | hge
      · exact (hnew p hp hlt).1
      · rw [expr_of_size_le hge]
        exact nodup_nil
  · rcases Nat.lt_or_ge u g.size with hlt | hge
    · exact (hg.decl_lt u x ((hvar u hlt x).1 hx) p hp).trans_le hsize
    · rw [(hnew u hge (lt_size_of_var hx)).2.2.1 x hx] at hp
      cases hp
  · rcases Nat.lt_or_ge v g.size with hlt | hge
    · obtain ⟨b, hgb, hstar, hhead, -⟩ := hblock v hlt b' hb
      obtain ⟨e, s, he, hes⟩ := hg.starred v b hgb (hstar hs)
      obtain ⟨s', hs'⟩ := hscan _ _ hes
      exact ⟨e, s', hhead e s he hes, hs'⟩
    · rw [((hnew v hge (lt_size_of_block? hb)).2.2.2 b' hb).1] at hs
      cases hs
  · rcases Nat.lt_or_ge v g.size with hlt | hge
    · obtain ⟨b, hgb, -, -, hhead⟩ := hblock v hlt b' hb
      obtain ⟨he, s, hes⟩ := hhead e s' he hs
      obtain ⟨x, hx, hk, hdecl⟩ := hg.scanned v b e s hgb he hes
      exact ⟨x, (hvar _ (lt_size_of_var hx) x).2 hx, hk, hdecl⟩
    · rw [((hnew v hge (lt_size_of_block? hb)).2.2.2 b' hb).2 e he] at hs
      cases hs

theorem ScopedBut.of_sameExprs (hs : SameExprs g h) (hg : g.ScopedBut E)
    (hdecl : h.DeclaresBut E) : h.ScopedBut E := by
  have hblock (v : NodeId) : h.block? v = g.block? v := by rw [block?, hs.expr_eq, block?]
  have hscan (v : NodeId) : h.scan? v = g.scan? v := by rw [scan?, hs.expr_eq, scan?]
  refine hg.of_same hs.size_eq.symm.le (fun v _ x => by rw [hs.expr_eq])
    (fun v _ => by rw [hs.expr_eq]) (fun v s hs => ⟨s, (hscan v).trans hs⟩) (fun v _ b hb => ?_)
    (fun v hge hlt => absurd hge (not_le.2 (hs.size_eq ▸ hlt))) hdecl
  exact ⟨b, hblock v ▸ hb, id, fun e s he _ => he, fun e s he hs => ⟨he, s, hscan _ ▸ hs⟩⟩

theorem Scoped.sameExprs (hg : g.Scoped) (hs : SameExprs g h)
    (hlive : ∀ v, h.isLive v = g.isLive v) : h.Scoped := by
  have hdecl : h.DeclaresBut fun _ => False := fun u x hu _ hx p hp => by
    rw [hlive] at hu
    rw [hs.expr_eq] at hx
    rw [hlive, hs.expr_eq]
    exact hg.decl u x hu hx p hp
  exact ((hg.but _).of_sameExprs hs hdecl).scoped fun u hu => hu.elim

end

/-- The two graphs have the same expressions, links and living nodes. -/
structure SameLinks (g h : Graph) : Prop extends SameExprs g h where
  parents_eq : ∀ v, h.parents v = g.parents v
  live_eq : ∀ v, h.isLive v = g.isLive v

section
variable (hs : SameLinks g h)
include hs

theorem SameLinks.linked (hg : g.Linked) : h.Linked :=
  hg.of_same hs.size_eq (fun v hv => hs.live_eq v ▸ hv) (fun v q hq => hs.parents_eq v ▸ hq)
    (fun c q _ _ => by rw [hs.parents_eq]) (fun q _ hq => by rwa [hs.expr_eq]) fun q _ hq => by
      rw [hs.expr_eq] at hq
      exact ⟨hq, hs.toSameExprs.children_eq q⟩

theorem SameLinks.scoped (hg : g.Scoped) : h.Scoped := hg.sameExprs hs.toSameExprs hs.live_eq

theorem SameLinks.sound (hg : g.Sound) : h.Sound := by
  obtain ⟨rank, ho⟩ := hg.ordered
  exact
    { hs.linked hg.toLinked, hs.scoped hg.toScoped with
      ordered := ⟨rank, hs.toSameExprs.ordered ho⟩ }

end

theorem SameShape.sound (hs : SameShape g h) (hg : g.Sound) : h.Sound :=
  SameLinks.sound ⟨hs.toSameExprs, hs.parents_eq, hs.live_eq⟩ hg

section
variable (hg : g.Sound)
include hg

theorem Sound.linksInside : g.LinksInside := by
  obtain ⟨rank, ho⟩ := hg.ordered
  refine ⟨hg.parents_lt, fun v u hu => ho.mem v u ?_⟩
  simp only [uses, mem_append]
  exact .inl (.inr hu)

omit hg in
/-- A block finds the variables that name it as their declaration. -/
theorem domain?_of_mem_entries {x : Variable} (hnodup : (g.expr p).declared.Nodup)
    (hb : g.block? p = some b) (he : e ∈ b.entries) (hx : g.expr e.var = .var x)
    (hdecl : x.decl = some p) : g.domain? e.var = some e.domain := by
  rw [block?_eq_some.1 hb] at hnodup
  have hfind : b.entries.find? (·.var == e.var) = some e := by
    obtain ⟨before, after, heq⟩ := append_of_mem he
    rw [Expr.declared, heq, map_append, map_cons] at hnodup
    rw [heq, find?_append, find?_cons_of_pos (by simp),
      find?_eq_none.2 fun e' he' => ?_, Option.none_or]
    intro h
    refine (disjoint_of_nodup_append hnodup) (mem_map_of_mem he') ?_
    rw [beq_iff_eq.1 h]
    exact .head _
  simp [domain?, var?, hx, hdecl, hb, hfind]

omit hg in
/-- A variable that a node declares over one of its inputs has this input as its source. -/
theorem eq_of_mem_declaredOver (hnodup : (g.expr p).declared.Nodup)
    (hdecl : ∃ x, g.expr w = .var x ∧ (x.decl = none ∨ x.decl = some p))
    (hover : w ∈ g.declaredOver v p) (hu : g.varSource? w = some u) : u = v := by
  obtain ⟨x, hx, hdecl⟩ := hdecl
  have hdecl : x.decl = some p := hdecl.resolve_left fun hnone => by
    cases hk : x.kind <;> simp_all [varSource?, var?, domain?]
  unfold declaredOver at hover
  split at hover
  · next b hb =>
    obtain ⟨e, he, rfl⟩ := mem_map.1 hover
    obtain ⟨he, hdom⟩ := mem_filter.1 he
    have hdomain := domain?_of_mem_entries hnodup (block?_eq_some.2 hb) he hx hdecl
    have hdom : e.domain = v := by simpa using hdom
    cases hk : x.kind <;> simp_all [varSource?, var?, Expr.stepInput?]
  · next hb =>
    split at hover
    · next hinput =>
      have hnone : g.block? p = none := by
        cases he : g.expr p with
        | block b => exact absurd he (hb b)
        | _ => simp [block?, he]
      cases hk : x.kind <;> simp_all [varSource?, var?, domain?]
    · cases hover

theorem Sound.constantType?_rowVar {s : TableScan} (hb : g.block? v = some b)
    (he : b.entries.head? = some e) (hs : g.scan? e.domain = some s) :
    g.constantType? e.var = some (.one s.rowType) := by
  obtain ⟨x, hx, hk, hdecl⟩ := hg.scanned v b e s hb he hs
  have hdomain := domain?_of_mem_entries (hg.declared_nodup v) hb (mem_of_head? he) hx hdecl
  simp [constantType?, hx, hk, hdomain, hs]

theorem Sound.constantType?_first (hb : g.block? v = some b) (hstar : b.star)
    (hu : b.firstVar? = some u) : g.constantType? u ≠ none := by
  obtain ⟨e, s, he, hs⟩ := hg.starred v b hb hstar
  have heu : e.var = u := by
    rw [Block.firstVar?, he] at hu
    exact Option.some.inj hu
  rw [← heu, hg.constantType?_rowVar hb he hs]
  simp

theorem Sound.mem_parents (hv : g.isLive v) (hscan : (g.expr v).isScan = false)
    (hmem : u ∈ g.children v) (hu : g.isLive u) : v ∈ g.parents u :=
  count_pos_iff.1 ((count_pos_iff.2 hmem).trans_le (hg.slots v hv hscan u hu))

omit hg in
theorem stepInput?_mem_children {e : Expr} (h : e.stepInput? = some u) : u ∈ e.children := by
  cases e <;> simp_all [Expr.stepInput?, Expr.children]

omit hg in
/-- The source of a variable is an input of the node that declares it. -/
theorem exists_of_varSource? (hdecl : ∀ x, g.expr v = .var x → ∀ p ∈ x.decl,
      g.isLive p ∧ v ∈ (g.expr p).declared) (hu : g.varSource? v = some u) :
    ∃ p, g.isLive p ∧ (g.expr p).isScan = false ∧ u ∈ g.children p ∧ v ∈ g.declaredOver u p := by
  unfold varSource? at hu
  split at hu
  case h_1 => cases hu
  case h_2 x hx =>
    have hx := var?_eq_some.1 hx
    split at hu
    case h_1 hkind =>
      simp only [domain?, bind, Option.bind_eq_some_iff, pure, Option.some.injEq] at hu
      obtain ⟨x', hx', p, hp, b, hb, e, he, rfl⟩ := hu
      have hxx := (var?_eq_some.1 hx').symm.trans hx
      cases hxx
      obtain ⟨hlive, -⟩ := hdecl x hx p hp
      have hb := block?_eq_some.1 hb
      have hevar : e.var = v := by simpa using find?_some he
      have hmem := mem_of_find?_eq_some he
      refine ⟨p, hlive, by rw [hb]; rfl, ?_, ?_⟩
      · rw [children, hb]
        simp only [Expr.children, mem_append, mem_map]
        exact .inl (.inl (.inl (.inl (.inl ⟨e, hmem, rfl⟩))))
      · rw [declaredOver, hb, ← hevar]
        exact mem_map_of_mem (mem_filter.2 ⟨hmem, by simp⟩)
    case h_2 | h_3 =>
      obtain ⟨p, hp, hinput⟩ := Option.bind_eq_some_iff.1 hu
      obtain ⟨hlive, hdeclared⟩ := hdecl x hx p hp
      refine ⟨p, hlive, ?_, stepInput?_mem_children hinput, ?_⟩
      · cases he : g.expr p <;> simp_all [Expr.stepInput?, Expr.isScan]
      · unfold declaredOver
        split
        · next b hb =>
          rw [hb] at hinput
          cases hinput
        · next hb =>
          rw [if_pos hinput]
          cases he : g.expr p with
          | block b => exact absurd he (hb b)
          | _ =>
            rw [he] at hdeclared
            exact hdeclared
    case h_4 => cases hu

omit hg in
/-- A node is a dependent of what it reads, unless it selects all of its first variable. -/
theorem mem_dependents_or_star
    (hslots : ∀ p, g.isLive p → (g.expr p).isScan = false → u ∈ g.children p → p ∈ g.parents u)
    (hdecl : ∀ x, g.expr v = .var x → ∀ p ∈ x.decl, g.isLive p ∧ v ∈ (g.expr p).declared)
    (hv : g.isLive v) (hu : u ∈ g.reads v) : v ∈ g.dependents u ∨
      ∃ b, g.block? v = some b ∧ b.star ∧ b.firstVar? = some u := by
  unfold reads at hu
  split at hu
  case h_1 b hb =>
    split at hu
    · next hstar => exact .inr ⟨b, block?_eq_some.2 hb, hstar, Option.mem_toList.1 hu⟩
    · refine .inl (mem_dependents.2 (.inl (hslots v hv (by rw [hb]; rfl) ?_)))
      rw [children, hb]
      simp only [Expr.children, mem_append]
      tauto
  case h_2 => cases hu
  case h_3 x hx =>
    obtain ⟨p, hp, hscan, hmem, hover⟩ := exists_of_varSource? hdecl (Option.mem_toList.1 hu)
    exact .inl (mem_dependents.2 (.inr ⟨p, hslots p hp hscan hmem, hover⟩))
  case h_4 hblock hscan hvar =>
    refine .inl (mem_dependents.2 (.inl (hslots v hv ?_ hu)))
    cases he : g.expr v with
    | scan s => exact absurd he (hscan s)
    | _ => rfl

/-- A refresh of a node reaches those that read it, if its type can change at all. -/
theorem Sound.linked (hv : g.isLive v) (hu : u ∈ g.reads v) (hulive : g.isLive u)
    (hconst : g.constantType? u = none) : v ∈ g.dependents u := by
  refine (mem_dependents_or_star (fun p hp hscan hmem => hg.mem_parents hp hscan hmem hulive)
    (fun x hx => hg.decl v x hv hx) hv hu).resolve_right ?_
  rintro ⟨b, hb, hstar, hfirst⟩
  exact hg.constantType?_first hb hstar hfirst hconst

theorem Sound.tracks (hreads : ∀ v, S v → ∀ u ∈ g.reads v, S u) : g.Tracks S :=
  ⟨hreads, fun _ _ hv _ hu hulive hconst => hg.linked hv hu hulive hconst⟩

/-- A refresh does not reach variables over the empty sequence. -/
theorem Sound.isCalm_of_mem_dependents (hv : g.IsCalm v) (hw : w ∈ g.dependents v) :
    g.IsCalm w := by
  have hnot_stale (hvar : (g.expr w).isVar = false) : ¬ g.IsStale w := by
    rintro ⟨u, hu, -⟩
    simp only [varSource?, var?] at hu
    cases he : g.expr w <;> simp_all [Expr.isVar]
  rcases mem_dependents.1 hw with hw | ⟨p, -, hover⟩
  · have := hg.parents_inner v w hw
    refine ⟨fun a ha => ?_, hnot_stale ?_⟩
    · rw [ha] at this
      cases this
    · cases he : g.expr w <;> simp_all [Expr.isLeaf, Expr.isVar]
  · have hdecl := hg.declared p w (mem_declared_of_declaredOver hover)
    refine ⟨fun a ha => ?_, ?_⟩
    · obtain ⟨x, hx, -⟩ := hdecl
      rw [hx] at ha
      cases ha
    · -- The source of the variable is the node itself, which is no constant.
      rintro ⟨u, hu, hempty⟩
      have hsource := eq_of_mem_declaredOver (hg.declared_nodup p) hdecl hover hu
      exact hv.1 .empty (hsource ▸ hempty)

end

/-! ## Upkeep -/

/-- A sound graph whose types are settled among the nodes of `S`, as soon as those of `work` are
refreshed. What `S` names uses or reads nothing else. -/
structure Maintained (g : Graph) (S : NodeId → Prop) (work : List NodeId) : Prop
    extends g.Sound, g.Settled S work where
  inside : ∀ v, S v → v < g.size
  closed : ∀ v, S v → ∀ u, u ∈ g.children v ∨ u ∈ g.reads v → S u

section
variable {work : List NodeId}

theorem Maintained.mono {work' : List NodeId} (hm : g.Maintained S work)
    (hsub : ∀ x ∈ work, g.Awaits work' x) : g.Maintained S work' :=
  ⟨hm.toSound, hm.toSettled.mono hsub, hm.inside, hm.closed⟩

theorem Maintained.reads_closed (hm : g.Maintained S work) : ∀ v, S v → ∀ u ∈ g.reads v, S u :=
  fun v hv u hu => hm.closed v hv u (.inr hu)

theorem Maintained.refresh {id : NodeId} (hm : g.Maintained S (id :: work)) :
    (g.refresh id).Maintained S work := by
  obtain ⟨rank, ho⟩ := hm.ordered
  have hshape := SameShape.refresh g id
  refine ⟨hshape.sound hm.toSound, hm.toSettled.refresh ho hm.toSound.linksInside
    (hm.toSound.tracks hm.reads_closed), fun v hv => hshape.size_eq ▸ hm.inside v hv,
    fun v hv u hu => hm.closed v hv u ?_⟩
  rwa [children, hshape.expr_eq, (hshape.toSameExprs.sameRule v).reads_eq] at hu

theorem Maintained.refreshAll (hm : g.Maintained S (ids ++ work)) :
    (ids.foldl Graph.refresh g).Maintained S work := by
  induction ids generalizing g with
  | nil => exact hm
  | cons id ids ih => exact ih hm.refresh

/-- A refresh leaves dead nodes, constants and variables over the empty sequence alone. -/
theorem Sound.type?_refresh (hg : g.Sound) {id : NodeId} (hcalm : g.IsCalm id)
    (hv : g.IsIdle v) : (g.refresh id).type? v = g.type? v := by
  obtain ⟨rank, ho⟩ := hg.ordered
  exact type?_refresh_of_isIdle ho hg.linksInside
    (fun v hv w hw => hg.isCalm_of_mem_dependents hv hw) hcalm hv

theorem Sound.type?_refreshAll (hg : g.Sound) (hcalm : ∀ id ∈ ids, g.IsCalm id) (hv : g.IsIdle v) :
    (ids.foldl Graph.refresh g).type? v = g.type? v := by
  induction ids generalizing g with
  | nil => rfl
  | cons id ids ih =>
    have hshape := SameShape.refresh g id
    refine (ih (hshape.sound hg) (fun x hx => ?_) ?_).trans
      (hg.type?_refresh (hcalm id (.head _)) hv)
    · exact (hshape.isCalm_iff x).2 (hcalm x (.tail _ hx))
    · rw [IsIdle, hshape.live_eq, hshape.isCalm_iff]
      exact hv

/-- An edit of a maintained graph that ends in a sound one. -/
theorem Maintained.edit {S' : NodeId → Prop} {changed : List NodeId} (hm : g.Maintained S work)
    (hh : h.Sound) (he : Edits g h S S' changed) (hinside : ∀ v, S' v → v < h.size)
    (hclosed : ∀ v, S' v → ∀ u, u ∈ h.children v ∨ u ∈ h.reads v → S' u) :
    h.Maintained S' (changed ++ work) := by
  obtain ⟨rank, ho⟩ := hm.ordered
  obtain ⟨rank', ho'⟩ := hh.ordered
  exact ⟨hh, he.settled ho ho' hm.constants hm.reads_closed hm.toSettled, hinside, hclosed⟩

end

end Graph

end ShardedQuery
