import ShardedQuery.Proofs.Access.Upkeep

/-!
# What the FROM entries that go range over

A FROM entry goes with the access path if nothing uses its variable and it ranges over exactly one
item, or its variable is absorbed (`Analysis.block?_apply_kept`). The types that count are those of
the graph in which the access path was chosen: what is done before an entry has its turn changes no
kept type, and where no type is kept, it is constant. `Graph.KeepsQuantifiers` carries this through
the rewrite.
-/

namespace ShardedQuery

open List

variable {block scan : NodeId} {b : Block} {first : FromEntry} {g : Graph} {rest : List FromEntry}
  {S : NodeId → Prop}

/-- The quantifier of the type of a node that has a constant type. -/
def Expr.constantQuantifier : Expr → Quantifier
  | .scan _ => .star
  | .literal a => if a.isEmpty then SeqType.empty.quantifier else .one
  | _ => .one

theorem Expr.Rewritten.constantQuantifier_eq {p q : Prop} {e e' : Expr} (h : Rewritten p q e e') :
    e'.constantQuantifier = e.constantQuantifier := by
  cases h <;> rfl

namespace Graph

section
variable {h k : Graph} {T : NodeId → Prop} {v : NodeId}

theorem quantifier_of_constantType? {t : SeqType} (ht : g.constantType? v = some t) :
    t.quantifier = (g.expr v).constantQuantifier := by
  unfold constantType? at ht
  split at ht
  · next s hs =>
    rw [hs, ← Option.some.inj ht]
    rfl
  · next a ha =>
    rw [ha, ← Option.some.inj ht, Expr.constantQuantifier]
    split <;> rfl
  · next f args hf =>
    rw [hf]
    split at ht <;> cases ht
    rfl
  · next x hx =>
    rw [hx]
    split at ht
    · obtain ⟨d, -, hd⟩ := Option.bind_eq_some_iff.1 ht
      obtain ⟨s, -, rfl⟩ := Option.map_eq_some_iff.1 hd
      rfl
    · cases ht
  · cases ht

/-- Nodes keep their types, and the quantifiers of those that keep none. -/
structure KeepsQuantifiers (g h : Graph) : Prop where
  size_le : g.size ≤ h.size
  type_eq : ∀ v, v < g.size → h.type? v = g.type? v
  constant_eq : ∀ v, v < g.size →
    (h.expr v).constantQuantifier = (g.expr v).constantQuantifier

/-- A known type has the quantifier it had. -/
theorem KeepsQuantifiers.quantifier_eq (hq : KeepsQuantifiers g h) (hg : g.WellTyped S)
    (hh : h.WellTyped T) (hS : S v) (hT : T v) :
    (h.exprType v).quantifier = (g.exprType v).quantifier := by
  have hlt := hg.inside v hS
  cases htype : g.type? v with
  | some t => rw [exprType_of_kept htype, exprType_of_kept ((hq.type_eq v hlt).trans htype)]
  | none =>
    -- Where no type is kept, it is constant before and after.
    have hconstant {k : Graph} {U : NodeId → Prop} (hk : k.WellTyped U) (hU : U v)
        (hnone : k.type? v = none) :
        (k.exprType v).quantifier = (k.expr v).constantQuantifier := by
      obtain ⟨rank, ho⟩ := hk.ordered
      obtain ⟨t, ht⟩ := Option.ne_none_iff_exists'.1 ((hk.known v hU).resolve_left (absurd hnone)).1
      rw [ho.exprType_of_constant hk.constants ht, quantifier_of_constantType? ht]
    rw [hconstant hg hS htype, hconstant hh hT ((hq.type_eq v hlt).trans htype),
      hq.constant_eq v hlt]

namespace KeepsQuantifiers

theorem trans (h₁ : KeepsQuantifiers g h) (h₂ : KeepsQuantifiers h k) : KeepsQuantifiers g k where
  size_le := h₁.size_le.trans h₂.size_le
  type_eq v hv := (h₂.type_eq v (hv.trans_le h₁.size_le)).trans (h₁.type_eq v hv)
  constant_eq v hv :=
    (h₂.constant_eq v (hv.trans_le h₁.size_le)).trans (h₁.constant_eq v hv)

theorem refl (g : Graph) : KeepsQuantifiers g g :=
  ⟨le_rfl, fun _ _ => rfl, fun _ _ => rfl⟩

theorem of_rewrites (hr : Rewrites block scan g h) : KeepsQuantifiers g h where
  size_le := hr.size_le
  type_eq := hr.type_eq
  constant_eq v hv := (hr.old v hv).constantQuantifier_eq

end KeepsQuantifiers

/-- What goes with unused FROM entries, given that their domains have known types: entries that
range over one item, and entries that are absorbed. -/
theorem WellTyped.dropUnused_kept (hw : g.WellTyped S) (hS : S block) (hb : g.block? block = some b)
    (hentries : b.entries = first :: rest) (absorbed : List NodeId) :
    ∃ kept, kept.Sublist rest ∧
      (g.dropUnused block absorbed).block? block = some { b with entries := first :: kept } ∧
      ∀ e ∈ rest, e ∉ kept → (g.exprType e.domain).quantifier = .one ∨ e.var ∈ absorbed := by
  have hdomain : ∀ e ∈ rest, S e.domain := fun e he => hw.closed block hS e.domain
    (.inl (domain_mem_children hb (hentries ▸ mem_cons_of_mem first he)))
  have hturns := dropUnused_induct absorbed
    (P := fun k post kept => k.WellTyped S ∧ KeepsQuantifiers g k ∧
      ∀ e ∈ post, e ∉ kept → (g.exprType e.domain).quantifier = .one ∨ e.var ∈ absorbed)
    hb hentries ⟨hw, .refl g, fun e he => by cases he⟩ ?_ ?_
  · obtain ⟨kept, hkept, hblock, -, -, hdropped⟩ := hturns
    exact ⟨kept, hkept, hblock, hdropped⟩
  · rintro k pre e post kept hturn hdrops ⟨hk, hq, hpost⟩
    have he : e ∈ rest := by
      rw [hturn.rest_eq]
      exact mem_append_right _ (.head _)
    refine ⟨hk.dropEntry hturn.block_eq rfl hS,
      hq.trans (.of_rewrites (Graph.Rewrites.dropEntry _ e : Graph.Rewrites block 0 k _)),
      forall_mem_cons.2 ⟨fun _ => ?_, hpost⟩⟩
    simpa [drops, hq.quantifier_eq hw hk (hdomain e he) (hdomain e he)] using
      (Bool.and_eq_true_iff.1 hdrops).2
  · rintro k pre e post kept hturn - ⟨hk, hq, hpost⟩
    refine ⟨hk, hq, forall_mem_cons.2 ⟨fun hnot => absurd (.head _) hnot, ?_⟩⟩
    exact fun x hx hnot => hpost x hx fun hmem => hnot (mem_cons_of_mem e hmem)

end

end Graph

/-- FROM entries that go with the access path range over exactly one item or are absorbed. -/
theorem Analysis.block?_apply_kept {a : Analysis} {t : Table} {w : Weights} {site : Site}
    {path : AccessPath} {s : TableScan} (hfound : a.IsFound g t w site path) (hw : g.WellTyped S)
    (hS : S site.block) (hb : g.block? site.block = some b) (hs : g.scan? scan = some s)
    (hentries : b.entries = first :: rest) :
    ∃ kept b', (a.apply g t site scan).block? site.block = some b' ∧ b'.entries = first :: kept ∧
      kept.Sublist rest ∧
      ∀ e ∈ rest, e ∉ kept → (g.exprType e.domain).quantifier = .one ∨ e.var ∈ a.absorbed := by
  obtain ⟨hwell, -⟩ := wellTyped_remaining (t := t) hfound hw hS hb hs
  have hb' := a.block?_remainingGraph t scan hb
  obtain ⟨kept, hkept, hblock, hdropped⟩ :=
    hwell.dropUnused_kept (.inl hS) hb' hentries a.absorbed
  rw [← apply] at hblock
  have hquantifiers : Graph.KeepsQuantifiers g (a.remainingGraph g t site scan) :=
    .of_rewrites ((a.rewrites_grownGraph g).trans (a.rewrites_remainingGraph g t site))
  refine ⟨kept, _, hblock, rfl, hkept, fun e he hnot => ?_⟩
  have hdomain : S e.domain := hw.closed site.block hS e.domain
    (.inl (Graph.domain_mem_children hb (hentries ▸ mem_cons_of_mem first he)))
  rw [← hquantifiers.quantifier_eq hw hwell hdomain (.inl hdomain)]
  exact hdropped e he hnot

end ShardedQuery
