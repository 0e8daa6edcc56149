import ShardedQuery.Proofs.Graph.Laid
import ShardedQuery.Proofs.Graph.WellTyped

/-!
# Inferring types

Keeping the types of a node and of everything below it changes no type: a type is kept only where
none is kept yet, and it is the one that is derived anyway (`Graph.infers_inferWithin`). When types
have been inferred in a graph as it is laid out, the kept types are settled, and every node below the
root has one (`Graph.IsLaid.wellTyped`).
-/

namespace ShardedQuery.Graph

open List

variable {u v : NodeId} {g : Graph} {rank : NodeId → Nat}

/-! ## What is inferred -/

/-- Nodes rank above the nodes that inference goes on to: those in their slots, and the source of a
variable. -/
def Descends (g : Graph) (rank : NodeId → Nat) : Prop :=
  ∀ v, ∀ u ∈ g.children v ++ (g.varSource? v).toList, rank u < rank v

theorem SameShape.descends {h : Graph} (hs : SameShape g h) (hd : g.Descends rank) :
    h.Descends rank := by
  intro v u hu
  rw [children, hs.expr_eq, hs.varSource?_eq] at hu
  exact hd v u hu

/-- `h` keeps more types than `g`, for nodes of at most a given rank. No type is another one. -/
structure Infers (g h : Graph) (rank : NodeId → Nat) (bound : Nat) : Prop where
  shape : SameShape g h
  kept : ∀ v t, g.type? v = some t → h.type? v = some t
  exprType_eq : ∀ v, h.exprType v = g.exprType v
  bounded : ∀ v, g.type? v = none → h.type? v ≠ none → rank v ≤ bound

section
variable {h : Graph} {n : Nat}

theorem Infers.refl (g : Graph) : g.Infers g rank n :=
  ⟨.refl g, fun _ _ h => h, fun _ => rfl, fun _ hnone hsome => absurd hnone hsome⟩

theorem Infers.trans {k : Graph} (h₁ : g.Infers h rank n) (h₂ : h.Infers k rank n) :
    g.Infers k rank n := by
  refine ⟨h₁.shape.trans h₂.shape, fun v t ht => h₂.kept v t (h₁.kept v t ht),
    fun v => (h₂.exprType_eq v).trans (h₁.exprType_eq v), fun v hnone hsome => ?_⟩
  cases hv : h.type? v with
  | none => exact h₂.bounded v hv hsome
  | some t => exact h₁.bounded v hnone (by simp [hv])

theorem Infers.mono {m : Nat} (hi : g.Infers h rank n) (hle : n ≤ m) : g.Infers h rank m :=
  ⟨hi.shape, hi.kept, hi.exprType_eq, fun v hnone hsome => (hi.bounded v hnone hsome).trans hle⟩

theorem Infers.ranked {level : NodeId → Nat} (hi : g.Infers h rank n) (hr : g.Ranked level) :
    h.Ranked level := by
  refine hi.shape.toSameExprs.ranked (fun v hv => ?_) hr
  by_contra hsome
  obtain ⟨t, ht⟩ := Option.ne_none_iff_exists'.1 hsome
  rw [hi.kept v t ht] at hv
  cases hv

theorem Infers.foldl {step : Graph → NodeId → Graph} {us : List NodeId}
    (hstep : ∀ k, g.Infers k rank n → ∀ u ∈ us, k.Infers (step k u) rank n) :
    g.Infers (us.foldl step g) rank n := by
  refine foldlRecOn (motive := fun k => g.Infers k rank n) us step (.refl g) fun k hk u hu => ?_
  exact hk.trans (hstep k hk u hu)

/-- The derived type of a node without one may be kept. -/
theorem Infers.setType {level : NodeId → Nat} (hr : g.Ranked level) {id : NodeId}
    (hnone : g.type? id = none) : g.Infers (g.retype id) rank (rank id) := by
  rcases Nat.lt_or_ge id g.size with hlt | hge
  · refine ⟨.setType .., fun v t ht => ?_, hr.exprType_setType_of_unkept hlt hnone,
      fun v hv hsome => ?_⟩
    · have hne : v ≠ id := by
        rintro rfl
        rw [hnone] at ht
        cases ht
      rw [type?_setType hlt, if_neg hne, ht]
    · rw [type?_setType hlt] at hsome
      split at hsome
      · next heq => rw [heq]
      · exact absurd hv hsome
  · have hself : g.nodes.modify id (fun n => { n with type := some (g.derivedType id) }) = g.nodes := by
      refine Array.ext Array.size_modify fun i hi hi' => ?_
      rw [Array.getElem_modify, if_neg]
      rintro rfl
      exact not_lt.2 hge hi'
    rw [retype, Graph.setType, Graph.modify, hself]
    exact .refl g

/-- Inference changes no type, and keeps types only of nodes that do not rank above the one it starts
from. -/
theorem infers_inferWithin {level : NodeId → Nat} (depth : Nat) :
    ∀ {g : Graph} (id : NodeId), g.Ranked level → g.Descends rank →
      g.Infers (inferWithin depth g id) rank (rank id) := by
  induction depth with
  | zero => exact fun id _ _ => .refl _
  | succ depth ih =>
    intro g id hr hd
    rw [inferWithin]
    cases hid : g.type? id with
    | some t => exact .refl g
    | none =>
      have hbelow : ∀ k, g.Infers k rank (rank id - 1) →
          ∀ u ∈ g.children id ++ (g.varSource? id).toList,
            k.Infers (inferWithin depth k u) rank (rank id - 1) := by
        intro k hk u hu
        refine (ih u (hk.ranked hr) (hk.shape.descends hd)).mono ?_
        exact Nat.le_sub_one_of_lt (hd id u hu)
      have hfold := Infers.foldl hbelow
      -- The node itself ranks above all that was visited, and so it has no type yet.
      have hnone : ((g.children id ++ (g.varSource? id).toList).foldl (inferWithin depth) g).type? id =
          none := by
        by_contra hsome
        have hne : g.children id ++ (g.varSource? id).toList ≠ [] := by
          intro hnil
          rw [hnil] at hsome
          exact hsome hid
        obtain ⟨u, us, hcons⟩ := exists_cons_of_ne_nil hne
        have hlt := hd id u (by rw [hcons]; exact (.head _) ..)
        have := hfold.bounded id hid hsome
        omega
      exact (hfold.mono (Nat.sub_le ..)).trans
        (.setType (hfold.ranked hr) hnone)

theorem sameShape_inferWithin (depth : Nat) (g : Graph) (id : NodeId) :
    SameShape g (inferWithin depth g id) := by
  induction depth generalizing g id with
  | zero => exact .refl g
  | succ depth ih =>
    rw [inferWithin]
    cases g.type? id with
    | some t => exact .refl g
    | none =>
      have hfold := foldlRecOn (motive := SameShape g) (g.children id ++ (g.varSource? id).toList)
        (inferWithin depth) (.refl g) fun k hk u _ => hk.trans (ih k u)
      exact hfold.trans (.setType ..)

theorem type?_inferWithin_ne_none (depth : Nat) (hv : v < g.size) :
    (inferWithin (depth + 1) g v).type? v ≠ none := by
  have hs := sameShape_inferWithin (depth + 1) g v
  rw [inferWithin] at hs ⊢
  cases hkept : g.type? v with
  | some t => simp [hkept]
  | none =>
    rw [hkept] at hs
    have hsize := hs.size_eq
    rw [(SameShape.setType ..).size_eq] at hsize
    rw [type?_setType (hsize ▸ hv), if_pos rfl]
    simp

theorem kept_inferWithin (depth : Nat) (g : Graph) (id : NodeId) (hv : g.type? v ≠ none) :
    (inferWithin depth g id).type? v ≠ none := by
  induction depth generalizing g id with
  | zero => exact hv
  | succ depth ih =>
    rw [inferWithin]
    cases g.type? id with
    | some t => exact hv
    | none =>
      have hfold := foldlRecOn (motive := fun k : Graph => k.type? v ≠ none)
        (g.children id ++ (g.varSource? id).toList) (inferWithin depth) hv fun k hk u _ => ih k u hk
      rw [type?, retype, setType, node_modify]
      split
      · simp
      · exact hfold

/-- The nodes with kept types have kept types in their slots, and so have their sources. -/
def KeepsBelow (g : Graph) : Prop :=
  ∀ v, g.type? v ≠ none → ∀ u ∈ g.children v ++ (g.varSource? v).toList, g.type? u ≠ none

/-- Inference goes all the way down. -/
theorem keepsBelow_inferWithin (depth : Nat) : ∀ {g : Graph} {id : NodeId}, g.Descends rank →
    (∀ v, ∀ u ∈ g.children v ++ (g.varSource? v).toList, u < g.size) → g.KeepsBelow →
    id < g.size → rank id < depth → (inferWithin depth g id).KeepsBelow := by
  induction depth with
  | zero => exact fun _ _ _ _ h => absurd h (Nat.not_lt_zero _)
  | succ depth ih =>
    intro g id hd hin hk hlt hrank
    rw [inferWithin]
    cases g.type? id with
    | some t => exact hk
    | none =>
      have hbelow {u : NodeId} (hu : u ∈ g.children id ++ (g.varSource? id).toList) : rank u < depth :=
        (hd id u hu).trans_le (Nat.le_of_lt_succ hrank)
      have hkeep := foldlRecOn (motive := fun k : Graph => SameShape g k ∧ k.KeepsBelow)
        (g.children id ++ (g.varSource? id).toList) (inferWithin depth) ⟨.refl g, hk⟩
        fun k hk u hu => by
          refine ⟨hk.1.trans (sameShape_inferWithin ..), ih (hk.1.descends hd) (fun v w hw => ?_) hk.2
            (hk.1.size_eq ▸ hin id u hu) (hbelow hu)⟩
          rw [children, hk.1.expr_eq, hk.1.varSource?_eq] at hw
          exact hk.1.size_eq ▸ hin v w hw
      -- What was visited has a type when the fold is through.
      have hall : ∀ u ∈ g.children id ++ (g.varSource? id).toList, ((g.children id ++
          (g.varSource? id).toList).foldl (inferWithin depth) g).type? u ≠ none := by
        intro u hu
        obtain ⟨depth, rfl⟩ := Nat.exists_eq_add_one_of_ne_zero (Nat.ne_zero_of_lt (hbelow hu))
        obtain ⟨before, after, heq⟩ := append_of_mem hu
        have hshape := foldlRecOn (motive := SameShape g) before (inferWithin (depth + 1))
          (.refl g) fun k hk w _ => hk.trans (sameShape_inferWithin ..)
        rw [heq, foldl_append, foldl_cons]
        exact foldlRecOn (motive := fun k : Graph => k.type? u ≠ none) after _
          (type?_inferWithin_ne_none depth (hshape.size_eq ▸ hin id u hu))
          fun k hk w _ => kept_inferWithin _ k w hk
      generalize (g.children id ++ (g.varSource? id).toList).foldl (inferWithin depth) g = k
        at hkeep hall
      have hset := hkeep.1.trans (SameShape.setType k id (k.derivedType id))
      intro v hv u hu
      rw [children, hset.expr_eq, hset.varSource?_eq] at hu
      rw [type?_setType (hkeep.1.size_eq ▸ hlt)] at hv ⊢
      split
      · simp
      · by_cases hvid : v = id
        · exact hall u (hvid ▸ hu)
        · rw [if_neg hvid] at hv
          refine hkeep.2 v hv u ?_
          rwa [children, hkeep.1.expr_eq, hkeep.1.varSource?_eq]

end

/-! ## Queries -/

/-- A node reads what inference goes on to, and a block that selects whole rows its first variable. -/
theorem mem_reads_cases (hu : u ∈ g.reads v) :
    u ∈ g.children v ++ (g.varSource? v).toList ∨
      ∃ b, g.block? v = some b ∧ b.star ∧ b.firstVar? = some u := by
  rw [mem_append]
  unfold reads at hu
  split at hu
  · next b hb =>
    split at hu
    · next hstar => exact .inr ⟨b, block?_eq_some.2 hb, hstar, Option.mem_toList.1 hu⟩
    · refine .inl (.inl ?_)
      rw [children, hb]
      simp only [Expr.children, mem_append]
      exact .inl (.inl (.inl (.inr hu)))
  · cases hu
  · exact .inl (.inr hu)
  · exact .inl (.inl hu)

theorem Sound.exists_first (hg : g.Sound) {p : NodeId} {b : Block} (hb : g.block? p = some b)
    (hstar : b.star) (hv : b.firstVar? = some v) :
    ∃ e s x, b.entries.head? = some e ∧ e.var = v ∧ g.expr e.var = .var x ∧ x.kind = .row ∧
      x.decl = some p ∧ g.scan? e.domain = some s := by
  obtain ⟨e, s, he, hs⟩ := hg.starred p b hb hstar
  obtain ⟨x, hx, hrow, hdecl⟩ := hg.scanned p b e s hb he hs
  exact ⟨e, s, x, he, by simpa [Block.firstVar?, he] using hv, hx, hrow, hdecl, hs⟩

/-- The nodes with kept types, and the first variables of those blocks that select whole rows. -/
def IsTyped (g : Graph) (v : NodeId) : Prop :=
  g.type? v ≠ none ∨ ∃ p b, g.type? p ≠ none ∧ g.block? p = some b ∧ b.star ∧ b.firstVar? = some v

section
variable (hg : g.IsLaid)
include hg

theorem IsLaid.descends : g.Descends fun v => v := by
  intro v u hu
  rcases mem_append.1 hu with hu | hu
  · exact hg.children_lt v u hu
  · exact hg.source_lt v u (Option.mem_toList.1 hu)

theorem IsLaid.lt_size_of_below (hu : u ∈ g.children v ++ (g.varSource? v).toList) :
    u < g.size := by
  refine (hg.descends v u hu).trans (Nat.lt_of_not_le fun hle => ?_)
  rw [children, varSource?, var?, expr_of_size_le hle] at hu
  cases hu

variable {root : NodeId} (hroot : g.root = some root) (hlt : root < g.size)
include hroot hlt

omit hlt in
theorem IsLaid.infers_inferTypes : g.Infers g.inferTypes (fun v => v) root := by
  rw [inferTypes, hroot]
  exact infers_inferWithin _ root hg.ordered.ranked hg.descends

theorem IsLaid.keepsBelow_inferTypes :
    g.inferTypes.KeepsBelow ∧ g.inferTypes.type? root ≠ none := by
  rw [inferTypes, hroot]
  refine ⟨keepsBelow_inferWithin _ hg.descends (fun v u => hg.lt_size_of_below) (fun v hv => ?_) hlt
    (Nat.lt_succ_of_lt hlt), type?_inferWithin_ne_none _ hlt⟩
  exact absurd (hg.untyped v) hv

/-- When types are inferred, they are settled, and all that is below the root is typed. -/
theorem IsLaid.wellTyped : g.inferTypes.WellTyped g.inferTypes.IsTyped := by
  have hi := hg.infers_inferTypes hroot
  obtain ⟨hbelow, -⟩ := hg.keepsBelow_inferTypes hroot hlt
  have hsound : g.inferTypes.Sound := hi.shape.sound hg.sound
  have ho : g.inferTypes.Ordered fun v => v := hi.shape.toSameExprs.ordered hg.ordered
  have hcurrent (v : NodeId) : g.inferTypes.IsCurrent v := by
    intro t ht
    have hrule : g.inferTypes.derivedType v = g.derivedType v := by
      rw [derivedType, (hi.shape.toSameExprs.sameRule v).typeRule_eq, derivedType]
      exact typeRule_congr fun u _ => hi.exprType_eq u
    rw [hrule, ← hg.ordered.exprType_of_unkept (hg.untyped v), ← hi.exprType_eq]
    exact exprType_of_kept ht
  have hconst : g.inferTypes.KeepsConstants := by
    intro v t ht t' ht'
    rw [hi.shape.toSameExprs.constantType?_eq] at ht
    rw [← exprType_of_kept ht', hi.exprType_eq]
    exact hg.ordered.exprType_of_constant hg.keepsConstants ht
  -- The first variable of a block that selects whole rows has the type of the rows.
  have hfirst {v p : NodeId} {b : Block} (hb : g.inferTypes.block? p = some b) (hstar : b.star)
      (hv : b.firstVar? = some v) : g.inferTypes.IsFixed v := by
    refine ⟨hsound.constantType?_first hb hstar hv, fun x hx => ?_⟩
    obtain ⟨e, s, y, -, rfl, hy, -, hdecl, -⟩ := hsound.exists_first hb hstar hv
    rw [hx, Expr.var.injEq] at hy
    exact ⟨p, b, by rw [hy, hdecl], hb, hv⟩
  have hknown (v : NodeId) (hv : g.inferTypes.IsTyped v) :
      g.inferTypes.type? v ≠ none ∨ g.inferTypes.IsFixed v := by
    rcases hv with hv | ⟨p, b, -, hb, hstar, hv⟩
    · exact .inl hv
    · exact .inr (hfirst hb hstar hv)
  refine
    { hsound with
      constants := hconst
      dead := fun v hv _ => (hknown v hv).imp_right And.left
      current := fun v _ _ => .inl (hcurrent v)
      columns := fun v t _ hcolumn t' ht' => by
        obtain ⟨r, name, x, u, hexpr, -, hr, ht⟩ := hcolumn
        rw [← hcurrent v t' ht', ht, derivedType, typeRule, hexpr]
        simp only [ho.exprType_of_constant hconst hr]
      inside := fun v hv => ?_
      closed := fun v hv u hu => ?_
      known := hknown }
  · rcases hv with hv | ⟨p, b, -, hb, hstar, hv⟩
    · exact Nat.lt_of_not_le fun hle => hv (type?_of_size_le hle)
    · obtain ⟨e, s, x, he, rfl, hx, -⟩ := hsound.exists_first hb hstar hv
      exact lt_size_of_var hx
  · rcases hv with hv | ⟨p, b, hp, hb, hstar, hv⟩
    · rcases hu with hu | hu
      · exact .inl (hbelow v hv u (mem_append_left _ hu))
      · rcases mem_reads_cases hu with hu | ⟨b, hb, hstar, hu⟩
        · exact .inl (hbelow v hv u hu)
        · exact .inr ⟨v, b, hv, hb, hstar, hu⟩
    · obtain ⟨e, s, x, he, rfl, hx, hrow, hdecl, -⟩ := hsound.exists_first hb hstar hv
      rcases hu with hu | hu
      · rw [children, hx] at hu
        cases hu
      · rw [reads, hx] at hu
        rw [varSource?, var?, hx] at hu
        simp only [hrow] at hu
        rw [domain?_of_mem_entries (hsound.declared_nodup _) hb (mem_of_head? he) hx hdecl] at hu
        obtain rfl := mem_singleton.1 hu
        exact .inl (hbelow p hp _
          (mem_append_left _ (domain_mem_children hb (mem_of_head? he))))

end

end ShardedQuery.Graph
