import ShardedQuery.Proofs.Split.Locality

/-!
# Types below a block that is split

A split gives new types to the block and to what is above it. What the block is built from keeps its
type: the expressions there stay as they are, and where types are settled before and after, equal
expressions have equal types (`Graph.Settled.exprType_eq`). What is left to show is that a split does
not touch the kept types that have no rule behind them, those of dead nodes, of constants and of
variables over the empty sequence. `Graph.Spares` carries this through the stages of a split.
-/

namespace ShardedQuery

variable {g : Graph} {v : NodeId} {S : NodeId → Prop}

namespace Graph

/-- The nodes of `B`, which holds what its members read, are as they were: they have their
expressions and their sources, and kept types that do not come from a rule are the same. -/
structure Spares (B : NodeId → Prop) (g h : Graph) : Prop where
  closed : ∀ v, B v → ∀ u ∈ g.reads v, B u
  expr_eq : ∀ v, B v → h.expr v = g.expr v
  source_eq : ∀ v, B v → h.varSource? v = g.varSource? v
  live_eq : ∀ v, B v → h.isLive v = g.isLive v
  idle_eq : ∀ v, B v → g.IsIdle v → h.type? v = g.type? v

/-- A node that has slots is neither a constant nor a variable. -/
theorem isCalm_of_inner (hv : (g.expr v).isLeaf = false) : g.IsCalm v := by
  refine ⟨fun a ha => (by rw [ha] at hv; cases hv), fun hstale => ?_⟩
  obtain ⟨u, hu, -⟩ := hstale
  cases hx : g.var? v with
  | none =>
    rw [varSource?, hx] at hu
    cases hu
  | some x =>
    rw [var?_eq_some.1 hx] at hv
    cases hv

namespace Spares

variable {B : NodeId → Prop} {h k : Graph}

theorem refl (hclosed : ∀ v, B v → ∀ u ∈ g.reads v, B u) : Spares B g g :=
  ⟨hclosed, fun _ _ => rfl, fun _ _ => rfl, fun _ _ => rfl, fun _ _ _ => rfl⟩

section
variable (hs : Spares B g h)
include hs

theorem isIdle (hv : B v) (hidle : g.IsIdle v) : h.IsIdle v := by
  refine hidle.imp (fun hdead => (hs.live_eq v hv).trans hdead) fun hcalm hcalm' => hcalm ?_
  refine ⟨fun a ha => hcalm'.1 a ((hs.expr_eq v hv).trans ha), fun hstale => hcalm'.2 ?_⟩
  obtain ⟨u, hu, hempty⟩ := hstale
  exact ⟨u, (hs.source_eq v hv).trans hu,
    (hs.expr_eq u (hs.closed v hv u (mem_reads_of_varSource? hu))).trans hempty⟩

/-- What happens next may leave the nodes alone as well. -/
theorem step (hexpr : ∀ v, B v → k.expr v = h.expr v)
    (hsource : ∀ v, B v → k.varSource? v = h.varSource? v)
    (hlive : ∀ v, B v → k.isLive v = h.isLive v)
    (hidle : ∀ v, B v → h.IsIdle v → k.type? v = h.type? v) : Spares B g k where
  closed := hs.closed
  expr_eq v hv := (hexpr v hv).trans (hs.expr_eq v hv)
  source_eq v hv := (hsource v hv).trans (hs.source_eq v hv)
  live_eq v hv := (hlive v hv).trans (hs.live_eq v hv)
  idle_eq v hv hi := (hidle v hv (hs.isIdle hv hi)).trans (hs.idle_eq v hv hi)

theorem refreshAll (hh : h.Sound) {ids : List NodeId}
    (hcalm : ∀ id ∈ ids, h.IsCalm id) : Spares B g (ids.foldl Graph.refresh h) :=
  have hshape := SameShape.refreshAll ids h
  hs.step (fun v _ => hshape.expr_eq v) (fun v _ => hshape.toSameExprs.varSource?_eq v)
    (fun v _ => hshape.live_eq v) fun _ _ hi => hh.type?_refreshAll hcalm hi

theorem refresh (hh : h.Sound) {id : NodeId} (hcalm : h.IsCalm id) : Spares B g (h.refresh id) :=
  have hcalm' : ∀ y ∈ [id], h.IsCalm y := by simpa using hcalm
  hs.refreshAll hh hcalm'

/-- A new node above one that is neither in the slots nor the source of a node does not matter. -/
theorem inserted (hh : h.Sound) {id : NodeId} (hid : h.isLive id)
    (make : NodeId → Expr) (hlt : ∀ v, B v → v < h.size)
    (hslot : ∀ v, B v → id ∉ g.children v) (hsource : ∀ v, B v → g.varSource? v ≠ some id) :
    Spares B g (h.inserted id make) := by
  have hidlt := lt_size_of_isLive hid
  refine hs.step (fun v hv => ?_) (fun v hv => ?_)
    (fun v hv => isLive_inserted_of_lt hidlt (hlt v hv))
    fun v hv _ => type?_inserted_of_lt hidlt (hlt v hv)
  · rw [expr_inserted_of_lt hidlt (hlt v hv)]
    split
    · refine Expr.mapChildren_eq_self fun c hc => if_neg ?_
      rintro rfl
      exact hslot v hv (by rwa [children, ← hs.expr_eq v hv])
    · rfl
  · refine (varSource?_inserted hh hid (hlt v hv)).resolve_right fun h' => ?_
    exact hsource v hv ((hs.source_eq v hv).symm.trans h'.1)

theorem declare {u p d : NodeId} {x : Variable} (hp : h.IsPending u p d x)
    (hu : ∀ v, B v → v ≠ u) : Spares B g (h.declare u p) :=
  hs.step (fun v hv => hp.expr_declare_of_ne (hu v hv))
    (fun v hv => (hp.varSource?_declare v).trans (if_neg (hu v hv)))
    (fun v _ => by rw [Graph.declare, isLive_modifyExpr])
    fun v _ _ => by rw [Graph.declare, type?_modifyExpr]

/-- Where types are settled, the nodes have the types they had. -/
theorem exprType_eq {S' : NodeId → Prop} (hg : g.Maintained S []) (hh : h.Maintained S' [])
    (hB : ∀ v, B v → S v ∧ S' v) (hv : B v) : h.exprType v = g.exprType v := by
  obtain ⟨rank, ho⟩ := hg.ordered
  obtain ⟨rank', ho'⟩ := hh.ordered
  exact hg.toSettled.exprType_eq hh.toSettled ho ho' hs.closed hB
    (fun v hv => ⟨hs.expr_eq v hv, hs.source_eq v hv⟩) hs.live_eq hs.idle_eq hv

end

end Spares

end Graph

open ShardedQuery.Graph

namespace SplitSite

section
variable {x : SplitSite} {rank : NodeId → Nat}

/-- The block stands in no slot below it: scans use what is local. -/
theorem IsScanned.not_mem_children (hx : x.IsScanned g) (hscans : g.ScansLocally)
    (ho : g.Ordered rank) (hv : rank v < rank x.block) : x.block ∉ g.children v := by
  intro hmem
  cases hscan : g.scan? v with
  | some s =>
    rw [children, scan?_eq_some.1 hscan] at hmem
    have hlocal := (hscans v s hscan x.block hmem).isLocal
    rw [block?_eq_some.1 hx.block_eq] at hlocal
    cases hlocal
  | none =>
    have huse : x.block ∈ g.uses v := by
      have hnot : (g.expr v).isScan = false := by
        cases he : g.expr v with
        | scan s => rw [scan?_eq_some.2 he] at hscan; cases hscan
        | _ => rfl
      simp [uses, hnot, hmem]
    exact Nat.lt_asymm hv (ho.rank_lt v _ huse)

theorem IsScanned.expr_bounded_below (hx : x.IsScanned g) (hscans : g.ScansLocally)
    (ho : g.Ordered rank) (hlt : v < g.size) (hv : rank v < rank x.block) :
    (x.bounded g).expr v = g.expr v := by
  have hself : (g.expr v).mapChildren (redirect x.block g.size) = g.expr v := by
    refine Expr.mapChildren_eq_self fun c hc => if_neg ?_
    rintro rfl
    exact hx.not_mem_children hscans ho hv hc
  rw [expr_bounded (lt_size_of_block? hx.block_eq) hlt, hself, ite_self]

theorem sameShape_declared : SameShape (x.declared g) (x.result g) :=
  ((SameShape.refresh _ _).trans (SameShape.refresh _ _)).trans (SameShape.refresh _ _)

section
variable (hx : x.IsScanned g) (hg : g.Sound)
include hx hg

theorem IsScanned.expr_result_var : (x.result g).expr (x.var g) =
    .var { name := "$from", kind := .row, decl := some (x.client g) } := by
  rw [sameShape_declared.expr_eq]
  exact ((hx.isPending hg).expr_declare _).trans (if_pos rfl)

theorem IsScanned.varSource?_result_var : (x.result g).varSource? (x.var g) = some g.size := by
  rw [sameShape_declared.toSameExprs.varSource?_eq]
  exact ((hx.isPending hg).varSource?_declare _).trans (if_pos rfl)

theorem IsScanned.isCalm_declared : (x.declared g).IsCalm x.block ∧
    (x.declared g).IsCalm (x.var g) ∧ (x.declared g).IsCalm (x.client g) := by
  have hin := hx.isIn hg
  obtain ⟨expanded, server, hp⟩ := hin.exists_server
  simp only [← sameShape_declared.isCalm_iff]
  refine ⟨isCalm_of_inner ?_, ⟨fun a ha => ?_, fun hstale => ?_⟩, isCalm_of_inner ?_⟩
  · rw [block?_eq_some.1 (block?_result_block hin hp)]
    rfl
  · rw [hx.expr_result_var hg] at ha
    cases ha
  · obtain ⟨u, hu, hempty⟩ := hstale
    cases (hx.varSource?_result_var hg).symm.trans hu
    rw [expr_result_boundary hin hp] at hempty
    cases hempty
  · rw [block?_eq_some.1 (block?_result_client hin)]
    rfl

end

variable (hx : x.IsScanned g) (hm : g.Maintained S []) (hS : S x.block) (hscans : g.ScansLocally)
  (ho : g.Ordered rank)
include hx hm hS hscans ho

/-- The server part and the boundary leave what is below the block alone. -/
theorem IsScanned.spares_received :
    Spares (fun v => S v ∧ rank v < rank x.block) g (x.received g) := by
  have hin := hx.isIn hm.toSound
  obtain ⟨expanded, server, hp⟩ := hin.exists_server
  have hblock : (g.expr x.block).isScan = false := by
    rw [block?_eq_some.1 hx.block_eq]
    rfl
  have hlt {v : NodeId} (hv : S v ∧ rank v < rank x.block) : v < g.size := hm.inside v hv.1
  have hne {v : NodeId} (hv : S v ∧ rank v < rank x.block) : v ≠ x.block := by
    rintro rfl
    exact hv.2.false
  have hs : Spares (fun v => S v ∧ rank v < rank x.block) g g :=
    .refl fun v hv u hu => ⟨hm.reads_closed v hv.1 u hu,
      (ho.rank_lt v u (reads_subset_uses hu)).trans hv.2⟩
  -- The boundary.
  have hm₁ := hm.insertBoundary (d := x.scan.distribution) hx.live hblock hS
    (by simp [block?_eq_some.1 hx.block_eq])
  have hs := hs.inserted hm.toSound hx.live (boundaryOver x.scan.distribution)
    (fun v hv => hlt hv) (fun v hv => hx.not_mem_children hscans ho hv.2) fun v hv hsource =>
      Nat.lt_asymm hv.2 (ho.rank_lt v _ (reads_subset_uses (mem_reads_of_varSource? hsource)))
  have hs : Spares _ g (x.bounded g) := hs.refreshAll hm₁.toSound fun p hp => by
    refine isCalm_of_inner ?_
    rw [expr_inserted_of_lt hin.block_lt (hm.parents_lt _ p hp), if_pos hp, Expr.isLeaf_mapChildren]
    exact hm.parents_inner _ p hp
  -- The server part.
  have hm₂ := hx.maintained_bounded hm hS
  have hscope := hx.keepsScope hm.toSound hp
  have hlt₂ {v : NodeId} (hv : S v ∧ rank v < rank x.block) :
      v < (x.bounded g).size := lt_size_bounded (hlt hv)
  have hs := hs.step (fun v hv => hscope.expr_eq v (hlt₂ hv) (hne hv))
    (fun v hv => hscope.reforms.varSource?_eq (hlt₂ hv) id hm₂.toScoped)
    (fun v hv => hscope.live_eq v (hlt₂ hv)) fun v hv _ => hscope.type_eq v (hlt₂ hv)
  have hretouch : Retouches (x.server g).graph (x.received g) := retouches_received
  exact hs.step (fun v hv => expr_received_of_ne (hlt hv).ne)
    (fun v hv => hretouch.reforms.varSource?_eq (hp.edits.lt_size (hlt₂ hv)) id
      (hscope.scoped hm₂.toSound)) (fun v _ => hretouch.live_eq v)
    fun v _ _ => hretouch.type_eq v

variable (hrow : S x.rowVar)
include hrow

/-- So does the client part. -/
theorem IsScanned.spares_result :
    Spares (fun v => S v ∧ rank v < rank x.block) g (x.result g) := by
  have hboundary := (hx.isIn hm.toSound).boundary_lt
  have hs := hx.spares_received hm hS hscans ho
  have hm₃ := hx.maintained_received hm hS hrow
  have hlt {v : NodeId} (hv : S v ∧ rank v < rank x.block) : v < (x.received g).size :=
    (hm.inside v hv.1).trans hboundary
  -- The variable of the client part and its fields are added.
  have hs := hs.step (fun v hv => expr_clientFields_of_lt (hlt hv))
    (fun v hv => varSource?_clientFields hm₃.toSound (hlt hv))
    (fun v hv => by rw [isLive, node_clientFields_of_lt (hlt hv), isLive])
    fun v hv _ => (by rw [type?, node_clientFields_of_lt (hlt hv), type?] :
      (x.prepared g).type? v = _)
  -- The boundary is new, so that nothing below the block uses it.
  have hnew {u v : NodeId} (hv : S v) (hu : u ∈ g.children v ∨ u ∈ g.reads v) : u ≠ g.size :=
    (hm.inside u (hm.closed v hv u hu)).ne
  have hs : Spares _ g (x.grown g) := hs.inserted (hm₃.clientFields _).toSound
    (by rw [isLive, node_clientFields_of_lt hboundary]; exact hx.live_received hm.toSound) _
    (fun v hv => lt_clientFields (hlt hv)) (fun v hv hmem => hnew hv.1 (.inl hmem) rfl)
    fun v hv hsource => hnew hv.1 (.inr (mem_reads_of_varSource? hsource)) rfl
  have hm₅ := hx.maintained_grown hm hS hrow
  have hcalm : ∀ p ∈ (x.received g).parents g.size, (x.grown g).IsCalm p := fun p hp => by
    refine isCalm_of_inner ?_
    rw [grown, Graph.expr, node_clientGraph_of_lt hboundary (hm₃.parents_lt _ p hp)]
    simp only [if_pos hp, Expr.isLeaf_mapChildren]
    exact hm₃.parents_inner _ p hp
  have hs := hs.refreshAll hm₅.toSound hcalm
  have hs : Spares _ g (x.declared g) :=
    hs.declare (hx.isPending hm.toSound) fun v hv => (hlt hv).ne
  -- The block, the variable and the client part are refreshed.
  have hsound := (hx.maintained_declared hm hS hrow).toSound
  obtain ⟨hblock, hvar, hclient⟩ := hx.isCalm_declared hm.toSound
  have hs := hs.refresh hsound hblock
  have hshape := SameShape.refresh (x.declared g) x.block
  have hs := hs.refresh (hshape.sound hsound) ((hshape.isCalm_iff _).2 hvar)
  have hshape := hshape.trans (SameShape.refresh ((x.declared g).refresh x.block) (x.var g))
  exact hs.refresh (hshape.sound hsound) ((hshape.isCalm_iff _).2 hclient)

theorem IsScanned.exprType_result (hv : S v) (hlt : rank v < rank x.block) :
    (x.result g).exprType v = g.exprType v :=
  (hx.spares_result hm hS hscans ho hrow).exprType_eq hm (hx.maintained_result hm hS hrow)
    (fun _ hB => ⟨hB.1, .inl hB.1⟩) ⟨hv, hlt⟩

end

end SplitSite

end ShardedQuery
