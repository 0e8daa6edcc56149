import ShardedQuery.Proofs.Split.Locality

/-!
# Links across a split

A split moves the window of a block to the client part, appends fields to its select list and puts
two nodes above it, and each change of a slot goes with a change of a parent list. So a tallied graph
is tallied when the boundary is put above a block
(`SplitSite.IsScanned.balanced_bounded`), and when the block is split
(`SplitSite.IsScanned.balanced_result`). Neither rests on types.
-/

namespace ShardedQuery.Graph

/-- The node is the block `b`, and parent lists agree with the slots of all nodes. -/
structure Fits (g : Graph) (block : NodeId) (b : Block) : Prop
    extends g.TalliedBut block (Expr.block b).children where
  block_eq : g.block? block = some b

section
variable {g : Graph} {block : NodeId} {b : Block}

theorem Fits.lt_size (hf : g.Fits block b) : block < g.size := lt_size_of_block? hf.block_eq

theorem Fits.tallied (hf : g.Fits block b) (hlive : g.isLive block) : g.Tallied :=
  hf.toTalliedBut.tallied hlive (by rw [children_of_block? hf.block_eq])

theorem Fits.add (hf : g.Fits block b) {e : Expr} (he : ∀ c ∈ e.children, c < g.size) :
    (g.add e).2.Fits block b :=
  ⟨hf.toTalliedBut.add hf.lt_size he,
    (block?_congr (expr_add_of_lt e hf.lt_size)).trans hf.block_eq⟩

theorem Fits.clientFields (hf : g.Fits block b) (requested : List String) :
    (g.clientFields requested).2.Fits block b := by
  have hadded : (g.addVar "$from" .row).2.Fits block b := hf.add fun c hc => by cases hc
  exact addFields_induct (P := (·.Fits block b)) requested
    (fun k _ hlt hk => hk.add fun c hc => List.mem_singleton.1 hc ▸ hlt) hadded
    (size_addVar ▸ Nat.lt_succ_self _)

theorem Fits.balanced (hf : g.Fits block b) (hlive : g.isLive block) : g.Balanced := by
  refine ⟨hf.tallied hlive, fun p hp c hc => ?_⟩
  by_cases hpb : p = block
  · rw [hpb, children_of_block? hf.block_eq] at hc
    exact hf.slots_lt c hc
  · exact hf.children_lt p hp hpb c hc

theorem Balanced.fits (hg : g.Balanced) (hb : g.block? block = some b) (hlive : g.isLive block) :
    g.Fits block b := by
  have hbut := hg.but hlive hg.children_lt
  rw [children_of_block? hb] at hbut
  exact ⟨hbut, hb⟩

end

end ShardedQuery.Graph

namespace ShardedQuery.SplitSite

open ShardedQuery.Graph

variable {g : Graph}

section
variable {x : SplitSite} (hx : x.IsScanned g) (hg : g.Sound) (hbal : g.Balanced)
include hx hbal

theorem IsScanned.balanced_bounded : (x.bounded g).Balanced :=
  (SameShape.refreshAll _ _).balanced (hbal.inserted hx.live fun c hc => by
    rw [List.mem_singleton.1 hc]
    exact lt_size_of_isLive hx.live)

variable (hstar : x.b.star → x.b.select = [])
include hg hstar

/-- The links of the server part agree with its slots when the boundary knows it. -/
theorem IsScanned.fits_received {expanded server : Block}
    (hp : x.IsServed g expanded server) : (x.received g).Fits x.block server := by
  have hin := hx.isIn hg
  have hbounded : (x.bounded g).Fits x.block x.b := by
    refine (hx.balanced_bounded hbal).fits (block?_bounded hin.block_eq hin.anchored) ?_
    rw [isLive_bounded hin.block_lt hin.block_lt]
    exact hx.live
  have hserver := hp.tallied hstar hbounded.toTalliedBut
  -- The boundary keeps its slot.
  have hretouch : Retouches (x.server g).graph (x.received g) := retouches_received
  refine ⟨hserver.congr hretouch.size_eq hretouch.parents_eq hretouch.live_eq
    fun v _ => ?_, ?_⟩
  · by_cases hv : v = g.size
    · rw [hv, children, expr_received_boundary hin hp, children, hin.expr_server_boundary]
      rfl
    · rw [children, expr_received_of_ne hv, children]
  · rw [block?_congr (expr_received_of_ne hin.block_lt.ne)]
    exact hp.block_eq

theorem IsScanned.balanced_result : (x.result g).Balanced := by
  have hin := hx.isIn hg
  have hboundary := hin.boundary_lt
  obtain ⟨expanded, server, hp⟩ := hin.exists_server
  have hreceived := hx.fits_received hg hbal hstar hp
  have hclient := hreceived.clientFields (x.server g).requested
  have hlive {v : NodeId} (hv : v < (x.received g).size) :
      (x.prepared g).isLive v =
        (x.received g).isLive v := by
    rw [isLive, node_clientFields_of_lt hv, isLive]
  have hblive : (x.received g).isLive x.block := by
    rw [hin.isLive_received hin.block_lt]
    exact hx.live
  have hgrown : (x.grown g).Balanced := by
    refine (hclient.balanced ?_).inserted ?_ (isInsertable_client hboundary (hx.window_lt hg)
      (hx.isScan_received hg)).children_lt
    · rw [hlive (hin.lt_size_received hin.block_lt)]
      exact hblive
    · rw [hlive hboundary]
      exact hx.live_received hg
  refine sameShape_result.balanced (hgrown.congr (size_modify ..) (fun _ => parents_modifyExpr _ _)
    (fun _ => isLive_modifyExpr _ _) fun v => ?_)
  rw [children, Graph.declare, expr_modifyExpr]
  split
  · rw [children]
    cases (x.grown g).expr v <;> rfl
  · rfl

end

end ShardedQuery.SplitSite
