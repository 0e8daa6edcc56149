import ShardedQuery.Proofs.Split.Links

/-!
# What becomes of the slots of one block

Handling a block that scans a table puts one or two nodes above it, the boundary and, if the block
is split, the client part. `SplitSite.Distributes` says what this does to a graph: every slot that
held the block holds the upper one of these nodes, only the boundary still holds the block, and the
slots of the block itself stay where they are, but for the window, which the client part takes over
(`Block.IsDivided`).
-/

namespace ShardedQuery

open List

/-- The slots of `b` are found again in a server part and in a client part over the boundary: the
window in the client part, all other slots in the server part, which may select more. The server part
has no offset, and its limit is the end of the window. -/
structure Block.IsDivided (b : Block) (k : Graph) (server client : Block) (boundary : NodeId) :
    Prop where
  entries : server.entries = b.entries
  condition : server.condition = b.condition
  select : b.select <+: server.select
  sort : server.sort = b.sort
  offset : server.offset = none
  input : ∃ var, client.entries = [⟨boundary, var⟩]
  window : client.offset = b.offset ∧ client.limit = b.limit
  limit_none : b.limit = none → server.limit = none
  limit_eq : b.offset = none → server.limit = b.limit
  limit_end : ∀ o ∈ b.offset, ∀ l ∈ b.limit, ∃ e, server.limit = some e ∧ k.isLive e ∧
    k.expr e = k.windowEnd o l

theorem Expr.mapChildren_block (f : NodeId → NodeId) (b : Block) :
    (Expr.block b).mapChildren f = .block (b.mapSlots f) := rfl

theorem Block.mapSlots_mapSlots (f k : NodeId → NodeId) (b : Block) :
    (b.mapSlots f).mapSlots k = b.mapSlots (k ∘ f) := by
  have h := Expr.mapChildren_mapChildren f k (.block b)
  simp only [Expr.mapChildren_block] at h
  exact Expr.block.inj h

open ShardedQuery.Graph

/-- The parts stay parts in a graph with other nodes in its slots. -/
theorem Block.IsDivided.mapSlots {b server client : Block} {boundary : NodeId} {k m : Graph}
    {f : NodeId → NodeId} (h : b.IsDivided k server client boundary)
    (hexpr : ∀ e o l, k.isLive e → k.expr e = k.windowEnd o l →
      f e = e ∧ m.isLive e ∧ m.expr e = (k.expr e).mapChildren f)
    (hconst : ∀ v ∈ b.offset.toList ++ b.limit.toList, m.constantInt? (f v) = k.constantInt? v) :
    (b.mapSlots f).IsDivided m (server.mapSlots f) (client.mapSlots f) (f boundary) := by
  obtain ⟨var, hinput⟩ := h.input
  refine
    { entries := by simp only [Block.mapSlots, h.entries]
      condition := by simp only [Block.mapSlots, h.condition]
      select := h.select.map _
      sort := by simp only [Block.mapSlots, h.sort]
      offset := by simp only [Block.mapSlots, h.offset, Option.map_none]
      input := ⟨var, by simp only [Block.mapSlots, hinput, map_cons, map_nil]⟩
      window := by simp only [Block.mapSlots, h.window, and_self]
      limit_none := fun hl => ?_
      limit_eq := fun ho => ?_
      limit_end := fun o' ho' l' hl' => ?_ }
  · simp only [Block.mapSlots, h.limit_none (Option.map_eq_none_iff.1 hl), Option.map_none]
  · simp only [Block.mapSlots, h.limit_eq (Option.map_eq_none_iff.1 ho)]
  · obtain ⟨o, ho, rfl⟩ := Option.map_eq_some_iff.1 ho'
    obtain ⟨l, hl, rfl⟩ := Option.map_eq_some_iff.1 hl'
    obtain ⟨e, he, hlive, hend⟩ := h.limit_end o ho l hl
    obtain ⟨hself, hlive', he'⟩ := hexpr e o l hlive hend
    refine ⟨e, by simp only [Block.mapSlots, he, Option.map_some, hself], hlive', ?_⟩
    rw [he', hend, windowEnd, windowEnd, hconst o (by simp [ho]), hconst l (by simp [hl])]
    split
    · split <;> rfl
    · rfl

namespace SplitSite

/-- `h` is the graph `g` after the block of a site was handled, with `top` in its place. -/
structure Distributes (x : SplitSite) (g h : Graph) (top : NodeId) : Prop where
  sound : h.Sound
  balanced : h.Balanced
  top_mem : g.size ≤ top ∧ top < h.size
  root_eq : h.root = g.root.map (redirect x.block top)
  live_eq : ∀ v, v < g.size → h.isLive v = g.isLive v
  live_new : ∀ v, g.size ≤ v → v < h.size → h.isLive v
  expr_eq : ∀ v, g.isLive v → v ≠ x.block →
    h.expr v = (g.expr v).mapChildren (redirect x.block top)
  boundary : ∃ r, h.expr g.size = .receive r ∧ r.input = x.block
  /-- New nodes above the boundary use new nodes, the row variable and what the block used. -/
  new_children : ∀ v, g.size < v → ∀ c ∈ h.children v,
    g.size ≤ c ∨ c = x.rowVar ∨ c ∈ g.children x.block
  new_block : ∀ v b, g.size ≤ v → h.block? v = some b → ∃ e, b.entries = [e] ∧ e.domain = g.size
  block_children : ∀ c ∈ h.children x.block, c ∈ g.children x.block ∨ g.size ≤ c
  parts : (x.isSplit = false ∧ top = g.size ∧ h.expr x.block = g.expr x.block) ∨
    (x.isSplit ∧ ∃ server client, h.block? x.block = some server ∧ h.block? top = some client ∧
      x.b.IsDivided h server client g.size)

theorem ite_eq_map_redirect {r : Option NodeId} {old new : NodeId} :
    (if r = some old then some new else r) = r.map (redirect old new) := by
  cases r with
  | none => rfl
  | some r =>
    by_cases hr : r = old
    · simp [hr, redirect]
    · simp [hr, redirect]

/-- What goes to a node in the middle goes on from there. -/
theorem redirect_redirect {old middle new c : NodeId} (hc : c ≠ middle) :
    redirect middle new (redirect old middle c) = redirect old new c := by
  simp only [redirect]
  by_cases hold : c = old
  · simp [hold]
  · simp [hold, hc]

section
variable {x : SplitSite} {g : Graph} (hx : x.IsScanned g) (hg : g.Sound) (hbal : g.Balanced)
include hx hg hbal

/-- A block that is not split. -/
theorem IsScanned.distributes_bounded (hsplit : x.isSplit = false) :
    x.Distributes g (x.bounded g) g.size := by
  have hin := hx.isIn hg
  have hshape : SameShape _ (x.bounded g) := SameShape.refreshAll _ _
  have hexpr : (x.bounded g).expr x.block = g.expr x.block := by
    rw [block?_eq_some.1 (block?_bounded hin.block_eq hin.anchored), block?_eq_some.1 hin.block_eq]
  have hlast {v : NodeId} (hge : g.size ≤ v) (hv : v < (x.bounded g).size) :
      v = g.size := by
    rw [size_bounded] at hv
    exact Nat.le_antisymm (Nat.le_of_lt_succ hv) hge
  refine
    { sound := hx.sound_bounded hg
      balanced := hx.balanced_bounded hbal
      top_mem := ⟨le_rfl, size_lt_bounded⟩
      root_eq := by rw [root_bounded, ite_eq_map_redirect]
      live_eq := fun v hv => ?_
      live_new := fun v hge hv => ?_
      expr_eq := fun v hv _ => ?_
      boundary := ⟨_, expr_bounded_boundary hin.block_eq hin.anchored, rfl⟩
      new_children := fun v hv c hc => ?_
      new_block := fun v b hge hb => ?_
      block_children := fun c hc => .inl ?_
      parts := .inl ⟨hsplit, rfl, hexpr⟩ }
  · rw [isLive_bounded hin.block_lt hv]
  · rw [hlast hge hv, hshape.live_eq, isLive, node_inserted_self hin.block_lt (hg.parents_lt _)]
  · rw [hshape.expr_eq, hbal.expr_inserted hx.live hv]
  · rw [children, expr_of_size_le (size_bounded ▸ hv)] at hc
    cases hc
  · rw [hlast hge (lt_size_of_block? hb), block?,
      expr_bounded_boundary hin.block_eq hin.anchored] at hb
    cases hb
  · rwa [children, hexpr] at hc

/-- What held the block holds the client part. What holds the boundary is known to it, so that both
redirections reach all slots. -/
theorem IsScanned.expr_result (hstar : x.b.star → x.b.select = []) {v : NodeId} (hv : g.isLive v)
    (hne : v ≠ x.block) :
    (x.result g).expr v = (g.expr v).mapChildren (redirect x.block (x.client g)) := by
  have hin := hx.isIn hg
  have hlt := lt_size_of_isLive hv
  obtain ⟨expanded, server, hp⟩ := hin.exists_server
  have htallied : (x.received g).Tallied := (hx.fits_received hg hbal hstar hp).tallied
    (by rw [hin.isLive_received hin.block_lt]; exact hx.live)
  have hreceived : (x.received g).expr v = (g.expr v).mapChildren (redirect x.block g.size) := by
    rw [hin.expr_received hlt hne, bounded, Graph.bounded, (SameShape.refreshAll _ _).expr_eq,
      hbal.expr_inserted hx.live hv]
  have hboth : (x.result g).expr v =
      ((x.received g).expr v).mapChildren (redirect g.size (x.client g)) := by
    rw [expr_result_of_lt hin (hin.lt_size_received hlt)]
    split
    · rfl
    · next hnot =>
      refine (Expr.mapChildren_eq_self fun c hc => if_neg ?_).symm
      rintro rfl
      exact hnot ((htallied.mem_parents_iff (hx.live_received hg)).2
        ⟨by rw [hin.isLive_received hlt]; exact hv, hc⟩)
  rw [hboth, hreceived, Expr.mapChildren_mapChildren]
  exact Expr.mapChildren_congr fun c hc =>
    redirect_redirect (hbal.children_lt v hv c hc).ne

omit hbal in
/-- The slots of a block are found again in its server part and in the client part. -/
theorem IsScanned.isDivided_result {expanded server : Block}
    (hp : x.IsServed g expanded server) (hstar : x.b.star → x.b.select = []) :
    x.b.IsDivided (x.result g) server (x.clientBlock g) g.size := by
  have hin := hx.isIn hg
  have hfields : x.b.select <+: expanded.select := by
    rcases hp.star with rfl | ⟨fields, select, hs, -, rfl, -, -⟩
    · exact prefix_refl _
    · rw [hstar hs]
      exact nil_prefix
  obtain ⟨extra, hselect, -⟩ := hp.generated
  obtain ⟨hentries, hcondition, hsort, hoffset⟩ := hp.clauses_eq
  refine ⟨hentries, hcondition, hfields.trans (hselect ▸ prefix_append _ _), hsort, hoffset,
    ⟨_, rfl⟩, ⟨rfl, rfl⟩, hp.limit_none, hp.limit_eq, fun o ho l hl => ?_⟩
  obtain ⟨e, he, hgt, hlt, hexpr⟩ := hin.exists_limit_result hp ho hl
  have hsize : e < (x.result g).size :=
    size_result ▸ Nat.lt_succ_of_lt (hlt.trans_le size_received_le_client)
  have hconst {u : NodeId} (hu : u ∈ x.b.offset.toList ++ x.b.limit.toList) :
      (x.result g).constantInt? u = (x.bounded g).constantInt? u := by
    have hmem : u ∈ g.children x.block := by
      rw [children_of_block? hx.block_eq, children_window]
      exact mem_append_right _ hu
    have hult := hin.anchored.children_lt u hmem
    have hne : u ≠ x.block := fun h => hin.anchored.not_self (h ▸ hmem)
    have hu := expr_result_of_lt hin (hin.lt_size_received hult)
    rw [hin.expr_received hult hne] at hu
    split at hu
    · exact constantInt?_mapChildren hu
    · rw [constantInt?, hu, constantInt?]
  refine ⟨e, he, (hx.result_new hg hgt hsize).1, ?_⟩
  rw [hexpr, windowEnd, windowEnd, hconst (by simp [Option.mem_def.1 ho]),
    hconst (by simp [Option.mem_def.1 hl])]

/-- A block that is split. -/
theorem IsScanned.distributes_result (hsplit : x.isSplit)
    (hroot : ∀ r, g.root = some r → r < g.size) (hstar : x.b.star → x.b.select = []) :
    x.Distributes g (x.result g) (x.client g) := by
  have hin := hx.isIn hg
  have hboundary := hin.boundary_lt
  obtain ⟨expanded, server, hp⟩ := hin.exists_server
  have hsize := size_result (x := x) (g := g)
  have hclient : (x.received g).size < x.client g := by
    rw [client, size_clientFields]
    omega
  have hclientBlock := block?_result_client hin
  have hserver := block?_result_block hin hp
  refine
    { sound := hx.sound_result hg
      balanced := hx.balanced_result hg hbal hstar
      top_mem := ⟨Nat.le_of_lt (hboundary.trans hclient), hsize ▸ Nat.lt_succ_self _⟩
      root_eq := ?_
      live_eq := fun v hv => ?_
      live_new := fun v hge hv => ?_
      expr_eq := fun v hv hne => hx.expr_result hg hbal hstar hv hne
      boundary := ⟨_, expr_result_boundary hin hp, rfl⟩
      new_children := fun v hv c hc => ?_
      new_block := fun v b hge hb => ?_
      block_children := fun c hc => ?_
      parts := .inr ⟨hsplit, server, x.clientBlock g, hserver, hclientBlock,
        hx.isDivided_result hg hp hstar⟩ }
  · rw [hin.root_result, ite_eq_map_redirect, root_bounded, ite_eq_map_redirect, Option.map_map]
    exact Option.map_congr fun r hr => redirect_redirect (hroot r hr).ne
  · rw [isLive_result_of_lt hin (hin.lt_size_received hv), hin.isLive_received hv]
  · rcases Nat.eq_or_lt_of_le hge with rfl | hgt
    · rw [isLive_result_of_lt hin hboundary]
      exact hx.live_received hg
    · exact (hx.result_new hg hgt hv).1
  · have hvlt : v < (x.result g).size := Nat.lt_of_not_le fun hle => by
      rw [children, expr_of_size_le hle] at hc
      cases hc
    have hwindow {u : NodeId} (hu : u ∈ x.b.offset.toList ++ x.b.limit.toList) :
        u ∈ g.children x.block := by
      rw [children_of_block? hx.block_eq, children_window]
      exact mem_append_right _ hu
    rcases (hx.result_new hg hv hvlt).2 with rfl | ⟨-, hnew⟩
    · rw [children_of_block? hclientBlock] at hc
      rcases mem_children_clientBlock hc with rfl | ⟨f, hf, rfl⟩ | hc
      · exact .inl le_rfl
      · exact .inl (Nat.le_of_lt (hboundary.trans (lt_of_mem_clientFields hf).1))
      · exact .inr (.inr (hwindow hc))
    · refine (hnew c hc).imp_right fun hops => ?_
      exact (mem_cons.1 hops).imp_right hwindow
  · rcases Nat.eq_or_lt_of_le hge with rfl | hgt
    · rw [block?, expr_result_boundary hin hp] at hb
      cases hb
    · rcases (hx.result_new hg hgt (lt_size_of_block? hb)).2 with rfl | ⟨hnone, -⟩
      · rw [hclientBlock] at hb
        cases hb
        exact ⟨⟨g.size, x.var g⟩, rfl, rfl⟩
      · rw [block?_eq_some.1 hb] at hnone
        cases hnone
  · rw [children_of_block? hserver] at hc
    rw [children_of_block? hx.block_eq]
    refine (hp.mem_children hc).imp_right fun h => ?_
    rw [size_bounded] at h
    exact Nat.le_of_lt h.1

end

end SplitSite

end ShardedQuery
