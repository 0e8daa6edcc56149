import ShardedQuery.Proofs.Access.CompleteKey
import ShardedQuery.Proofs.Passes
import ShardedQuery.Proofs.Split.Step

/-!
# Well-formed graphs across the distribution of a query

The pass over the blocks of a query keeps parent lists and slots in step, leaves no node below
itself and gives living nodes of the query nothing dead to use (`Graph.WellFormed`). A map of nodes
says where each slot of the query has gone (`Graph.Redirects`): the map sends a block that scans a
table to the boundary over it, or to the client part over the boundary, and all other nodes to
themselves. `Graph.Distributed` is what holds while the pass runs.
-/

namespace ShardedQuery

open Relation List

variable {block boundary p root top u v : NodeId} {g h : Graph} {b : Block} {c : Catalog}
  {σ : NodeId → NodeId} {done : NodeId → Prop} {s : TableScan}

namespace Graph

/-- Parent lists agree with slots, nothing lies below itself, and what living nodes of the query use
is alive. -/
structure WellFormed (g : Graph) : Prop extends Tallied g where
  acyclic : ∀ v, ¬ TransGen g.IsChild v v
  children_live : ∀ p, g.InQuery p → g.isLive p → ∀ c ∈ g.children p, g.isLive c

/-- The node is a block whose first FROM entry scans a table. -/
def IsTableBlock (g : Graph) (v : NodeId) : Prop :=
  ∃ b e, g.block? v = some b ∧ b.entries.head? = some e ∧ (g.expr e.domain).isScan

/-- The node is a block that sorts, windows or removes duplicates, and the rows that it scans come
from several places. -/
def NeedsClient (g : Graph) (v : NodeId) : Prop :=
  ∃ b e s, g.block? v = some b ∧ b.entries.head? = some e ∧ g.scan? e.domain = some s ∧
    s.singlePartition = false ∧ (b.hasSort || b.offset.isSome || b.limit.isSome || s.dedup)

/-- The node is the boundary over a block, and the only parent of the block. -/
structure IsBoundary (g : Graph) (boundary block : NodeId) : Prop where
  input_eq : ∃ r, g.expr boundary = .receive r ∧ r.input = block
  parents_eq : g.parents block = [boundary]

/-- The slots of `g` are found again in `h`, with other nodes in them. A block of the query that
scans a table gives way to the boundary over it or, if it needs a client part, to that part, which
takes over its window. -/
structure Redirects (g h : Graph) (σ : NodeId → NodeId) : Prop where
  root_eq : h.root = g.root.map σ
  eq_self : ∀ v, ¬ (g.InQuery v ∧ g.IsTableBlock v) → σ v = v
  expr_eq : ∀ p, g.isLive p → ¬ (g.InQuery p ∧ g.IsTableBlock p) →
    h.expr p = (g.expr p).mapChildren σ
  block : ∀ block b, g.InQuery block → g.IsTableBlock block → g.block? block = some b →
    ∃ boundary, h.IsBoundary boundary block ∧
      ((¬ g.NeedsClient block ∧ σ block = boundary ∧ h.block? block = some (b.mapSlots σ)) ∨
        (g.NeedsClient block ∧ ∃ server client, h.block? block = some server ∧
          h.block? (σ block) = some client ∧ (b.mapSlots σ).IsDivided h server client boundary))

/-! ## While the pass runs -/

/-- What may come into the slots of the query: its own nodes, variables, and new nodes. -/
def Held (g : Graph) (v : NodeId) : Prop :=
  g.InQuery v ∨ (g.isLive v ∧ (g.expr v).isVar) ∨ g.size ≤ v

/-- A block that was handled, with the boundary over it. -/
structure IsPlaced (g k : Graph) (σ : NodeId → NodeId) (block boundary : NodeId) : Prop where
  live : g.isLive block
  new : g.size ≤ boundary ∧ boundary < k.size
  input_eq : ∃ r, k.expr boundary = .receive r ∧ r.input = block
  only : ∀ p, k.isLive p → block ∈ k.children p → p = boundary
  top_mem : g.size ≤ σ block ∧ σ block < k.size
  parts : ∃ b, g.block? block = some b ∧
    ((¬ g.NeedsClient block ∧ σ block = boundary ∧ k.block? block = some (b.mapSlots σ)) ∨
      (g.NeedsClient block ∧ ∃ server client, k.block? block = some server ∧
        k.block? (σ block) = some client ∧ (b.mapSlots σ).IsDivided k server client boundary))

/-- The graph `g` has become `k` when the blocks of `done` were handled. -/
structure Distributed (g : Graph) (done : NodeId → Prop) (σ : NodeId → NodeId) (k : Graph) :
    Prop where
  sound : k.Sound
  scans : k.ScansLocally
  balanced : k.Balanced
  size_le : g.size ≤ k.size
  root_eq : k.root = g.root.map σ
  live_eq : ∀ v, v < g.size → k.isLive v = g.isLive v
  live_new : ∀ v, g.size ≤ v → v < k.size → k.isLive v
  eq_self : ∀ v, ¬ done v → σ v = v
  expr_eq : ∀ p, g.isLive p → ¬ done p → k.expr p = (g.expr p).mapChildren σ
  closed : ∀ v, g.Held v → ∀ c ∈ k.children v, g.Held c
  new_block : ∀ v b, g.size ≤ v → k.block? v = some b →
    ∃ e, b.entries = [e] ∧ (k.expr e.domain).isScan = false
  placed : ∀ block, done block → ∃ boundary, IsPlaced g k σ block boundary

section
variable {k : Graph}

theorem block?_mapChildren {f : NodeId → NodeId} (he : h.expr v = (g.expr v).mapChildren f) :
    h.block? v = (g.block? v).map (Block.mapSlots f) := by
  unfold block?
  rw [he]
  cases g.expr v <;> rfl

section
variable (hd : Distributed g done σ k)
include hd

theorem Distributed.isLive_eq (hv : g.isLive v) : k.isLive v :=
  (hd.live_eq v (lt_size_of_isLive hv)).trans hv

theorem Distributed.isLive_of_held (hquery : ∀ v, g.InQuery v → g.isLive v) (hv : g.Held v)
    (hlt : v < k.size) : k.isLive v := by
  rcases hv with hv | ⟨hv, -⟩ | hv
  · exact hd.isLive_eq (hquery v hv)
  · exact hd.isLive_eq hv
  · exact hd.live_new v hv hlt

/-- Scans stay scans, and nothing else becomes one. -/
theorem Distributed.isScan_eq (hv : g.isLive v) : (k.expr (σ v)).isScan = (g.expr v).isScan := by
  by_cases hdone : done v
  · obtain ⟨boundary, hp⟩ := hd.placed v hdone
    obtain ⟨b, hb, hparts⟩ := hp.parts
    rw [isScan_of_block? hb]
    rcases hparts with ⟨-, heq, -⟩ | ⟨-, -, client, -, hclient, -⟩
    · obtain ⟨r, hr, -⟩ := hp.input_eq
      rw [heq, hr]
      rfl
    · exact isScan_of_block? hclient
  · rw [hd.eq_self v hdone, hd.expr_eq v hv hdone, Expr.isScan_mapChildren]

/-- A block that is still to be handled scans a table if it did so at the start. -/
theorem Distributed.isTableBlock_iff (hv : g.isLive v) (hchildren : ∀ c ∈ g.children v, g.isLive c)
    (hnot : ¬ done v) : k.IsTableBlock v ↔ g.IsTableBlock v := by
  have hblock := block?_mapChildren (hd.expr_eq v hv hnot)
  have hscan {b : Block} {e : FromEntry} (hb : g.block? v = some b) (he : b.entries.head? = some e) :
      (k.expr (σ e.domain)).isScan = (g.expr e.domain).isScan := by
    exact hd.isScan_eq (hchildren _ (domain_mem_children hb (mem_of_head? he)))
  constructor
  · rintro ⟨b', e', hb', he', hs⟩
    rw [hblock] at hb'
    obtain ⟨b, hb, rfl⟩ := Option.map_eq_some_iff.1 hb'
    rw [Block.mapSlots, head?_map] at he'
    obtain ⟨e, he, rfl⟩ := Option.map_eq_some_iff.1 he'
    exact ⟨b, e, hb, he, (hscan hb he).symm.trans hs⟩
  · rintro ⟨b, e, hb, he, hs⟩
    refine ⟨b.mapSlots σ, { e with domain := σ e.domain }, by rw [hblock, hb]; rfl, ?_,
      (hscan hb he).trans hs⟩
    rw [Block.mapSlots, head?_map, he]
    rfl

end

/-! ## One block -/

section
variable {x : SplitSite} (hx : x.IsScanned k) (hk : k.Sound) (hstep : x.Distributes k h top)
include hx

theorem isVar_rowVar (hk : k.Sound) : (k.expr x.rowVar).isVar := by
  obtain ⟨e, he, hvar, hscan⟩ := hx.entry
  obtain ⟨v, hv, -⟩ := hk.scanned x.block x.b e x.scan hx.block_eq he hscan
  rw [← hvar, hv]
  rfl

include hstep

/-- What does not depend on slots, and is the same for all blocks and boundaries, is seen in the place
of a node as it was in the node. -/
theorem view_redirect {α : Type} {f : Expr → α} {a : α} (hslots : ∀ ρ e, f (e.mapChildren ρ) = f e)
    (hblock : ∀ b, f (.block b) = a) (hreceive : ∀ r, f (.receive r) = a) (hv : k.isLive v) :
    f (h.expr (redirect x.block top v)) = f (k.expr v) := by
  unfold redirect
  split
  · next heq =>
    rw [heq, block?_eq_some.1 hx.block_eq, hblock]
    rcases hstep.parts with ⟨-, htop, -⟩ | ⟨-, -, client, -, hclient, -⟩
    · obtain ⟨r, hr, -⟩ := hstep.boundary
      rw [htop, hr, hreceive]
    · rw [block?_eq_some.1 hclient, hblock]
  · next hne => rw [hstep.expr_eq v hv hne, hslots]

theorem isScan_redirect (hv : k.isLive v) :
    (h.expr (redirect x.block top v)).isScan = (k.expr v).isScan :=
  view_redirect hx hstep (fun _ _ => Expr.isScan_mapChildren) (fun _ => rfl) (fun _ => rfl) hv

theorem constantInt?_redirect (hv : k.isLive v) :
    h.constantInt? (redirect x.block top v) = k.constantInt? v :=
  view_redirect (f := Expr.toInt?) hx hstep (fun _ e => by cases e <;> rfl) (fun _ => rfl)
    (fun _ => rfl) hv

include hk

/-- Who has a block in a slot afterwards: the boundary has the block that was handled, and what had
another block still has it. -/
theorem eq_of_mem_children {b : NodeId} (hp : h.isLive p) (hb : b ∈ h.children p)
    (hblock : (k.expr b).isBlock) (hlt : b < k.size) :
    (b = x.block ∧ p = k.size) ∨
      (b ≠ x.block ∧ (b ∈ k.children p ∨ (b ∈ k.children x.block ∧ k.size < p))) := by
  have hin := hx.isIn hk
  rcases Nat.lt_or_ge p k.size with hpk | hpk
  · by_cases hpb : p = x.block
    · subst hpb
      rcases hstep.block_children b hb with hb | hb
      · exact .inr ⟨fun heq => hin.anchored.not_self (heq ▸ hb), .inl hb⟩
      · exact absurd hb (not_le.2 hlt)
    · rw [hstep.live_eq p hpk] at hp
      rw [children, hstep.expr_eq p hp hpb, Expr.children_mapChildren] at hb
      obtain ⟨d, hd, hdb⟩ := mem_map.1 hb
      unfold redirect at hdb
      split at hdb
      · exact absurd (hdb ▸ hstep.top_mem.1) (not_le.2 hlt)
      · next hne => exact .inr ⟨hdb ▸ hne, .inl (hdb ▸ hd)⟩
  · rcases Nat.eq_or_lt_of_le hpk with rfl | hpk
    · obtain ⟨r, hr, hinput⟩ := hstep.boundary
      rw [children, hr] at hb
      exact .inl ⟨(mem_singleton.1 hb).trans hinput, rfl⟩
    · rcases hstep.new_children p hpk b hb with hb | rfl | hb
      · exact absurd hb (not_le.2 hlt)
      · have hvar := isVar_rowVar hx hk
        cases he : k.expr x.rowVar <;> simp [he, Expr.isVar, Expr.isBlock] at hvar hblock
      · exact .inr ⟨fun heq => hin.anchored.not_self (heq ▸ hb), .inr ⟨hb, hpk⟩⟩

end

section
variable {x : SplitSite} (hd : Distributed g done σ k) (hx : x.IsScanned k)
  (hlive : g.isLive x.block) (hnot : ¬ done x.block) (hstep : x.Distributes k h top)
include hd hx hlive hnot hstep

/-- A block that was handled before keeps its place. -/
theorem IsPlaced.step (hquery : ∀ v, g.InQuery v → g.isLive v) (hdone : done block)
    (hp : IsPlaced g k σ block boundary) :
    IsPlaced g h (fun v => redirect x.block top (σ v)) block boundary := by
  have hxlt := lt_size_of_isLive hlive
  have hne : block ≠ x.block := fun heq => hnot (heq ▸ hdone)
  have hblt : block < k.size := (lt_size_of_isLive hp.live).trans_le hd.size_le
  have hold {v : NodeId} (hge : g.size ≤ v) (hlt : v < k.size) :
      redirect x.block top v = v ∧ h.expr v = (k.expr v).mapChildren (redirect x.block top) := by
    have hvx : v ≠ x.block := Nat.ne_of_gt (hxlt.trans_le hge)
    exact ⟨if_neg hvx, hstep.expr_eq v (hd.live_new v hge hlt) hvx⟩
  have htop := hold hp.top_mem.1 hp.top_mem.2
  have hself : h.expr block = (k.expr block).mapChildren (redirect x.block top) :=
    hstep.expr_eq block (hd.isLive_eq hp.live) hne
  have hgrow : k.size ≤ h.size := Nat.le_of_lt (hstep.top_mem.1.trans_lt hstep.top_mem.2)
  obtain ⟨b, hb, hparts⟩ := hp.parts
  have hblock : (k.expr block).isBlock := by
    rcases hparts with ⟨-, -, hb'⟩ | ⟨-, server, -, hb', -⟩ <;> rw [block?_eq_some.1 hb'] <;> rfl
  refine
    { live := hp.live
      new := ⟨hp.new.1, hp.new.2.trans_le hgrow⟩
      input_eq := ?_
      only := fun p hplive hmem => ?_
      top_mem := by rw [htop.1]; exact ⟨hp.top_mem.1, hp.top_mem.2.trans_le hgrow⟩
      parts := ⟨b, hb, ?_⟩ }
  · obtain ⟨r, hr, hinput⟩ := hp.input_eq
    refine ⟨_, by rw [(hold hp.new.1 hp.new.2).2, hr]; rfl, ?_⟩
    show redirect x.block top r.input = block
    rw [hinput, redirect, if_neg hne]
  · have hblocked {p : NodeId} (hplive : k.isLive p) (hmem : block ∈ k.children p) : p = boundary :=
      hp.only p hplive hmem
    have hlast : x.block ≠ boundary := Nat.ne_of_lt (hxlt.trans_le hp.new.1)
    rcases eq_of_mem_children hx hd.sound hstep hplive hmem hblock hblt with
      ⟨heq, -⟩ | ⟨-, hmem | ⟨hmem, -⟩⟩
    · exact absurd heq hne
    · have hplt : p < k.size := Nat.lt_of_not_le fun hle => by
        rw [children, expr_of_size_le hle] at hmem
        cases hmem
      exact hblocked ((hstep.live_eq p hplt).symm.trans hplive) hmem
    · exact absurd (hblocked hx.live hmem) hlast
  · rw [htop.1]
    have hmap : b.mapSlots (fun v => redirect x.block top (σ v)) =
        (b.mapSlots σ).mapSlots (redirect x.block top) :=
      (Block.mapSlots_mapSlots σ (redirect x.block top) b).symm
    rw [hmap, block?_mapChildren hself, block?_mapChildren htop.2]
    rcases hparts with ⟨hneed, heq, hb'⟩ | ⟨hneed, server, client, hserver, hclient, hdiv⟩
    · exact .inl ⟨hneed, heq, by rw [hb']; rfl⟩
    · refine .inr ⟨hneed, _, _, by rw [hserver]; rfl, by rw [hclient]; rfl, ?_⟩
      rw [← (hold hp.new.1 hp.new.2).1]
      refine hdiv.mapSlots (fun e o l helive hend => ?_) fun v hv => ?_
      · have hne : e ≠ x.block := by
          rintro rfl
          rw [block?_eq_some.1 hx.block_eq, windowEnd] at hend
          split at hend
          · split at hend <;> cases hend
          · cases hend
        exact ⟨if_neg hne, (hstep.live_eq e (lt_size_of_isLive helive)).trans helive,
          hstep.expr_eq e helive hne⟩
      · have hmem : v ∈ k.children (σ block) := by
          rw [children_of_block? hclient, children_window, hdiv.window.1, hdiv.window.2]
          exact mem_append_right _ hv
        exact constantInt?_redirect hx hstep (hd.isLive_of_held hquery
          (hd.closed _ (.inr (.inr hp.top_mem.1)) v hmem)
          (hd.balanced.children_lt _ (hd.live_new _ hp.top_mem.1 hp.top_mem.2) v hmem))

/-- The block that is handled. -/
theorem isPlaced_self (hb : g.block? x.block = some b) (hneed : x.isSplit ↔ g.NeedsClient x.block) :
    IsPlaced g h (fun v => redirect x.block top (σ v)) x.block k.size := by
  have hin := hx.isIn hd.sound
  have htop : redirect x.block top (σ x.block) = top := by
    rw [hd.eq_self _ hnot]
    exact if_pos rfl
  have hblock : (k.expr x.block).isBlock := by
    rw [block?_eq_some.1 hx.block_eq]
    rfl
  -- The block does not use itself, so its slots stay as they are.
  have hsame : b.mapSlots (fun v => redirect x.block top (σ v)) = x.b := by
    have hexpr := hd.expr_eq _ hlive hnot
    rw [block?_eq_some.1 hb, block?_eq_some.1 hx.block_eq, Expr.mapChildren_block,
      Expr.block.injEq] at hexpr
    rw [show b.mapSlots (fun v => redirect x.block top (σ v)) =
      (b.mapSlots σ).mapSlots (redirect x.block top) from
        (Block.mapSlots_mapSlots σ (redirect x.block top) b).symm, ← hexpr]
    have hself : (Expr.block x.b).mapChildren (redirect x.block top) = .block x.b := by
      refine Expr.mapChildren_eq_self fun c hc => if_neg ?_
      rintro rfl
      exact hin.anchored.not_self (by rw [children_of_block? hx.block_eq]; exact hc)
    exact Expr.block.inj hself
  refine
    { live := hlive
      new := ⟨hd.size_le, hstep.top_mem.1.trans_lt hstep.top_mem.2⟩
      input_eq := hstep.boundary
      only := fun p hplive hmem => ?_
      top_mem := by rw [htop]; exact ⟨hd.size_le.trans hstep.top_mem.1, hstep.top_mem.2⟩
      parts := ⟨b, hb, ?_⟩ }
  · rcases eq_of_mem_children hx hd.sound hstep hplive hmem hblock hin.block_lt with
      ⟨-, heq⟩ | ⟨hne, -⟩
    · exact heq
    · exact absurd rfl hne
  · rw [htop, hsame]
    rcases hstep.parts with ⟨hsplit, heq, hexpr⟩ | ⟨hsplit, hparts⟩
    · refine .inl ⟨?_, heq, by rw [block?_congr hexpr]; exact hx.block_eq⟩
      rw [← hneed, hsplit]
      simp
    · exact .inr ⟨hneed.1 hsplit, hparts⟩

omit hx hlive hnot in
/-- What is held still uses what is held. -/
theorem Distributed.closed_step (hquery : ∀ v, g.InQuery v → g.isLive v) (hrow : g.Held x.rowVar)
    (hblock : g.Held x.block) (hv : g.Held v) : ∀ c ∈ h.children v, g.Held c := by
  intro c hc
  have hnew {u : NodeId} (hu : k.size ≤ u) : g.Held u :=
    .inr (.inr (hd.size_le.trans hu))
  rcases Nat.lt_or_ge v k.size with hlt | hge
  · by_cases hvx : v = x.block
    · subst hvx
      exact (hstep.block_children c hc).elim (hd.closed _ hblock c) hnew
    · rw [children, hstep.expr_eq v (hd.isLive_of_held hquery hv hlt) hvx,
        Expr.children_mapChildren] at hc
      obtain ⟨d, hdc, rfl⟩ := mem_map.1 hc
      unfold redirect
      split
      · exact hnew hstep.top_mem.1
      · exact hd.closed v hv d hdc
  · rcases Nat.eq_or_lt_of_le hge with rfl | hgt
    · obtain ⟨r, hr, hinput⟩ := hstep.boundary
      rw [children, hr] at hc
      rw [mem_singleton.1 hc, hinput]
      exact hblock
    · rcases hstep.new_children v hgt c hc with hc | rfl | hc
      · exact hnew hc
      · exact hrow
      · exact hd.closed _ hblock c hc

omit hnot in
theorem Distributed.new_block_step (hquery : ∀ v, g.InQuery v → g.isLive v) (hge : g.size ≤ v)
    (hb : h.block? v = some b) : ∃ e, b.entries = [e] ∧ (h.expr e.domain).isScan = false := by
  rcases Nat.lt_or_ge v k.size with hlt | hvk
  · have hvx : v ≠ x.block := Nat.ne_of_gt ((lt_size_of_isLive hlive).trans_le hge)
    have hvlive := hd.live_new v hge hlt
    rw [block?_mapChildren (hstep.expr_eq v hvlive hvx)] at hb
    obtain ⟨b', hb', rfl⟩ := Option.map_eq_some_iff.1 hb
    obtain ⟨e, hentries, hscan⟩ := hd.new_block v b' hge hb'
    have hmem : e.domain ∈ k.children v := by
      rw [children_of_block? hb']
      simp [Expr.children, hentries]
    have hdomain := hd.isLive_of_held hquery (hd.closed v (.inr (.inr hge)) _ hmem)
      (hd.balanced.children_lt v hvlive _ hmem)
    refine ⟨{ e with domain := redirect x.block top e.domain }, ?_, ?_⟩
    · simp [Block.mapSlots, hentries]
    · exact (isScan_redirect hx hstep hdomain).trans hscan
  · obtain ⟨e, hentries, hdomain⟩ := hstep.new_block v b hvk hb
    obtain ⟨r, hr, -⟩ := hstep.boundary
    exact ⟨e, hentries, by rw [hdomain, hr]; rfl⟩

theorem Distributed.step (hquery : ∀ v, g.InQuery v → g.isLive v) (hin : g.InQuery x.block)
    (hrow : g.Held x.rowVar) (hb : g.block? x.block = some b)
    (hneed : x.isSplit ↔ g.NeedsClient x.block) (hscans : h.ScansLocally) :
    Distributed g (fun v => done v ∨ v = x.block) (fun v => redirect x.block top (σ v)) h := by
  have hgrow : k.size ≤ h.size := Nat.le_of_lt (hstep.top_mem.1.trans_lt hstep.top_mem.2)
  refine
    { sound := hstep.sound
      scans := hscans
      balanced := hstep.balanced
      size_le := hd.size_le.trans hgrow
      root_eq := by rw [hstep.root_eq, hd.root_eq, Option.map_map]; rfl
      live_eq := fun v hv =>
        (hstep.live_eq v (hv.trans_le hd.size_le)).trans (hd.live_eq v hv)
      live_new := fun v hge hlt => ?_
      eq_self := fun v hv => ?_
      expr_eq := fun p hp hnp => ?_
      closed := fun v hv => hd.closed_step hstep hquery hrow (.inl hin) hv
      new_block := fun v b hge hb => hd.new_block_step hx hlive hstep hquery hge hb
      placed := fun block hdone => ?_ }
  · rcases Nat.lt_or_ge v k.size with hvk | hvk
    · rw [hstep.live_eq v hvk]
      exact hd.live_new v hge hvk
    · exact hstep.live_new v hvk hlt
  · rw [not_or] at hv
    rw [hd.eq_self v hv.1, redirect, if_neg hv.2]
  · rw [not_or] at hnp
    rw [hstep.expr_eq p (hd.isLive_eq hp) hnp.2, hd.expr_eq p hp hnp.1,
      Expr.mapChildren_mapChildren]
    rfl
  · rcases hdone with hdone | rfl
    · obtain ⟨boundary, hp⟩ := hd.placed block hdone
      exact ⟨boundary, hp.step hd hx hlive hnot hstep hquery hdone⟩
    · exact ⟨k.size, isPlaced_self hd hx hlive hnot hstep hb hneed⟩

end

end

/-! ## All blocks -/

/-- What the pass relies on: the query and the declared variables are alive, and a block with a star
has no select list. -/
structure IsPrepared (g : Graph) : Prop where
  live : ∀ v, g.InQuery v → g.isLive v
  vars : ∀ p, ∀ u ∈ (g.expr p).declared, g.isLive u ∧ (g.expr u).isVar
  star : ∀ v b, g.block? v = some b → b.star → b.select = []

section
variable {k : Graph}

theorem splitOne_eq_self (hnot : ¬ g.IsTableBlock v) : Split.splitOne c g v = .ok g := by
  unfold Split.splitOne
  split
  · rfl
  · next scan hdomain =>
    split
    · rfl
    · next s hs =>
      obtain ⟨b, hb, hfirst⟩ := Option.bind_eq_some_iff.1 hdomain
      obtain ⟨e, he, rfl⟩ := Option.map_eq_some_iff.1 hfirst
      exact absurd ⟨b, e, hb, he, by rw [scan?_eq_some.1 hs]; rfl⟩ hnot

/-- A block that scans a table of the catalog is handled. -/
theorem exists_splitOne (hg : g.Sound) (hcovers : c.Covers g) (hlive : g.isLive v)
    (hv : g.IsTableBlock v) : ∃ x : SplitSite, x.IsScanned g ∧ x.block = v ∧
      Split.splitOne c g v = .ok (if x.isSplit then x.result g else x.bounded g) := by
  obtain ⟨b, e, hb, he, hscan⟩ := hv
  obtain ⟨s, hs⟩ : ∃ s, g.scan? e.domain = some s := by
    cases hexpr : g.expr e.domain <;> simp_all [Expr.isScan, scan?]
  obtain ⟨t, ht, -⟩ := hcovers _ s hs
  let x : SplitSite := ⟨v, e.var, b, s, t.primaryKey⟩
  have hx : x.IsScanned g := ⟨hb, hlive, e, he, rfl, hs⟩
  have hdomain : x.b.firstDomain? = some e.domain := by rw [Block.firstDomain?, he, Option.map_some]
  exact ⟨x, hx, rfl, Split.splitOne_eq_ite (hx.isIn hg) hdomain hs ht rfl⟩

theorem distributed_start (hg : g.Sound) (hscans : g.ScansLocally) (hbal : g.Balanced) :
    Distributed g (fun _ => False) id g where
  sound := hg
  scans := hscans
  balanced := hbal
  size_le := le_rfl
  root_eq := by rw [Option.map_id, id]
  live_eq _ _ := rfl
  live_new v hge hlt := absurd hge (not_le.2 hlt)
  eq_self _ _ := rfl
  expr_eq p _ _ := (Expr.mapChildren_id _).symm
  closed v hv c hc := by
    rcases hv with hv | ⟨-, hv⟩ | hv
    · exact .inl (hv.child hc)
    · rw [children_of_isVar hv] at hc
      cases hc
    · rw [children_of_size_le hv] at hc
      cases hc
  new_block v b hge hb := absurd hge (not_le.2 (lt_size_of_block? hb))
  placed _ hdone := hdone.elim

theorem Distributed.root_lt (hd : Distributed g done σ k) (hg : g.IsPrepared) {r : NodeId}
    (hr : k.root = some r) : r < k.size := by
  rw [hd.root_eq] at hr
  obtain ⟨r₀, hr₀, rfl⟩ := Option.map_eq_some_iff.1 hr
  by_cases hdone : done r₀
  · obtain ⟨boundary, hp⟩ := hd.placed r₀ hdone
    exact hp.top_mem.2
  · rw [hd.eq_self r₀ hdone]
    exact lt_size_of_isLive (hd.isLive_eq (hg.live r₀ ⟨r₀, hr₀, .refl⟩))

theorem needsClient_iff {e : FromEntry} (hb : g.block? v = some b) (he : b.entries.head? = some e)
    (hs : g.scan? e.domain = some s) :
    g.NeedsClient v ↔ s.singlePartition = false ∧
      (b.hasSort || b.offset.isSome || b.limit.isSome || s.dedup) := by
  refine ⟨?_, fun h => ⟨b, e, s, hb, he, hs, h⟩⟩
  rintro ⟨b', e', s', hb', he', hs', h⟩
  cases hb.symm.trans hb'
  cases he.symm.trans he'
  cases hs.symm.trans hs'
  exact h

/-- A scan keeps its marks. -/
theorem Distributed.exists_scan (hd : Distributed g done σ k) (hv : g.isLive v) {s' : TableScan}
    (hs : k.scan? (σ v) = some s') : ∃ s, g.scan? v = some s ∧
      s'.singlePartition = s.singlePartition ∧ s'.dedup = s.dedup := by
  have hscan : (g.expr v).isScan := by
    rw [← hd.isScan_eq hv, scan?_eq_some.1 hs]
    rfl
  have hnot : ¬ done v := fun hdone => by
    obtain ⟨boundary, hp⟩ := hd.placed v hdone
    obtain ⟨b, hb, -⟩ := hp.parts
    rw [isScan_of_block? hb] at hscan
    cases hscan
  rw [hd.eq_self v hnot, scan?_eq_some, hd.expr_eq v hv hnot] at hs
  cases he : g.expr v with
  | scan s =>
    rw [he] at hs
    cases hs
    exact ⟨s, scan?_eq_some.2 he, rfl, rfl⟩
  | _ => rw [he] at hscan; cases hscan

/-- Whether a block is split was settled at the start. -/
theorem Distributed.isSplit_iff (hd : Distributed g done σ k) {x : SplitSite} (hx : x.IsScanned k)
    (hb : g.block? x.block = some b) (hxb : x.b = b.mapSlots σ)
    (hchildren : ∀ c ∈ g.children x.block, g.isLive c) : x.isSplit ↔ g.NeedsClient x.block := by
  obtain ⟨e, he, -, hscan⟩ := hx.entry
  rw [hxb, Block.mapSlots, head?_map] at he
  obtain ⟨e₀, he₀, rfl⟩ := Option.map_eq_some_iff.1 he
  have hdomain : g.isLive e₀.domain :=
    hchildren _ (domain_mem_children hb (mem_of_head? he₀))
  obtain ⟨s, hs, hsingle, hdedup⟩ := hd.exists_scan hdomain hscan
  rw [needsClient_iff hb he₀ hs, SplitSite.isSplit, hxb, hsingle, hdedup]
  simp [Block.mapSlots, Block.hasSort]

/-- A block that scans a table is handled in its turn. -/
theorem Distributed.exists_step (hd : Distributed g done σ k) (hg : g.IsPrepared)
    (hcovers : c.Covers k) (hin : g.InQuery v) (hb : ∃ b, g.block? v = some b) (hnot : ¬ done v)
    (hscan : g.IsTableBlock v) : ∃ h σ', Split.splitOne c k v = .ok h ∧ c.Covers h ∧
      Distributed g (fun u => done u ∨ u = v) σ' h := by
  have hlive := hg.live v hin
  have hkscan : k.IsTableBlock v := (hd.isTableBlock_iff hlive
    (fun u hu => hg.live u (hin.child hu)) hnot).2 hscan
  obtain ⟨x, hx, rfl, hsplit⟩ := exists_splitOne hd.sound hcovers (hd.isLive_eq hlive) hkscan
  obtain ⟨b, hb⟩ := hb
  -- The block reads as it did at the start, but for what stands in its slots.
  have hxb : x.b = b.mapSlots σ := by
    have hblock := hx.block_eq
    rw [block?_mapChildren (hd.expr_eq _ hlive hnot), hb] at hblock
    exact (Option.some.inj hblock).symm
  have hrow : g.Held x.rowVar := by
    obtain ⟨e, he, hvar, -⟩ := hx.entry
    rw [hxb, Block.mapSlots, head?_map] at he
    obtain ⟨e₀, he₀, rfl⟩ := Option.map_eq_some_iff.1 he
    refine .inr (.inl (hg.vars x.block _ ?_))
    rw [block?_eq_some.1 hb, ← hvar]
    exact mem_map.2 ⟨e₀, mem_of_head? he₀, rfl⟩
  have hstar : x.b.star → x.b.select = [] := by
    rw [hxb]
    intro hs
    simp [Block.mapSlots, hg.star _ b hb hs]
  have hneed := hd.isSplit_iff hx hb hxb fun u hu => hg.live u (hin.child hu)
  have hstep : ∃ top, x.Distributes k
      (if x.isSplit then x.result k else x.bounded k) top := by
    split
    · next hsplit =>
      exact ⟨_, hx.distributes_result hd.sound hd.balanced hsplit
        (fun r hr => hd.root_lt hg hr) hstar⟩
    · next hsplit =>
      exact ⟨_, hx.distributes_bounded hd.sound hd.balanced (by simpa using hsplit)⟩
  obtain ⟨top, hstep⟩ := hstep
  have hscans := Split.scansLocally_splitOne hd.sound hd.scans hx.live hsplit
  have hnames := Split.keepsNames_splitOne hd.sound hx.live hsplit
  exact ⟨_, _, hsplit, hcovers.of_keepsNames hnames,
    hd.step hx hlive hnot hstep hg.live hin hrow hb hneed hscans⟩

/-- The pass goes through and handles all blocks that scan a table. -/
theorem Distributed.run (hg : g.IsPrepared) (todo : List NodeId) :
    ∀ {k : Graph} {done : NodeId → Prop} {σ : NodeId → NodeId}, Distributed g done σ k →
      c.Covers k → todo.Nodup →
      (∀ v ∈ todo, g.InQuery v ∧ (∃ b, g.block? v = some b) ∧ ¬ done v) →
      ∃ h σ', editBlocks (Split.splitOne c) todo k = (h, .ok ()) ∧
        Distributed g (fun v => done v ∨ (v ∈ todo ∧ g.IsTableBlock v)) σ' h := by
  induction todo with
  | nil =>
    intro k done σ hd _ _ _
    have hdone : (fun v => done v ∨ (v ∈ [] ∧ g.IsTableBlock v)) = done := by simp
    exact ⟨k, σ, rfl, by rw [hdone]; exact hd⟩
  | cons block todo ih =>
    intro k done σ hd hcovers hnodup htodo
    obtain ⟨hfresh, hnodup⟩ := nodup_cons.1 hnodup
    obtain ⟨hin, hb, hnot⟩ := htodo block (.head _)
    rw [editBlocks, if_pos (hd.isLive_eq (hg.live block hin))]
    have hrest {v : NodeId} (hv : v ∈ todo) := htodo v (.tail _ hv)
    by_cases hscan : g.IsTableBlock block
    · obtain ⟨k', σ', hsplit, hcovers', hd'⟩ := hd.exists_step hg hcovers hin hb hnot hscan
      obtain ⟨h, σ'', hrun, hend⟩ := ih hd' hcovers' hnodup fun v hv =>
        ⟨(hrest hv).1, (hrest hv).2.1, fun hdone => hdone.elim (hrest hv).2.2
          fun heq => hfresh (heq ▸ hv)⟩
      refine ⟨h, σ'', by rw [hsplit]; exact hrun, ?_⟩
      have hdone : (fun v => done v ∨ (v ∈ block :: todo ∧ g.IsTableBlock v)) =
          fun v => (done v ∨ v = block) ∨ (v ∈ todo ∧ g.IsTableBlock v) := by
        funext v
        rw [mem_cons, or_and_right, ← or_assoc]
        congr 2
        exact propext ⟨fun h => h.1, fun h => ⟨h, h ▸ hscan⟩⟩
      rw [hdone]
      exact hend
    · have hkscan : ¬ k.IsTableBlock block := fun h => hscan ((hd.isTableBlock_iff
        (hg.live block hin) (fun u hu => hg.live u (hin.child hu)) hnot).1 h)
      obtain ⟨h, σ', hrun, hend⟩ := ih hd hcovers hnodup fun v hv => hrest hv
      refine ⟨h, σ', by rw [splitOne_eq_self hkscan]; exact hrun, ?_⟩
      have hdone : (fun v => done v ∨ (v ∈ block :: todo ∧ g.IsTableBlock v)) =
          fun v => done v ∨ (v ∈ todo ∧ g.IsTableBlock v) := by
        funext v
        rw [mem_cons, or_and_right]
        have hno : ¬ (v = block ∧ g.IsTableBlock v) := fun h => hscan (h.1 ▸ h.2)
        simp only [hno, false_or]
      rw [hdone]
      exact hend

/-! ## When the pass is through -/

theorem IsPlaced.isBoundary (hd : Distributed g done σ k) (hp : IsPlaced g k σ block boundary) :
    k.IsBoundary boundary block := by
  refine ⟨hp.input_eq, perm_singleton.1 (perm_iff_count.2 fun p => ?_)⟩
  rw [hd.balanced.parents_count block (hd.isLive_eq hp.live) p]
  by_cases heq : p = boundary
  · obtain ⟨r, hr, hinput⟩ := hp.input_eq
    rw [heq, if_pos (hd.live_new boundary hp.new.1 hp.new.2), children, hr, ← hinput]
    simp [Expr.children]
  · have hother : ¬ (boundary == p) = true := by simpa using Ne.symm heq
    rw [count_singleton, if_neg hother]
    split
    · next hlive => exact count_eq_zero_of_not_mem fun hmem => heq (hp.only p hlive hmem)
    · rfl

theorem Distributed.held_of_inQuery (hd : Distributed g done σ k) (hv : k.InQuery v) :
    g.Held v := by
  obtain ⟨r, hr, hway⟩ := hv
  induction hway with
  | refl =>
    rw [hd.root_eq] at hr
    obtain ⟨r₀, hr₀, rfl⟩ := Option.map_eq_some_iff.1 hr
    by_cases hdone : done r₀
    · obtain ⟨boundary, hp⟩ := hd.placed r₀ hdone
      exact .inr (.inr hp.top_mem.1)
    · rw [hd.eq_self r₀ hdone]
      exact .inl ⟨r₀, hr₀, .refl⟩
  | tail _ hc ih => exact hd.closed _ ih _ hc

theorem Distributed.wellFormed (hd : Distributed g done σ k) (hg : g.IsPrepared) :
    k.WellFormed := by
  refine ⟨hd.balanced.toTallied, fun v => hd.scans.acyclicBelow hd.sound v v .refl,
    fun p hp hlive c hc => ?_⟩
  exact hd.isLive_of_held hg.live (hd.closed p (hd.held_of_inQuery hp) c hc)
    (hd.balanced.children_lt p hlive c hc)

section
variable (hd : Distributed g (fun v => g.InQuery v ∧ g.IsTableBlock v) σ k) (hg : g.IsPrepared)
include hd

theorem Distributed.redirects : Redirects g k σ where
  root_eq := hd.root_eq
  eq_self := hd.eq_self
  expr_eq := hd.expr_eq
  block block b hin hscan hb := by
    obtain ⟨boundary, hp⟩ := hd.placed block ⟨hin, hscan⟩
    obtain ⟨b', hb', hparts⟩ := hp.parts
    cases hb.symm.trans hb'
    exact ⟨boundary, hp.isBoundary hd, hparts⟩

include hg

/-- Blocks that scan a table are old ones, which were handled. -/
theorem Distributed.exists_boundary (hv : k.InQuery v) (hscan : k.IsTableBlock v) :
    ∃ boundary, k.IsBoundary boundary v := by
  have hplaced (hin : g.InQuery v) : ∃ boundary, k.IsBoundary boundary v := by
    by_cases hdone : g.InQuery v ∧ g.IsTableBlock v
    · obtain ⟨boundary, hp⟩ := hd.placed v hdone
      exact ⟨boundary, hp.isBoundary hd⟩
    · exact absurd ⟨hin, (hd.isTableBlock_iff (hg.live v hin)
        (fun u hu => hg.live u (hin.child hu)) hdone).1 hscan⟩ hdone
  obtain ⟨b, e, hb, he, hs⟩ := hscan
  rcases hd.held_of_inQuery hv with hin | ⟨hlive, hvar⟩ | hge
  · exact hplaced hin
  · have hnot : ¬ (g.InQuery v ∧ g.IsTableBlock v) := by
      rintro ⟨-, b', -, hb', -⟩
      rw [block?_eq_some.1 hb'] at hvar
      cases hvar
    rw [block?_mapChildren (hd.expr_eq v hlive hnot)] at hb
    obtain ⟨b', hb', -⟩ := Option.map_eq_some_iff.1 hb
    rw [block?_eq_some.1 hb'] at hvar
    cases hvar
  · obtain ⟨e', hentries, hno⟩ := hd.new_block v b hge hb
    rw [hentries] at he
    cases he
    rw [hs] at hno
    cases hno

end

theorem exists_block?_of_isBlock (hv : (g.expr v).isBlock) : ∃ b, g.block? v = some b := by
  cases he : g.expr v with
  | block b => exact ⟨b, block?_eq_some.2 he⟩
  | _ => rw [he] at hv; cases hv

theorem exists_splitBlocks (hg : g.IsPrepared) (hsound : g.Sound) (hscans : g.ScansLocally)
    (hbal : g.Balanced) (hcovers : c.Covers g) : ∃ h σ, splitBlocks c g = (h, .ok ()) ∧
      Distributed g (fun v => g.InQuery v ∧ g.IsTableBlock v) σ h := by
  have hmem (v : NodeId) : v ∈ g.queryBlocks ↔ g.InQuery v ∧ (g.expr v).isBlock :=
    mem_queryBlocks_iff (hscans.acyclicBelow hsound)
  obtain ⟨h, σ, hrun, hd⟩ := Distributed.run hg g.queryBlocks
    (distributed_start hsound hscans hbal) hcovers (nodup_queryBlocks (hscans.acyclicBelow hsound))
    fun v hv => ⟨((hmem v).1 hv).1, exists_block?_of_isBlock ((hmem v).1 hv).2, id⟩
  refine ⟨h, σ, hrun, ?_⟩
  have hdone : (fun v => False ∨ (v ∈ g.queryBlocks ∧ g.IsTableBlock v)) =
      fun v => g.InQuery v ∧ g.IsTableBlock v := by
    funext v
    rw [false_or, hmem, and_assoc]
    refine propext (and_congr_right fun _ => ⟨And.right, fun hscan => ⟨?_, hscan⟩⟩)
    obtain ⟨b, -, hb, -⟩ := hscan
    rw [block?_eq_some.1 hb]
    rfl
  rw [← hdone]
  exact hd

end

end Graph

/-! ## Queries as they are laid out -/

/-- The expression with other marks, if it is a scan. -/
def Expr.markScan (single dedup : Bool) : Expr → Expr
  | .scan s => .scan { s with singlePartition := single, dedup := dedup }
  | e => e

namespace Graph

/-- The graph with all scans marked: whether the rows are in one place, and whether a row may come up
more than once. -/
def markScans (single dedup : NodeId → Bool) (g : Graph) : Graph :=
  { g with nodes := g.nodes.mapIdx fun v n => { n with expr := n.expr.markScan (single v) (dedup v) } }

section
variable {l : Layout} {single dedup : NodeId → Bool}

theorem node_markScans : (g.markScans single dedup).node v =
    { g.node v with expr := (g.expr v).markScan (single v) (dedup v) } := by
  simp only [markScans, expr, node, Array.getD_eq_getD_getElem?, Array.getElem?_mapIdx]
  cases g.nodes[v]? <;> rfl

theorem expr_markScans :
    (g.markScans single dedup).expr v = (g.expr v).markScan (single v) (dedup v) := by
  rw [expr, node_markScans]

theorem retouches_markScans : Retouches g (g.markScans single dedup) := by
  refine ⟨by simp [size, markScans], fun v => ?_, fun v => ?_, fun v => ?_, fun v => ?_⟩
  · rw [parents, node_markScans, parents]
  · rw [isLive, node_markScans, isLive]
  · rw [type?, node_markScans, type?]
  · rw [expr_markScans]
    cases g.expr v with
    | scan s => exact .scan rfl
    | _ => exact .refl _

section
variable (hl : l.IsReached c) (hshape : SameShape (l.graph.markScans single dedup) g)
include hshape

theorem expr_marked (v : NodeId) : g.expr v = (l.graph.expr v).markScan (single v) (dedup v) := by
  rw [hshape.expr_eq, expr_markScans]

theorem children_marked (v : NodeId) : g.children v = l.graph.children v := by
  rw [children, expr_marked hshape, children]
  cases l.graph.expr v <;> rfl

theorem declared_marked (v : NodeId) : (g.expr v).declared = (l.graph.expr v).declared := by
  rw [expr_marked hshape]
  cases l.graph.expr v <;> rfl

include hl

theorem sound_marked : g.Sound := hshape.sound (retouches_markScans.sound hl.isSound.laid.sound)

theorem exists_lists_marked (hs : g.scan? v = some s) :
    ∃ s', c.Lists s' ∧ s = { s' with singlePartition := single v, dedup := dedup v } := by
  have hadmits := hl.isSound.admits v
  rw [scan?_eq_some, expr_marked hshape] at hs
  cases he : l.graph.expr v with
  | scan s' =>
    rw [he] at hs hadmits
    cases hs
    exact ⟨s', hadmits, rfl⟩
  | _ => rw [he] at hs; cases hs

theorem scansLocally_marked : g.ScansLocally := by
  intro v s hs u hu
  obtain ⟨s', ⟨t, -, hlists⟩, rfl⟩ := exists_lists_marked hl hshape hs
  rw [hlists] at hu
  cases hu

theorem covers_marked : c.Covers g := by
  intro v s hs
  obtain ⟨s', ⟨t, ht, hlists⟩, rfl⟩ := exists_lists_marked hl hshape hs
  exact ⟨t, ht, by rw [hlists]⟩

theorem balanced_marked (hg : g.Tallied) : g.Balanced := by
  refine ⟨hg, fun p hp u hu => ?_⟩
  rw [children_marked hshape] at hu
  exact (hl.isSound.laid.children_lt p u hu).trans (lt_size_of_isLive hp)

/-- Nodes that died have lost what they were. -/
theorem isLive_of_declared (hu : u ∈ (g.expr p).declared) : g.isLive u ∧ (g.expr u).isVar := by
  have hlaid := hl.isSound.laid
  rw [declared_marked hshape] at hu
  obtain ⟨x, hx, -⟩ := hlaid.declared p u hu
  have hlt : u < l.graph.size := lt_size_of_var hx
  rw [hshape.live_eq, retouches_markScans.live_eq, expr_marked hshape, hx]
  refine ⟨?_, rfl⟩
  cases hlive : l.graph.isLive u with
  | true => rfl
  | false =>
    have hdead := hlaid.dead u hlt hlive
    rw [hx] at hdead
    cases hdead

theorem isPrepared_marked (hg : g.WellFormed) (hroot : g.root = some root) (hlive : g.isLive root) :
    g.IsPrepared where
  live v hv := by
    obtain ⟨r, hr, hway⟩ := hv
    cases hroot.symm.trans hr
    induction hway with
    | refl => exact hlive
    | tail hway hc ih => exact hg.children_live _ ⟨root, hroot, hway⟩ ih _ hc
  vars p u hu := isLive_of_declared hl hshape hu
  star v b hb hstar := by
    have hadmits := hl.isSound.admits v
    rw [block?_eq_some, expr_marked hshape] at hb
    cases he : l.graph.expr v with
    | block b' =>
      rw [he] at hb hadmits
      cases hb
      exact hadmits.2 hstar
    | _ => rw [he] at hb; cases hb

theorem exists_distributed (hg : g.WellFormed) (hroot : g.root = some root) (hlive : g.isLive root) :
    ∃ h σ, splitBlocks c g = (h, .ok ()) ∧
      Distributed g (fun v => g.InQuery v ∧ g.IsTableBlock v) σ h :=
  exists_splitBlocks (isPrepared_marked hl hshape hg hroot hlive) (sound_marked hl hshape)
    (scansLocally_marked hl hshape) (balanced_marked hl hshape hg.toTallied)
    (covers_marked hl hshape)

end

end

end Graph

open ShardedQuery.Graph

/-- The pass goes through on every well-formed query that was laid out, however its scans are marked,
and leaves a well-formed graph with a living root. Every block that scans a table then has the
boundary over it as its only parent. Slots that held such a block hold the boundary or the client
part instead; only the window of a block that is split itself moves to the client part. -/
theorem splitBlocks_wellFormed {c : Catalog} {l : Layout} (hl : l.IsReached c)
    (single dedup : NodeId → Bool) {g : Graph}
    (hshape : SameShape (l.graph.markScans single dedup) g) (hg : g.WellFormed) {root : NodeId}
    (hroot : g.root = some root) (hlive : g.isLive root) :
    ∃ h σ, splitBlocks c g = (h, .ok ()) ∧ h.WellFormed ∧ (∃ r, h.root = some r ∧ h.isLive r) ∧
      Redirects g h σ ∧
      ∀ v, h.InQuery v → h.IsTableBlock v → ∃ boundary, h.IsBoundary boundary v := by
  have hprepared := isPrepared_marked hl hshape hg hroot hlive
  obtain ⟨h, σ, hrun, hd⟩ := exists_distributed hl hshape hg hroot hlive
  have hr : h.root = some (σ root) := by rw [hd.root_eq, hroot, Option.map_some]
  refine ⟨h, σ, hrun, hd.wellFormed hprepared, ⟨σ root, hr, ?_⟩, hd.redirects,
    fun v hv hscan => hd.exists_boundary hprepared hv hscan⟩
  exact hd.isLive_of_held hprepared.live (hd.held_of_inQuery ⟨_, hr, .refl⟩)
    (hd.root_lt hprepared hr)

/-- `SELECT b AS x FROM t AS u ORDER BY u.a OFFSET b`, where `b` stands for `SELECT * FROM t`. -/
def sharedBlock : Layout :=
  Layout.script ⟨[pairTable]⟩
    [.draft, .scanTable "t" "t" [], .build, .draft, .scanTable "t" "u" [], .value (.field 4 "a"),
      .select "x" 2, .sort 5 .asc, .offset 2, .build, .root 6]

namespace Graph

/-- Nodes that use nodes before them make a well-formed graph if living nodes use living ones and
parent lists are exact. -/
theorem Consistent.wellFormed (hg : g.Consistent) (hlt : ∀ v < g.size, ∀ c ∈ g.children v, c < v) :
    g.WellFormed :=
  ⟨hg.toTallied, fun v => acyclicBelow_of_lt hlt v v .refl, fun p _ => hg.children_live p⟩

/-- Marks do not count. -/
theorem WellFormed.markScans (hg : g.WellFormed) (single dedup : NodeId → Bool) :
    (g.markScans single dedup).WellFormed := by
  have hmarks : Retouches g (g.markScans single dedup) := retouches_markScans
  have hchildren (v : NodeId) : (g.markScans single dedup).children v = g.children v := by
    rw [children, expr_markScans, children]
    cases g.expr v <;> rfl
  have hchild : (g.markScans single dedup).IsChild = g.IsChild := by
    funext v u
    exact congrArg (u ∈ ·) (hchildren v)
  refine ⟨hg.toTallied.congr hmarks.parents_eq hmarks.live_eq hchildren, ?_, ?_⟩
  · rw [hchild]
    exact hg.acyclic
  · unfold InQuery
    simp only [hchild, hchildren, hmarks.live_eq]
    exact hg.children_live

end Graph

theorem wellFormed_sharedBlock : sharedBlock.graph.WellFormed :=
  Graph.Consistent.wellFormed (Graph.consistent_of_lt (by decide +kernel) (by decide +kernel)
    (by decide +kernel) (by decide +kernel)) (by decide +kernel)

/-- Here the scan of the block that is used twice gives rows more than once. -/
theorem splitBlocks_wellFormed_sharedBlock :
    ∃ h σ, splitBlocks ⟨[pairTable]⟩ (sharedBlock.graph.markScans (fun _ => false) (· == 0)) =
        (h, .ok ()) ∧ h.WellFormed ∧ (∃ r, h.root = some r ∧ h.isLive r) ∧
      Redirects (sharedBlock.graph.markScans (fun _ => false) (· == 0)) h σ ∧
      ∀ v, h.InQuery v → h.IsTableBlock v → ∃ boundary, h.IsBoundary boundary v :=
  splitBlocks_wellFormed (Layout.isReached_script _ _) (fun _ => false) (· == 0) (.refl _)
    (wellFormed_sharedBlock.markScans _ _) (by decide +kernel : _ = some 6) (by decide +kernel)

/-- The offset of a block that is split: the slot held a block that scans a table, and is empty
afterwards. -/
theorem splitBlocks_empties_offset :
    let g := sharedBlock.graph.markScans (fun _ => false) (fun _ => false)
    g.WellFormed ∧ g.InQuery 2 ∧ g.IsTableBlock 2 ∧
      (∃ b, g.block? 6 = some b ∧ b.offset = some 2) ∧
      ∃ h server, splitBlocks ⟨[pairTable]⟩ g = (h, .ok ()) ∧ h.block? 6 = some server ∧
        server.offset = none := by
  intro g
  have hg : g.WellFormed := wellFormed_sharedBlock.markScans _ _
  have hroot : g.root = some 6 := by decide +kernel
  have hblock : g.block? 6 = some
      { entries := [⟨3, 4⟩], select := [⟨"x", 2⟩], sort := [⟨5, .asc⟩], offset := some 2 } := by
    decide +kernel
  have hscan : g.scan? 3 = some { table := "t", rowType := pairTable.rowType } := by decide +kernel
  have hshared : g.block? 2 = some { entries := [⟨0, 1⟩], star := true } := by decide +kernel
  have hin : g.InQuery 6 := ⟨6, hroot, .refl⟩
  have hneed : g.NeedsClient 6 := ⟨_, _, _, hblock, rfl, hscan, rfl, rfl⟩
  refine ⟨hg, hin.child (by rw [children_of_block? hblock]; decide +kernel),
    ⟨_, _, hshared, rfl, by decide +kernel⟩, ⟨_, hblock, rfl⟩, ?_⟩
  obtain ⟨h, σ, hrun, hd⟩ := exists_distributed (Layout.isReached_script _ _) (.refl g) hg hroot
    (by decide +kernel)
  obtain ⟨boundary, -, ⟨hnot, -⟩ | ⟨-, server, client, hserver, -, hdiv⟩⟩ :=
    hd.redirects.block 6 _ hin ⟨_, _, hblock, rfl, by rw [scan?_eq_some.1 hscan]; rfl⟩ hblock
  · exact absurd hneed hnot
  · exact ⟨h, server, hrun, hserver, hdiv.offset⟩

end ShardedQuery
