import ShardedQuery.Proofs.Access.Locality

/-!
# Splits leave scans alone

A split edits the block and puts nodes above it, and scans use neither. `SplitSite.KeepsRows` says
what gives rows after a split; names are kept, and scans use what is local.
-/

namespace ShardedQuery

variable {v block : NodeId} {c : Catalog} {g h : Graph}

open ShardedQuery.Graph

/-- A block that scans a table is split or gets the boundary; another one is left alone. -/
theorem Split.splitOne_cases (hg : g.Sound)
    (hlive : g.isLive block) (hsplit : splitOne c g block = .ok h) :
    h = g ∨ ∃ x t, SplitSite.IsScanned x g ∧ x.block = block ∧
      c.table x.scan.table = .ok t ∧ x.key = t.primaryKey ∧
      h = if x.isSplit then x.result g else x.bounded g := by
  have horig := hsplit
  unfold splitOne at hsplit
  split at hsplit
  · cases hsplit
    exact .inl rfl
  · next scan hdomain =>
    split at hsplit
    · cases hsplit
      exact .inl rfl
    · next s hs =>
      obtain ⟨t, ht, -⟩ := ok_of_bind hsplit
      obtain ⟨b, hb, hfirst⟩ := Option.bind_eq_some_iff.1 hdomain
      obtain ⟨e, he, rfl⟩ := Option.map_eq_some_iff.1 hfirst
      let x : SplitSite := ⟨block, e.var, b, s, t.primaryKey⟩
      have hx : x.IsScanned g := ⟨hb, hlive, e, he, rfl, hs⟩
      have heq := splitOne_eq_ite (hx.isIn hg) hfirst hs ht rfl
      exact .inr ⟨x, t, hx, rfl, ht, rfl, Except.ok.inj (horig.symm.trans heq)⟩

namespace SplitSite

variable {x : SplitSite} {g h : Graph}

/-- What uses neither the block nor nodes outside the graph stays as it is. -/
theorem IsIn.expr_result (hx : x.IsIn g) (hv : v < g.size) (hne : v ≠ x.block)
    (hself : (g.expr v).mapChildren (redirect x.block g.size) = g.expr v)
    (hin : ∀ c ∈ g.children v, c < g.size) : (x.result g).expr v = g.expr v := by
  have hreceived : (x.received g).expr v = g.expr v := by
    rw [hx.expr_received hv hne, expr_bounded hx.block_lt hv, hself, ite_self]
  rw [expr_result_eq_self hx (hx.lt_size_received hv), hreceived]
  intro hmem
  rw [children, hreceived] at hmem
  exact (hin _ hmem).false

/-- What gives rows after the block of a site was handled: what gave them before, the boundary, which
knows key columns only if the scan is marked, and blocks above the boundary. -/
structure KeepsRows (x : SplitSite) (g h : Graph) : Prop where
  old : ∀ v, v < g.size → v ≠ x.block →
    ∃ f, g.Diverts x.block f ∧ h.expr v = (g.expr v).mapChildren f
  block_eq : ∃ b, h.block? x.block = some b ∧ b.entries = x.b.entries
  boundary : ∃ r, h.expr g.size = .receive r ∧ r.input = x.block ∧
    (r.keyPositions ≠ [] → x.scan.dedup)
  new : ∀ v, g.size < v → (h.expr v).givesRows → (h.expr v).firstDomain? = some g.size

section
variable (hk : x.KeepsRows g h) {p : NodeId}
include hk

theorem KeepsRows.rowsFrom : RowsFrom x.block (fun v => v = x.block ∨ g.size ≤ v) g h := by
  intro v hv _
  rw [not_or, not_le] at hv
  exact hk.old v hv.2 hv.1

/-- The boundary is the only one that is new. -/
theorem KeepsRows.eq_boundary {r : Receive} (hge : g.size ≤ p) (hp : h.expr p = .receive r) :
    p = g.size := by
  refine (Nat.eq_or_lt_of_le hge).elim Eq.symm fun hlt => ?_
  have hfirst := hk.new p hlt (by rw [hp]; rfl)
  rw [hp] at hfirst
  cases hfirst

/-- New blocks are above the boundary. -/
theorem KeepsRows.eq_of_firstDomain? (hge : g.size ≤ p) (hp : (h.expr p).firstDomain? = some v) :
    v = g.size := by
  rcases Nat.eq_or_lt_of_le hge with rfl | hlt
  · obtain ⟨r, hr, -⟩ := hk.boundary
    rw [hr] at hp
    cases hp
  · rw [hk.new p hlt (Expr.givesRows_of_firstDomain? hp)] at hp
    exact (Option.some.inj hp).symm

/-- Scans are old. -/
theorem KeepsRows.old_of_scan? {s : TableScan} (hs : h.scan? v = some s) :
    ¬ (v = x.block ∨ g.size ≤ v) := by
  have hexpr := scan?_eq_some.1 hs
  rintro (rfl | hge)
  · obtain ⟨b, hb, -⟩ := hk.block_eq
    rw [block?_eq_some.1 hb] at hexpr
    cases hexpr
  · rcases Nat.eq_or_lt_of_le hge with rfl | hlt
    · obtain ⟨r, hr, -⟩ := hk.boundary
      rw [hr] at hexpr
      cases hexpr
    · have hfirst := hk.new v hlt (by rw [hexpr]; rfl)
      rw [hexpr] at hfirst
      cases hfirst

end

section
variable (hx : x.IsScanned g) (hg : g.Sound)
include hx hg

/-- What a split adds above the boundary: fields, constants and sums over the row variable and the
window, the variable of the client part with its fields, and the client part. -/
theorem IsScanned.result_new (hgt : g.size < v) (hlt : v < (x.result g).size) :
    (x.result g).isLive v ∧ (v = x.client g ∨ (((x.result g).expr v).givesRows = false ∧
      ∀ c ∈ (x.result g).children v, g.size ≤ c ∨ c ∈ serverOperands x.rowVar x.b)) := by
  have hin := hx.isIn hg
  have hboundary := hin.boundary_lt
  obtain ⟨expanded, server, hp⟩ := hin.exists_server
  have hsize : (x.received g).size = (x.server g).graph.size := retouches_received.size_eq
  rcases Nat.lt_or_ge v (x.received g).size with hv | hv
  · -- Nodes that were added for the server part do not use the boundary.
    have hfresh := hp.edits.fresh v (size_bounded ▸ hgt) (hsize ▸ hv)
    have hreceived := expr_received_of_ne (x := x) hgt.ne'
    have hexpr : (x.result g).expr v = (x.server g).graph.expr v := by
      rw [expr_result_eq_self hin hv, hreceived]
      intro hmem
      rw [children, hreceived] at hmem
      exact (hin.operands_lt _ (hfresh.expr.mem_operands hmem)).false
    refine ⟨?_, .inr ⟨?_, fun c hc => .inr (hfresh.expr.mem_operands ?_)⟩⟩
    · rw [isLive_result_of_lt hin hv, received, ServerPart.received, isLive_modifyExpr]
      exact hfresh.live
    · rw [hexpr]
      rcases hfresh.expr with ⟨u, -, name, he⟩ | ⟨a, he⟩ | ⟨a, -, b, -, he⟩ <;> rw [he] <;> rfl
    · rwa [children, hexpr] at hc
  · rw [size_result] at hlt
    rcases Nat.eq_or_lt_of_le (Nat.le_of_lt_succ hlt) with rfl | hvc
    · refine ⟨?_, .inl rfl⟩
      rw [sameShape_result.live_eq, Graph.declare, isLive_modifyExpr, grown, isLive, client,
        node_clientGraph_client hboundary hin.parents_lt]
    · have hlive : (x.result g).isLive v =
          ((x.prepared g).node v).live := by
        rw [sameShape_result.live_eq, Graph.declare, isLive_modifyExpr, grown, isLive,
          node_clientGraph_of_ge hboundary hin.parents_lt hv hvc]
      have hexpr : (x.grown g).expr v =
          (x.prepared g).expr v := by
        rw [grown, Graph.expr, node_clientGraph_of_ge hboundary hin.parents_lt hv hvc, Graph.expr]
      rcases Nat.eq_or_lt_of_le hv with rfl | hvar
      · -- The variable is declared and has no slots.
        rw [expr_clientFields_self] at hexpr
        have hinside : (x.received g).size < (x.grown g).size := by
          rw [grown, size_clientGraph]
          exact Nat.lt_succ_of_lt hvc
        have hvar : (x.result g).expr (x.received g).size = .var
            { name := "$from", kind := .row, decl := some (x.client g) } := by
          rw [sameShape_result.expr_eq, Graph.declare, expr_modifyExpr, if_pos ⟨rfl, hinside⟩, hexpr]
        refine ⟨by rw [hlive, node_clientFields_self], .inr ⟨by rw [hvar]; rfl, fun c hc => ?_⟩⟩
        rw [children, hvar] at hc
        cases hc
      · obtain ⟨f, hf, rfl⟩ := mem_clientFields hvar hvc
        rw [expr_clientFields_field hf] at hexpr
        have hfield : (x.result g).expr f.expr = .field (x.received g).size f.name := by
          rw [sameShape_result.expr_eq, Graph.declare, expr_modifyExpr,
            if_neg fun h => hvar.ne' h.1, hexpr]
        refine ⟨by rw [hlive, addsFields_client.node_eq f hf],
          .inr ⟨by rw [hfield]; rfl, fun c hc => .inl ?_⟩⟩
        rw [children, hfield] at hc
        rw [List.mem_singleton.1 hc]
        exact hboundary.le

theorem IsScanned.diverts_bounded (hv : v < g.size) :
    ∃ f, g.Diverts x.block f ∧ (x.bounded g).expr v = (g.expr v).mapChildren f := by
  rw [expr_bounded (hx.isIn hg).block_lt hv]
  split
  · exact ⟨_, .redirect (.inl rfl) le_rfl, rfl⟩
  · exact ⟨_, .id, (g.expr v).mapChildren_id.symm⟩

theorem IsScanned.keepsRows_bounded : x.KeepsRows g (x.bounded g) := by
  have hin := hx.isIn hg
  refine ⟨fun v hv _ => hx.diverts_bounded hg hv,
    ⟨x.b, block?_bounded hin.block_eq hin.anchored, rfl⟩,
    ⟨_, expr_bounded_boundary hin.block_eq hin.anchored, rfl, fun h => absurd rfl h⟩,
    fun v hv hrows => ?_⟩
  rw [expr_of_size_le (size_bounded ▸ hv)] at hrows
  cases hrows

theorem IsScanned.keepsRows_result : x.KeepsRows g (x.result g) := by
  have hin := hx.isIn hg
  obtain ⟨expanded, server, hp⟩ := hin.exists_server
  refine ⟨fun v hv hne => ?_, ⟨server, block?_result_block hin hp, hp.clauses_eq.1⟩,
    ⟨_, expr_result_boundary hin hp, rfl, fun hkeys => ?_⟩, fun v hv hrows => ?_⟩
  · -- The slots are diverted to the boundary and from there to the client part.
    obtain ⟨f, hf, hexpr⟩ := hx.diverts_bounded hg hv
    rw [expr_result_of_lt hin (hin.lt_size_received hv), hin.expr_received hv hne, hexpr]
    split
    · have hclient : g.size ≤ x.client g :=
        Nat.le_of_lt (hin.boundary_lt.trans_le size_received_le_client)
      exact ⟨_, hf.comp (.redirect (.inr le_rfl) hclient), Expr.mapChildren_mapChildren ..⟩
    · exact ⟨f, hf, rfl⟩
  · refine Bool.of_not_eq_false fun hdedup => hkeys ?_
    have hall := hp.keys
    rw [hdedup] at hall
    exact List.forall₂_nil_right_iff.1 hall
  · have hlt : v < (x.result g).size := Nat.lt_of_not_le fun hge => by
      rw [expr_of_size_le hge] at hrows
      cases hrows
    rcases (hx.result_new hg hv hlt).2 with rfl | ⟨hnone, -⟩
    · rw [block?_eq_some.1 (block?_result_client hin)]
      rfl
    · rw [hnone] at hrows
      cases hrows

theorem IsScanned.keepsRows_splitOne :
    x.KeepsRows g (if x.isSplit then x.result g else x.bounded g) := by
  split
  · exact hx.keepsRows_result hg
  · exact hx.keepsRows_bounded hg

end

theorem KeepsRows.keepsNames (hk : x.KeepsRows g h) (hx : x.IsScanned g) (hsize : g.size ≤ h.size) :
    KeepsNames (fun v => v = x.block ∨ g.size ≤ v) g h := by
  refine ⟨hsize, fun v => ?_, fun v hv => ?_⟩
  · by_cases hv : v = x.block ∨ g.size ≤ v
    · -- A scan is neither at the block nor among the new nodes.
      have hnone {k : Graph} (hk : ∀ s, k.scan? v ≠ some s) : (k.expr v).table? = none := by
        cases hexpr : k.expr v with
        | scan s => exact absurd (scan?_eq_some.2 hexpr) (hk s)
        | _ => rfl
      rw [hnone fun s hs => hk.old_of_scan? hs hv, hnone fun s hs => ?_]
      rcases hv with rfl | hge
      · rw [scan?, block?_eq_some.1 hx.block_eq] at hs
        cases hs
      · rw [scan?, expr_of_size_le hge] at hs
        cases hs
    · obtain ⟨f, -, hexpr⟩ := hk.old v (Nat.lt_of_not_le fun h => hv (.inr h)) fun h => hv (.inl h)
      rw [hexpr, Expr.table?_mapChildren]
  · obtain ⟨f, -, hexpr⟩ := hk.old v (Nat.lt_of_not_le fun h => hv (.inr h)) fun h => hv (.inl h)
    rw [hexpr, Expr.fieldNames_mapChildren]

end SplitSite

/-- A split leaves the root where it is, or puts a new node there. -/
theorem Split.root_splitOne {r : NodeId} (hg : g.Sound)
    (hlive : g.isLive block) (hsplit : splitOne c g block = .ok h) (hr : g.root = some r) :
    ∃ r', h.root = some r' ∧ (r' = r ∨ (g.size ≤ r' ∧ r' < h.size)) := by
  rcases splitOne_cases hg hlive hsplit with rfl | ⟨x, t, hx, rfl, -, -, rfl⟩
  · exact ⟨r, hr, .inl rfl⟩
  · have hin := hx.isIn hg
    have hbounded : ∃ r', (x.bounded g).root = some r' ∧
        (r' = r ∨ r' = g.size) := by
      rw [root_bounded, hr]
      split
      · exact ⟨g.size, rfl, .inr rfl⟩
      · exact ⟨r, rfl, .inl rfl⟩
    obtain ⟨r', hr', hcase⟩ := hbounded
    have hsize : g.size < (x.result g).size ∧ x.client g < (x.result g).size ∧
        g.size ≤ x.client g := by
      have hlt := hin.boundary_lt.trans_le SplitSite.size_received_le_client
      rw [SplitSite.size_result]
      exact ⟨Nat.lt_succ_of_lt hlt, Nat.lt_succ_self _, hlt.le⟩
    split
    · rw [hin.root_result, hr']
      split
      · exact ⟨x.client g, rfl, .inr ⟨hsize.2.2, hsize.2.1⟩⟩
      · refine ⟨r', rfl, hcase.imp_right fun h => ⟨h.symm.le, h.trans_lt hsize.1⟩⟩
    · exact ⟨r', hr', hcase.imp_right fun h =>
        ⟨h.symm.le, by rw [h, size_bounded]; exact Nat.lt_succ_self _⟩⟩

/-- A split keeps tables, and names but for those at its block. -/
theorem Split.keepsNames_splitOne (hg : g.Sound)
    (hlive : g.isLive block) (hsplit : splitOne c g block = .ok h) :
    KeepsNames (fun v => v = block ∨ g.size ≤ v) g h := by
  rcases splitOne_cases hg hlive hsplit with rfl | ⟨x, t, hx, rfl, -, -, rfl⟩
  · exact .refl _ h
  · refine (hx.keepsRows_splitOne hg).keepsNames hx ?_
    split
    · rw [SplitSite.size_result]
      exact Nat.le_succ_of_le (Nat.lt_of_lt_of_le (hx.isIn hg).boundary_lt
        SplitSite.size_received_le_client).le
    · rw [size_bounded]
      exact Nat.le_succ _

/-- Scans use what is local after a split. -/
theorem Split.scansLocally_splitOne (hg : g.Sound)
    (hs : g.ScansLocally) (hlive : g.isLive block) (hsplit : splitOne c g block = .ok h) :
    h.ScansLocally := by
  have hnames := keepsNames_splitOne hg hlive hsplit
  rcases splitOne_cases hg hlive hsplit with rfl | ⟨x, t, hx, rfl, -, -, rfl⟩
  · exact hs
  · have hin := hx.isIn hg
    have hblock : (g.expr x.block).isLocal = false := by
      rw [block?_eq_some.1 hx.block_eq]
      rfl
    refine hs.redirects x.block g.size hnames hblock fun v hv hself hkind hchildren => ?_
    split
    · refine hin.expr_result hv ?_ hself hchildren
      rintro rfl
      rw [block?_eq_some.1 hx.block_eq] at hkind
      simp [Expr.isLocal, Expr.isScan] at hkind
    · rw [expr_bounded hin.block_lt hv, hself, ite_self]

end ShardedQuery
