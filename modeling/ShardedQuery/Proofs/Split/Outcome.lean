import ShardedQuery.Proofs.Split.Client
import ShardedQuery.Proofs.Split.Server

/-!
# What a split leaves behind

`Graph.splitBlock` first edits the block, which becomes the server part (`Graph.serverPart`), tells
the boundary where the sort and key columns are, and puts the client part above the boundary.
-/

namespace ShardedQuery.Graph

open List

variable {block c rowVar : NodeId} {b : Block} {g : Graph} {dedup : Bool} {key : List String}

/-! ## The server part -/

/-- The operands of the nodes that a server part adds: the row variable, and the window. -/
def serverOperands (rowVar : NodeId) (b : Block) : List NodeId :=
  rowVar :: (b.offset.toList ++ b.limit.toList)

theorem mem_serverOperands {u : NodeId} (hu : u ∈ serverOperands rowVar b) :
    u = rowVar ∨ u ∈ (Expr.block b).children :=
  (mem_cons.1 hu).imp_right fun hu => children_window b ▸ mem_append_right _ hu

/-- `p` is the server part of a block `b` that reads `expanded` without its star. -/
structure IsServerPart (block rowVar : NodeId) (b : Block) (dedup : Bool) (key : List String)
    (g : Graph) (p : ServerPart) (expanded server : Block) : Prop where
  edits : EditsBlock block (serverOperands rowVar b) g p.graph
  block_eq : p.graph.block? block = some server
  slots : p.graph.RecordsSlots block
  tallied : (b.star → b.select = []) → g.TalliedBut block (Expr.block b).children →
    p.graph.TalliedBut block (Expr.block server).children
  star : expanded = b ∨ ∃ fields select, b.star ∧ (g.exprType rowVar).item = .record fields ∧
    expanded = { b with select := select, star := false } ∧
    select.map (·.name) = fields.map (·.1) ∧ AreColumns rowVar g p.graph select
  requested : p.requested = expanded.select.map (·.name)
  server_eq : server = { expanded with
    select := server.select, offset := none, limit := server.limit }
  generated : ∃ extra, server.select = expanded.select ++ extra ∧ ∀ f ∈ extra,
    (∃ k ∈ b.sort, f.expr = k.expr) ∨
      (g.size ≤ f.expr ∧ f.expr < p.graph.size ∧ ∃ name, p.graph.expr f.expr = .field rowVar name)
  sort : ∃ m, IsExpanded block rowVar (serverOperands rowVar b) b g m expanded ∧
    EditsBlock block (serverOperands rowVar b) m p.graph ∧
    Forall₂ (fun pos k => ∃ f, server.select[pos]? = some f ∧
      f.expr ∈ (Expr.block expanded).children ∧ m.alike f.expr k.expr) p.sortPositions b.sort
  keys : Forall₂ (fun pos name => ∃ f, server.select[pos]? = some f ∧
    p.graph.expr f.expr = .field rowVar name) p.keyPositions (if dedup then key else [])
  limit_none : b.limit = none → server.limit = none
  limit_eq : b.offset = none → server.limit = b.limit
  limit_end : ∀ o ∈ b.offset, ∀ l ∈ b.limit, ∃ e, server.limit = some e ∧ g.size ≤ e ∧
    p.graph.expr e = g.windowEnd o l

section
variable {operands : List NodeId}

/-- The children of a block that lost its star are those it had, or new columns. -/
theorem IsExpanded.mem_children {h : Graph} {b' : Block}
    (hexp : IsExpanded block rowVar operands b g h b') (hc : c ∈ (Expr.block b').children) :
    c ∈ (Expr.block b).children ∨ (g.size ≤ c ∧ c < h.size) := by
  rcases hexp.cases with ⟨-, rfl, -⟩ | ⟨fields, select, -, -, rfl, -, hcols⟩
  · exact .inl hc
  · simp only [Expr.children, mem_append] at hc ⊢
    by_cases hsel : c ∈ select.map (·.expr)
    · obtain ⟨f, hf, rfl⟩ := mem_map.1 hsel
      exact .inr (hcols.lt f hf)
    · exact .inl (by tauto)

/-- The key columns, if there are to be any. -/
theorem exists_keyPart (key : List String) (hs : IsEditable block operands g b)
    (hrow : rowVar ∈ operands) (hvar : dedup → ∃ v, g.expr rowVar = .var v ∧ v.kind = .row) :
    ∃ positions h extra,
      (if dedup then g.keyColumns block rowVar 0 key else ([], g)) = (positions, h) ∧
      KeyColumns block rowVar operands b g h extra positions (if dedup then key else []) := by
  cases dedup with
  | false => exact ⟨[], g, [], rfl, .nil hs, by simp, by simp, .nil⟩
  | true =>
    obtain ⟨v, hv, hkind⟩ := hvar rfl
    obtain ⟨extra, hkeys⟩ := keyColumns_spec hkind hrow key 0 hs hv
    exact ⟨_, _, extra, rfl, hkeys⟩

theorem exists_serverPart (hs : IsEditable block (serverOperands rowVar b) g b)
    (hrow : dedup → ∃ v, g.expr rowVar = .var v ∧ v.kind = .row) :
    ∃ expanded server, IsServerPart block rowVar b dedup key g
      (g.serverPart block rowVar b dedup key) expanded server := by
  have hmem : rowVar ∈ serverOperands rowVar b := .head _
  obtain ⟨expanded, hexp⟩ := exists_isExpanded hs hmem
  have hclauses : expanded.sort = b.sort ∧ expanded.offset = b.offset ∧
      expanded.limit = b.limit := by
    rcases hexp.cases with ⟨-, rfl, -⟩ | ⟨_, _, -, -, rfl, -, -⟩ <;> exact ⟨rfl, rfl, rfl⟩
  have hs₂ := hexp.toIsEditable
  -- The sort columns.
  obtain ⟨sorted, hsel, -, -, hsorted, hpos⟩ :=
    sortColumns_spec b.sort 0 hs₂ fun k hk => hclauses.1 ▸ hk
  have hs₃ := hsel.editable hs₂
  have hedits₃ := hexp.toEditsBlock.trans hs.block_lt hs.operands_lt hsel.toEditsBlock
  have hrow₃ : dedup → ∃ v, ((g.expandStar block rowVar).sortColumns block 0 b.sort).2.expr
      rowVar = .var v ∧ v.kind = .row := by
    intro hd
    obtain ⟨v, hv, hkind⟩ := hrow hd
    exact ⟨v, hedits₃.expr_kept hs.block_eq (hs.operands_lt _ hmem) hv rfl, hkind⟩
  -- The key columns.
  obtain ⟨positions, g₄, keys, heq, hkeys⟩ := exists_keyPart key hs₃ hmem hrow₃
  have hs₄ := hkeys.editable hs₃
  have hedits₄ := hedits₃.trans hs.block_lt hs.operands_lt hkeys.toEditsBlock
  -- The window.
  have hwindow : ∀ e ∈ expanded.offset.toList ++ expanded.limit.toList,
      e ∈ serverOperands rowVar b := by
    rw [hclauses.2.1, hclauses.2.2]
    exact fun e he => .tail _ he
  obtain ⟨limit, hlim, hnone, hsome, hend⟩ := exists_limits hs₄ hwindow
  have hrest := (hsel.trans hs₂ hkeys.toTurns).trans hs₂ hlim
  simp only [hclauses.2.1, hclauses.2.2] at hlim hrest hnone hsome hend
  have hpart : g.serverPart block rowVar b dedup key =
      ⟨expanded.select.map (·.name), ((g.expandStar block rowVar).sortColumns block 0 b.sort).1,
        positions, g₄.limitServer block b.offset b.limit⟩ := by
    simp only [serverPart, heq, hexp.block_eq, Option.map_some, Option.getD_some]
  rw [hpart]
  refine ⟨expanded, _,
    { edits := hedits₄.trans hs.block_lt hs.operands_lt hlim.toEditsBlock
      block_eq := hlim.block_eq
      slots := (hrest.editable hs₂).slots
      tallied := fun hselect ht => hrest.accounts.tallied (hexp.tallied hselect ht)
      star := ?_
      requested := rfl
      server_eq := rfl
      generated := ⟨sorted ++ keys, append_assoc .., ?_⟩
      sort := ⟨g.expandStar block rowVar, hexp, hrest.toEditsBlock, ?_⟩
      keys := ?_
      limit_none := hnone
      limit_eq := hsome
      limit_end := ?_ }⟩
  · rcases hexp.cases with ⟨-, hsame, -⟩ | ⟨fields, select, hstar, htype, hsel', hnames, hcols⟩
    · exact .inl hsame
    · refine .inr ⟨fields, select, hstar, htype, hsel', hnames, fun f hf => ?_, fun f hf => ?_⟩
      · have := hcols.lt f hf
        exact ⟨this.1, hrest.lt_size this.2⟩
      · exact hrest.expr_kept hexp.block_eq (hcols.lt f hf).2 (hcols.expr f hf) rfl
  · intro f hf
    rcases mem_append.1 hf with hf | hf
    · exact .inl (hsorted f hf)
    · obtain ⟨n, hn⟩ := hkeys.columns f hf
      have := hkeys.lt f hf
      exact .inr ⟨hedits₃.size_le.trans this.1, hlim.lt_size this.2, n,
        hlim.expr_kept hkeys.block_eq this.2 hn rfl⟩
  · refine hpos.imp fun pos k hk => ?_
    obtain ⟨f, hf, halike⟩ := hk
    refine ⟨f, getElem?_append_of_eq_some hf keys, ?_, halike⟩
    rcases mem_append.1 (mem_of_getElem? hf) with hmem | hmem
    · exact mem_children_of_mem_select hmem
    · obtain ⟨k', hk', hfk⟩ := hsorted f hmem
      exact hfk ▸ mem_children_of_mem_sort (hclauses.1.symm ▸ hk')
  · refine hkeys.positions.imp fun pos name hname => ?_
    obtain ⟨f, hf, hn⟩ := hname
    have hlt := hs₄.records.lt f.expr (mem_children_of_mem_select (mem_of_getElem? hf))
    exact ⟨f, hf, hlim.expr_kept hkeys.block_eq hlt hn rfl⟩
  · intro o ho l hl
    obtain ⟨e, he, hge, hexpr⟩ := hend o ho l hl
    refine ⟨e, he, hedits₄.size_le.trans hge, hexpr.trans ?_⟩
    have hconst {v : NodeId} (hv : v ∈ serverOperands rowVar b) :
        g₄.constantInt? v = g.constantInt? v :=
      hedits₄.constantInt?_eq hs.block_eq hkeys.block_eq (hs.operands_lt v hv)
    have ho' : o ∈ serverOperands rowVar b := by simp [serverOperands, Option.mem_def.1 ho]
    have hl' : l ∈ serverOperands rowVar b := by simp [serverOperands, Option.mem_def.1 hl]
    rw [windowEnd, hconst ho', hconst hl', windowEnd]

end

theorem windowEnd_ne_empty (g : Graph) (offset limit : NodeId) :
    g.windowEnd offset limit ≠ .literal .empty := by
  unfold windowEnd
  split
  · split <;> simp
  · simp

section
variable {expanded server : Block} {p : ServerPart}
  (hp : IsServerPart block rowVar b dedup key g p expanded server)
include hp

theorem IsServerPart.clauses_eq : server.entries = b.entries ∧ server.condition = b.condition ∧
    server.sort = b.sort ∧ server.offset = none := by
  rw [hp.server_eq]
  rcases hp.star with rfl | ⟨_, _, -, -, rfl, -, -⟩ <;> exact ⟨rfl, rfl, rfl, rfl⟩

/-- The children of the server part are those of the block, or new. -/
theorem IsServerPart.mem_children (hc : c ∈ (Expr.block server).children) :
    c ∈ (Expr.block b).children ∨ (g.size ≤ c ∧ c < p.graph.size) := by
  obtain ⟨extra, hextra, hgen⟩ := hp.generated
  simp only [Expr.children, hp.clauses_eq, mem_append, Option.toList_none, not_mem_nil,
    or_false] at hc
  rcases hc with (((hdom | hcond) | hsel) | hsort) | hlim
  · exact .inl (by simp only [Expr.children, mem_append]; tauto)
  · exact .inl (by simp only [Expr.children, mem_append]; tauto)
  · obtain ⟨f, hf, rfl⟩ := mem_map.1 hsel
    rw [hextra] at hf
    rcases mem_append.1 hf with hf | hf
    · rcases hp.star with rfl | ⟨fields, select, -, -, rfl, -, hcols⟩
      · exact .inl (mem_children_of_mem_select hf)
      · exact .inr (hcols.lt f hf)
    · rcases hgen f hf with ⟨k, hk, hfk⟩ | ⟨hge, hlt, -⟩
      · exact .inl (hfk ▸ mem_children_of_mem_sort hk)
      · exact .inr ⟨hge, hlt⟩
  · exact .inl (by simp only [Expr.children, mem_append]; tauto)
  · cases ho : b.offset with
    | none =>
      rw [hp.limit_eq ho] at hlim
      exact .inl (by simp only [Expr.children, mem_append]; tauto)
    | some o =>
      cases hl : b.limit with
      | none =>
        rw [hp.limit_none hl] at hlim
        cases hlim
      | some l =>
        obtain ⟨e, he, hge, hexpr⟩ := hp.limit_end o ho l hl
        rw [he, Option.toList_some, mem_singleton] at hlim
        subst hlim
        refine .inr ⟨hge, lt_size_of_expr ?_⟩
        rw [hexpr]
        exact windowEnd_ne_empty g o l

end

/-! ## The boundary -/

/-- The links of a block stay within the graph, its children know it, and it does not use itself. -/
structure Anchored (g : Graph) (block : NodeId) : Prop where
  children_lt : ∀ c ∈ g.children block, c < g.size
  declared_lt : ∀ v ∈ (g.expr block).declared, v < g.size
  parents_lt : ∀ p ∈ g.parents block, p < g.size
  not_self : block ∉ g.children block
  slots : g.RecordsSlots block

theorem anchored_iff : g.Anchored block ↔
    (∀ c ∈ g.children block, c < g.size) ∧ (∀ v ∈ (g.expr block).declared, v < g.size) ∧
      (∀ p ∈ g.parents block, p < g.size) ∧ block ∉ g.children block ∧ g.RecordsSlots block :=
  ⟨fun h => ⟨h.children_lt, h.declared_lt, h.parents_lt, h.not_self, h.slots⟩,
    fun ⟨hc, hd, hp, hs, hr⟩ => ⟨hc, hd, hp, hs, hr⟩⟩

instance (g : Graph) (block : NodeId) : Decidable (g.Anchored block) :=
  decidable_of_iff' _ anchored_iff

/-- The graph with the boundary above a block. -/
def bounded (g : Graph) (block : NodeId) (s : TableScan) : Graph :=
  (g.parents block).foldl refresh (g.inserted block fun input =>
    .receive { input := input, distribution := s.distribution })

section
variable {s : TableScan}

theorem size_bounded : (g.bounded block s).size = g.size + 1 := by
  rw [bounded, (SameShape.refreshAll _ _).size_eq, size_inserted]

theorem size_lt_bounded : g.size < (g.bounded block s).size := size_bounded ▸ Nat.lt_succ_self _

section
variable {v : NodeId}

theorem lt_size_bounded (hv : v < g.size) : v < (g.bounded block s).size :=
  hv.trans size_lt_bounded

variable (hlt : block < g.size) (hv : v < g.size)
include hlt hv

theorem isLive_bounded : (g.bounded block s).isLive v = g.isLive v := by
  rw [bounded, (SameShape.refreshAll _ _).live_eq, isLive_inserted_of_lt hlt hv]

theorem expr_bounded : (g.bounded block s).expr v =
    if v ∈ g.parents block then (g.expr v).mapChildren (redirect block g.size) else g.expr v := by
  rw [bounded, (SameShape.refreshAll _ _).expr_eq, expr_inserted_of_lt hlt hv]

theorem expr_bounded_literal {a : Value} (ha : g.expr v = .literal a) :
    (g.bounded block s).expr v = .literal a := by
  rw [expr_bounded hlt hv, ha]
  split <;> rfl

end

variable (hb : g.block? block = some b) (ha : g.Anchored block)
include hb ha

theorem block?_bounded : (g.bounded block s).block? block = some b := by
  have hlt := lt_size_of_block? hb
  rw [bounded, (SameShape.refreshAll _ _).block?_eq, block?_eq_some, expr_inserted_of_lt hlt hlt,
    block?_eq_some.1 hb]
  split
  · refine Expr.mapChildren_eq_self fun c hc => ?_
    have hne : c ≠ block := fun h => ha.not_self (by rw [children, block?_eq_some.1 hb, ← h]; exact hc)
    rw [redirect, if_neg hne]
  · rfl

theorem expr_bounded_boundary : (g.bounded block s).expr g.size =
    .receive { input := block, distribution := s.distribution } := by
  rw [bounded, (SameShape.refreshAll _ _).expr_eq, expr,
    node_inserted_self (lt_size_of_block? hb) ha.parents_lt]

theorem parents_bounded_boundary : (g.bounded block s).parents g.size = g.parents block := by
  rw [bounded, (SameShape.refreshAll _ _).parents_eq, parents,
    node_inserted_self (lt_size_of_block? hb) ha.parents_lt]

theorem records_bounded : (g.bounded block s).Records block (Expr.block b).children := by
  have hlt := lt_size_of_block? hb
  rw [← children_of_block? hb]
  refine ⟨fun c hmem => lt_size_bounded (ha.children_lt c hmem), fun c hc => ?_⟩
  rw [bounded, (SameShape.refreshAll _ _).parents_eq]
  by_cases hmem : c ∈ g.children block
  · have hcg := ha.children_lt c hmem
    have hne : c ≠ block := fun h => ha.not_self (h ▸ hmem)
    rw [parents_inserted_of_lt hlt hcg, if_neg hne, count_append]
    rw [isLive_bounded hlt hcg] at hc
    exact Nat.le_add_right_of_le (ha.slots c hc)
  · rw [count_eq_zero_of_not_mem hmem]
    exact Nat.zero_le _

end

end ShardedQuery.Graph

namespace ShardedQuery

open ShardedQuery.Graph List

variable {scan v : NodeId} {c : Catalog} {g : Graph} {t : Table} {a : Value}

/-! ## The whole split -/

/-- A block that is split, with the variable and the scan of its first FROM entry and the primary
key of its table. -/
structure SplitSite where
  block : NodeId
  rowVar : NodeId
  b : Block
  scan : TableScan
  key : List String

namespace SplitSite

variable (x : SplitSite) (g : Graph)

/-- The graph with the boundary above the block. -/
abbrev bounded : Graph := g.bounded x.block x.scan

def server : ServerPart :=
  (x.bounded g).serverPart x.block x.rowVar x.b x.scan.dedup x.key

/-- What the block is once its star is expanded, and what it is as the server part. -/
abbrev IsServed (expanded server : Block) : Prop :=
  IsServerPart x.block x.rowVar x.b x.scan.dedup x.key (x.bounded g) (x.server g)
    expanded server

/-- The graph in which the boundary knows the server part. -/
def received : Graph := (x.server g).received g.size x.b

/-- The variable of the client part. -/
def var : NodeId := (x.received g).size

/-- The graph with the variable of the client part and the fields that it selects. -/
abbrev prepared : Graph := ((x.received g).clientFields (x.server g).requested).2

/-- The fields that the client part selects. -/
def fields : List SelectField := ((x.received g).clientFields (x.server g).requested).1

/-- The client part. -/
def client : NodeId := (x.prepared g).size

def clientBlock : Block :=
  (x.received g).clientBlock (x.server g).requested x.b.offset x.b.limit g.size

/-- The graph with the client part, before types are derived anew and the variable is declared. -/
def grown : Graph :=
  (x.received g).clientGraph g.size (x.server g).requested x.b.offset x.b.limit

/-- The graph with the client part and its variable declared. -/
def declared : Graph :=
  (((x.received g).parents g.size).foldl refresh (x.grown g)).declare (x.var g) (x.client g)

/-- The graph after the split. -/
def result : Graph :=
  (((x.declared g).refresh x.block).refresh (x.var g)).refresh (x.client g)

/-- The site describes a block of the graph. -/
structure IsIn (x : SplitSite) (g : Graph) : Prop where
  block_eq : g.block? x.block = some x.b
  anchored : g.Anchored x.block
  first : x.b.firstVar? = some x.rowVar
  rowVar : x.scan.dedup → ∃ v, g.expr x.rowVar = .var v ∧ v.kind = .row

section
variable {x : SplitSite} {g : Graph} (hx : x.IsIn g)
include hx

theorem IsIn.block_lt : x.block < g.size := lt_size_of_block? hx.block_eq

theorem IsIn.rowVar_lt : x.rowVar < g.size := by
  refine hx.anchored.declared_lt _ ?_
  rw [block?_eq_some.1 hx.block_eq]
  obtain ⟨e, he, hvar⟩ := Option.map_eq_some_iff.1 hx.first
  exact hvar ▸ mem_map_of_mem (mem_of_head? he)

theorem IsIn.operands_lt : ∀ u ∈ serverOperands x.rowVar x.b, u < g.size := by
  intro u hu
  rcases mem_serverOperands hu with rfl | hu
  · exact hx.rowVar_lt
  · exact hx.anchored.children_lt u (children_of_block? hx.block_eq ▸ hu)

theorem IsIn.exists_server : ∃ expanded server, x.IsServed g expanded server := by
  refine exists_serverPart ⟨block?_bounded hx.block_eq hx.anchored,
    fun u hu => lt_size_bounded (hx.operands_lt u hu),
    records_bounded hx.block_eq hx.anchored⟩ fun hd => ?_
  obtain ⟨v, hv, hkind⟩ := hx.rowVar hd
  refine ⟨v, ?_, hkind⟩
  rw [expr_bounded hx.block_lt hx.rowVar_lt, hv]
  split <;> rfl

theorem IsIn.boundary_lt : g.size < (x.received g).size := by
  obtain ⟨expanded, server, hp⟩ := hx.exists_server
  rw [received, ServerPart.received, modifyExpr, size_modify]
  exact size_lt_bounded.trans_le hp.edits.size_le

theorem IsIn.lt_size_received (hv : v < g.size) : v < (x.received g).size :=
  hv.trans hx.boundary_lt

theorem IsIn.isLive_received (hv : v < g.size) : (x.received g).isLive v = g.isLive v := by
  obtain ⟨expanded, server, hp⟩ := hx.exists_server
  rw [received, ServerPart.received, isLive_modifyExpr, hp.edits.live_eq v (lt_size_bounded hv),
    isLive_bounded hx.block_lt hv]

/-- The boundary, before it knows where its columns are. -/
theorem IsIn.expr_server_boundary : (x.server g).graph.expr g.size =
    .receive { input := x.block, distribution := x.scan.distribution } := by
  obtain ⟨expanded, server, hp⟩ := hx.exists_server
  rw [hp.edits.expr_eq g.size size_lt_bounded hx.block_lt.ne',
    expr_bounded_boundary hx.block_eq hx.anchored]

theorem IsIn.parents_lt : ∀ p ∈ (x.received g).parents g.size, p < (x.received g).size := by
  obtain ⟨expanded, server, hp⟩ := hx.exists_server
  have hle := hp.edits.size_le
  have hlt := hx.block_lt
  intro p hmem
  rw [received, ServerPart.received, parents_modifyExpr] at hmem
  rw [received, ServerPart.received, modifyExpr, size_modify]
  rw [size_bounded] at hle
  rcases hp.edits.mem_parents _ p hmem with hmem | rfl | hmem
  · rw [parents_bounded_boundary hx.block_eq hx.anchored] at hmem
    have := hx.anchored.parents_lt p hmem
    grind
  · grind
  · exact hmem.2.1

omit hx in
theorem sameShape_result : SameShape ((x.grown g).declare (x.var g) (x.client g)) (x.result g) :=
  (((SameShape.refreshAll _ _).modifyExpr _ _).trans (SameShape.refresh _ _)).trans
    ((SameShape.refresh _ _).trans (SameShape.refresh _ _))

omit hx in
theorem size_result : (x.result g).size = x.client g + 1 :=
  sameShape_result.size_eq.trans ((size_modify ..).trans size_clientGraph)

omit hx in
theorem size_received_le_client : (x.received g).size ≤ x.client g := by
  rw [client, size_clientFields, Nat.add_assoc]
  exact Nat.le_add_right _ _

omit hx in
theorem isLive_result : (x.result g).isLive v = (x.grown g).isLive v := by
  rw [sameShape_result.live_eq, Graph.declare, isLive_modifyExpr]

theorem isLive_result_of_lt (hv : v < (x.received g).size) :
    (x.result g).isLive v = (x.received g).isLive v := by
  rw [isLive_result, grown, isLive, node_clientGraph_of_lt hx.boundary_lt hv, isLive]

theorem expr_result_of_lt (hv : v < (x.received g).size) :
    (x.result g).expr v = if v ∈ (x.received g).parents g.size then
        ((x.received g).expr v).mapChildren (redirect g.size (x.client g))
      else (x.received g).expr v := by
  rw [sameShape_result.expr_eq, Graph.declare, expr_modifyExpr,
    if_neg fun h => hv.ne h.1, grown, Graph.expr, node_clientGraph_of_lt hx.boundary_lt hv]
  rfl

variable {expanded server : Block} (hp : x.IsServed g expanded server)

omit hx in
theorem expr_received_of_ne (hv : v ≠ g.size) :
    (x.received g).expr v = (x.server g).graph.expr v := by
  rw [received, ServerPart.received, expr_modifyExpr, if_neg fun h => hv h.1]

theorem IsIn.expr_received (hv : v < g.size) (hne : v ≠ x.block) :
    (x.received g).expr v = (x.bounded g).expr v := by
  obtain ⟨expanded, server, hp⟩ := hx.exists_server
  rw [expr_received_of_ne hv.ne, hp.edits.expr_eq v (lt_size_bounded hv) hne]

theorem expr_result_eq_self (hv : v < (x.received g).size)
    (hnot : g.size ∉ (x.received g).children v) : (x.result g).expr v = (x.received g).expr v := by
  rw [expr_result_of_lt hx hv]
  split
  · refine Expr.mapChildren_eq_self fun c hc => ?_
    have hne : c ≠ g.size := fun h => hnot (h ▸ hc)
    rw [redirect, if_neg hne]
  · rfl

include hp in
/-- The block is the server part. -/
theorem block?_result_block : (x.result g).block? x.block = some server := by
  have hlt := hx.block_lt
  have hexpr : (x.received g).expr x.block = .block server :=
    (expr_received_of_ne hlt.ne).trans (block?_eq_some.1 hp.block_eq)
  rw [block?_eq_some, expr_result_eq_self hx (hx.lt_size_received hlt), hexpr]
  intro hmem
  rw [children, hexpr] at hmem
  rcases hp.mem_children hmem with hmem | ⟨hge, -⟩
  · rw [← children_of_block? hx.block_eq] at hmem
    exact (hx.anchored.children_lt _ hmem).false
  · rw [size_bounded] at hge
    exact Nat.not_succ_le_self _ hge

include hp in
theorem expr_received_boundary : (x.received g).expr g.size = .receive ((x.server g).receive x.b
    { input := x.block, distribution := x.scan.distribution }) := by
  rw [received, ServerPart.received, expr_modifyExpr,
    if_pos ⟨rfl, size_lt_bounded.trans_le hp.edits.size_le⟩, hx.expr_server_boundary]

include hp in
theorem expr_result_boundary : (x.result g).expr g.size = .receive ((x.server g).receive x.b
    { input := x.block, distribution := x.scan.distribution }) := by
  have hexpr := expr_received_boundary hx hp
  rw [expr_result_eq_self hx hx.boundary_lt, hexpr]
  intro hmem
  rw [children, hexpr] at hmem
  exact hx.block_lt.ne' (mem_singleton.1 hmem)

theorem expr_result_of_literal (hne : v ≠ g.size) (hv : v < (x.received g).size)
    (ha : (x.server g).graph.expr v = .literal a) : (x.result g).expr v = .literal a := by
  have hexpr := (expr_received_of_ne hne).trans ha
  rw [expr_result_eq_self hx hv, hexpr]
  rw [children, hexpr]
  exact not_mem_nil

include hp in
/-- What limits the server part comes to the end of the window. -/
theorem IsIn.exists_limit_result {o l : NodeId} (ho : o ∈ x.b.offset) (hl : l ∈ x.b.limit) :
    ∃ e, server.limit = some e ∧ g.size < e ∧ e < (x.received g).size ∧
      (x.result g).expr e = (x.bounded g).windowEnd o l := by
  obtain ⟨e, he, hge, hexpr⟩ := hp.limit_end o ho l hl
  have hgt : g.size < e := size_lt_bounded.trans_le hge
  have hreceived := (expr_received_of_ne hgt.ne').trans hexpr
  have hlt : e < (x.received g).size := lt_size_of_expr (hreceived ▸ windowEnd_ne_empty _ o l)
  refine ⟨e, he, hgt, hlt, ?_⟩
  rw [expr_result_eq_self hx hlt, hreceived]
  rw [children, hreceived]
  intro hmem
  have ho' : o ∈ serverOperands x.rowVar x.b := by simp [serverOperands, Option.mem_def.1 ho]
  have hl' : l ∈ serverOperands x.rowVar x.b := by simp [serverOperands, Option.mem_def.1 hl]
  exact (hx.operands_lt _ ((isAdded_windowEnd ho' hl').mem_operands hmem)).false

include hp in
theorem expr_result_literal (ha : g.expr v = .literal a) (hv : v < g.size) :
    (x.result g).expr v = .literal a := by
  refine expr_result_of_literal hx hv.ne (hx.lt_size_received hv) ?_
  rw [hp.edits.expr_eq v (lt_size_bounded hv), expr_bounded_literal hx.block_lt hv ha]
  rintro rfl
  rw [block?_eq_some.1 hx.block_eq] at ha
  cases ha

theorem block?_result_client : (x.result g).block? (x.client g) = some (x.clientBlock g) := by
  have hne : x.client g ≠ x.var g := by
    rw [client, var, size_clientFields]
    exact Nat.ne_of_gt (by omega)
  rw [block?_eq_some, sameShape_result.expr_eq, Graph.declare, expr_modifyExpr,
    if_neg fun h => hne h.1, grown, Graph.expr, client,
    node_clientGraph_client hx.boundary_lt hx.parents_lt]
  rfl

end

end SplitSite

theorem TableScan.distribution_eq_singlePartition {s : TableScan} :
    s.distribution = .singlePartition ↔ s.singlePartition := by
  unfold distribution
  cases s.singlePartition <;> cases s.isPrimary <;> simp

/-- The block sorts, windows or removes duplicates, with rows that come from several places. -/
def SplitSite.isSplit (x : SplitSite) : Bool :=
  !x.scan.singlePartition &&
    (x.b.hasSort || x.b.offset.isSome || x.b.limit.isSome || x.scan.dedup)

section
variable {x : SplitSite} (hx : x.IsIn g) (hdomain : x.b.firstDomain? = some scan)
  (hscan : g.scan? scan = some x.scan) (htable : c.table x.scan.table = .ok t)
  (hkey : x.key = t.primaryKey)
include hx hdomain hscan htable hkey

/-- A block that need not be split just gets the boundary. -/
theorem Split.splitOne_eq_ite :
    Split.splitOne c g x.block = .ok (if x.isSplit then x.result g else x.bounded g) := by
  have hblock : (x.bounded g).block? x.block = some x.b :=
    block?_bounded hx.block_eq hx.anchored
  have hsplit : (x.bounded g).splitBlock x.block g.size x.rowVar x.b x.scan.dedup x.key =
      x.result g := by
    have hboundary := hx.boundary_lt
    simp only [SplitSite.received, SplitSite.server] at hboundary
    simp only [splitBlock, addClient, insertAbove, parents_clientFields_of_lt hboundary]
    rfl
  rw [Split.splitOne, hx.block_eq, Option.bind_some, hdomain]
  simp only [hscan, Split.distribute, htable, insertAbove]
  simp only [bind, Except.bind, TableScan.distribution_eq_singlePartition, pure, Except.pure]
  have hb' := hblock
  simp only [bounded] at hb'
  cases hplace : x.scan.singlePartition with
  | true => simp [SplitSite.isSplit, hplace, bounded]
  | false =>
    simp only [hb', Bool.false_eq_true, if_false, hx.first, ← hkey, SplitSite.isSplit, hplace,
      Bool.not_false, Bool.true_and]
    split
    · exact congrArg Except.ok hsplit
    · rfl

/-- A block is split when rows come from several places and it sorts, windows or removes
duplicates. -/
theorem Split.splitOne_eq (hplace : x.scan.singlePartition = false)
    (hneed : x.b.hasSort || x.b.offset.isSome || x.b.limit.isSome || x.scan.dedup) :
    Split.splitOne c g x.block = .ok (x.result g) := by
  have hsplit : x.isSplit := by
    rw [SplitSite.isSplit, hplace, hneed]
    rfl
  rw [splitOne_eq_ite hx hdomain hscan htable hkey, if_pos hsplit]

end

end ShardedQuery
