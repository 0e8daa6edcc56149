import ShardedQuery.Proofs.Access.CompleteKey
import ShardedQuery.Proofs.Passes
import ShardedQuery.Proofs.Split.Types

/-!
# Records that cross the boundary

The server part of a split block sends records to the client part. They begin with the fields that
the block asks for, and the columns that the boundary sorts by or tells duplicates by are among what
it sends. The client part picks the fields by name, so that its type is the one that the block had.
-/

namespace ShardedQuery

open ShardedQuery.Graph List

variable {fields row : List (String × ItemType)} {g : Graph} {v : NodeId} {rank : NodeId → Nat}

/-! ## Fields of records -/

theorem lookup_append_of_mem {extra : List (String × ItemType)} {field : String × ItemType}
    (hnodup : (fields.map (·.1)).Nodup) (hfield : field ∈ fields) :
    (fields ++ extra).lookup field.1 = some field.2 := by
  obtain ⟨before, after, rfl⟩ := append_of_mem hfield
  refine lookup_eq_some_iff.2 ⟨before, after ++ extra, by simp, fun other hother => ?_⟩
  rw [map_append, nodup_append] at hnodup
  have hne := hnodup.2.2 other.1 (mem_map_of_mem hother) field.1 (by simp)
  exact bne_iff_ne.2 hne.symm

/-- Fields that are picked by their names are the first fields of the record. -/
theorem map_fieldStep_record (hnodup : (fields.map (·.1)).Nodup) (extra : List (String × ItemType)) :
    (fields.map (·.1)).map (fun name =>
      (name, ((SeqType.one (.record (fields ++ extra))).fieldStep name).item)) = fields := by
  rw [map_map]
  refine (map_congr_left fun field hfield => ?_).trans (map_id _)
  have hlookup : (fields ++ extra).lookup field.1 = some field.2 :=
    lookup_append_of_mem hnodup hfield
  simp [SeqType.fieldStep, SeqType.one, ItemType.fieldType?, hlookup]

theorem Graph.typeRule_block {b : Block} (hb : g.block? v = some b) (t : NodeId → SeqType) :
    g.typeRule t v =
      if b.star then .star ((b.firstVar?.map fun u => (t u).item).getD .any)
      else .star (.record (b.select.map fun f => (f.name, (t f.expr).item))) := by
  rw [typeRule, block?_eq_some.1 hb]

namespace SplitSite

section
variable {x : SplitSite} {S : NodeId → Prop} {expanded server : Block} {u : NodeId}
  (hx : x.IsScanned g) (hm : g.Maintained S [])
  (hp : x.IsServed g expanded server)

/-! ## Columns -/

section
include hx hm hp

/-- Field steps of the server part stay as they are. -/
theorem expr_result_of_field {name : String} (hv : (x.server g).graph.expr v = .field u name)
    (hu : u ≠ g.size) : (x.result g).expr v = .field u name := by
  have hin := hx.isIn hm.toSound
  have hlt : v < (x.received g).size := by
    rw [retouches_received.size_eq]
    exact lt_size_of_expr (by rw [hv]; simp)
  have hne : v ≠ g.size := by
    rintro rfl
    rw [hp.edits.expr_eq _ size_lt_bounded hin.block_lt.ne',
      expr_bounded_boundary hin.block_eq hin.anchored] at hv
    cases hv
  have hexpr := (expr_received_of_ne hne).trans hv
  rw [expr_result_eq_self hin hlt, hexpr]
  rw [children, hexpr]
  exact fun hmem => hu (mem_singleton.1 hmem).symm

/-- The columns of the key are among those that are sent. -/
theorem keyColumns_result : Forall₂ (fun pos name => ∃ f, server.select[pos]? = some f ∧
    (x.result g).expr f.expr = .field x.rowVar name) (x.server g).keyPositions
    (if x.scan.dedup then x.key else []) := by
  have hrow := Nat.ne_of_lt (hx.isIn hm.toSound).rowVar_lt
  refine hp.keys.imp fun pos name hpos => ?_
  obtain ⟨f, hf, hexpr⟩ := hpos
  exact ⟨f, hf, expr_result_of_field hx hm hp hexpr hrow⟩

end

/-! ## Sort columns -/

section
variable (hS : S x.block) (hrow : S x.rowVar)
include hx hm hS

theorem IsScanned.below_of_mem_children (ho : g.Ordered rank) (hu : u ∈ (Expr.block x.b).children) :
    S u ∧ rank u < rank x.block := by
  have hexpr := block?_eq_some.1 hx.block_eq
  have hchild : u ∈ g.children x.block := by rwa [children, hexpr]
  refine ⟨hm.closed _ hS u (.inl hchild), ho.rank_lt _ _ ?_⟩
  simp [uses, hexpr, Expr.isScan, hchild]

include hrow in
theorem IsScanned.below_of_mem_serverOperands (ho : g.Ordered rank)
    (hu : u ∈ serverOperands x.rowVar x.b) : S u ∧ rank u < rank x.block := by
  rcases mem_serverOperands hu with rfl | hu
  · obtain ⟨e, he, hvar, -⟩ := hx.entry
    have hdecl : x.rowVar ∈ (Expr.block x.b).declared :=
      hvar ▸ mem_map_of_mem (mem_of_head? he)
    exact ⟨hrow, ho.rank_lt _ _ (by simp [uses, block?_eq_some.1 hx.block_eq, hdecl])⟩
  · exact hx.below_of_mem_children hm hS ho hu

theorem IsScanned.exists_ordered_expanded {m : Graph}
    (hexp : IsExpanded x.block x.rowVar (serverOperands x.rowVar x.b) x.b
      (x.bounded g) m expanded) : ∃ rank, m.Ordered rank := by
  have hin := hx.isIn hm.toSound
  have hclauses : expanded.entries = x.b.entries ∧ (expanded.star → x.b.star) := by
    rcases hexp.cases with ⟨-, rfl, -⟩ | ⟨_, _, hstar, -, rfl, -, -⟩
    · exact ⟨rfl, id⟩
    · exact ⟨rfl, fun _ => hstar⟩
  have hscope := hx.keepsScope_of hm.toSound hexp.toEditsBlock hexp.block_eq hexp.slots
    hclauses.1 hclauses.2
    fun c hc => hexp.mem_children hc
  obtain ⟨rank, ho, -⟩ := hscope.exists_ordered (hx.maintained_bounded hm hS).toSound
  exact ⟨rank, ho⟩

variable (hscans : g.ScansLocally)
include hrow hscans hp

/-- The sort keys are among the columns that are sent. -/
theorem sortColumns_result : Forall₂ (fun pos k => ∃ f, server.select[pos]? = some f ∧
    (x.result g).alike f.expr k.expr) (x.server g).sortPositions x.b.sort := by
  have hin := hx.isIn hm.toSound
  obtain ⟨rank, ho⟩ := hm.ordered
  obtain ⟨m, hexp, hedits, hpos⟩ := hp.sort
  have hspare := hx.spares_result hm hS hscans ho hrow
  obtain ⟨rank', ho'⟩ := hx.exists_ordered_expanded hm hS hexp
  obtain ⟨rank'', ho''⟩ := (hx.maintained_result hm hS hrow).ordered
  -- The keys were compared when the star was expanded. What is below the block, and what was added
  -- for the star, has stayed as it was.
  let A (v : NodeId) : Prop := (S v ∧ rank v < rank x.block) ∨
    ((x.bounded g).size ≤ v ∧ v < m.size)
  have hold {v : NodeId} (hv : S v ∧ rank v < rank x.block) : m.expr v = g.expr v := by
    have hlt := hm.inside v hv.1
    have hne : v ≠ x.block := by
      rintro rfl
      exact hv.2.false
    rw [hexp.expr_eq v (lt_size_bounded hlt) hne,
      hx.expr_bounded_below hscans ho hlt hv.2]
  have hnew {v u : NodeId} (hge : (x.bounded g).size ≤ v) (hlt : v < m.size)
      (hu : u ∈ m.children v) : S u ∧ rank u < rank x.block :=
    hx.below_of_mem_serverOperands hm hS hrow ho ((hexp.fresh v hge hlt).expr.mem_operands hu)
  have hA : ∀ v, A v → ∀ u ∈ operands (m.expr v), A u := by
    rintro v (hv | ⟨hge, hlt⟩) u hu
    · rw [hold hv] at hu
      exact .inl ⟨hm.closed v hv.1 u (.inl (operands_subset_children hu)),
        (ho.rank_lt v u (operands_subset_uses hu)).trans hv.2⟩
    · exact .inl (hnew hge hlt (operands_subset_children hu))
  have hexpr : ∀ v, A v → (x.result g).expr v = m.expr v ∨
      ((m.expr v).isBlock ∧ ((x.result g).expr v).isBlock) := by
    rintro v (hv | ⟨hge, hlt⟩)
    · exact .inl ((hspare.expr_eq v hv).trans (hold hv).symm)
    · have hgt : g.size < v := size_lt_bounded.trans_le hge
      have hreceived : (x.received g).expr v = m.expr v :=
        (expr_received_of_ne hgt.ne').trans
          (hedits.expr_eq v hlt (Nat.ne_of_gt (hin.block_lt.trans hgt)))
      refine .inl (Eq.trans (expr_result_eq_self hin ?_ fun hmem => ?_) hreceived)
      · rw [retouches_received.size_eq]
        exact hlt.trans_le hedits.size_le
      · rw [children, hreceived] at hmem
        exact (hm.inside _ (hnew hge hlt hmem).1).false
  have hsort : ∀ k ∈ x.b.sort, A k.expr := fun k hk =>
    .inl (hx.below_of_mem_children hm hS ho (mem_children_of_mem_sort hk))
  have hpos' := (forall₂_and_left _ _).2 ⟨hsort, hpos.flip⟩
  refine hpos'.flip.imp fun pos k hk => ?_
  obtain ⟨hkey, f, hf, hmem, halike⟩ := hk
  refine ⟨f, hf, (alike_eq_of_agree ho' ho'' hA hexpr ?_ hkey).symm.trans halike⟩
  exact (hexp.mem_children hmem).imp_left (hx.below_of_mem_children hm hS ho)

end

/-! ## Types -/

section
include hx

/-- The block lives, and so does what the server part has added for it. -/
theorem IsScanned.isLive_result_server (hg : g.Sound) (hv : v = x.block ∨
    ((x.bounded g).size ≤ v ∧ v < (x.server g).graph.size)) :
    (x.result g).isLive v := by
  have hin := hx.isIn hg
  obtain ⟨expanded, server, hp⟩ := hin.exists_server
  have hlt := hin.block_lt
  rcases hv with rfl | ⟨hge, hv⟩
  · rw [isLive_result_of_lt hin (hin.lt_size_received hlt), hin.isLive_received hlt]
    exact hx.live
  · rw [isLive_result_of_lt hin (by rwa [retouches_received.size_eq]),
      retouches_received.live_eq]
    exact (hp.edits.fresh v hge hv).live

/-- The boundary lives, and so does what the client part has added. -/
theorem IsScanned.isLive_result_client (hg : g.Sound) (hv : v = g.size ∨
    ((x.received g).size ≤ v ∧ v ≤ x.client g)) : (x.result g).isLive v := by
  have hin := hx.isIn hg
  rcases hv with rfl | ⟨hge, hle⟩
  · rw [isLive_result_of_lt hin hin.boundary_lt]
    exact hx.live_received hg
  · rw [isLive_result, grown, Graph.isLive]
    rcases Nat.eq_or_lt_of_le hle with rfl | hlt
    · rw [client, node_clientGraph_client hin.boundary_lt hin.parents_lt]
    · rw [node_clientGraph_of_ge hin.boundary_lt hin.parents_lt hge hlt]
      rcases Nat.eq_or_lt_of_le hge with rfl | hgt
      · rw [node_clientFields_self]
      · obtain ⟨f, hf, rfl⟩ := mem_clientFields hgt hlt
        rw [addsFields_client.node_eq f hf]

theorem IsScanned.expr_result_field (hg : g.Sound) {f : SelectField} (hf : f ∈ x.fields g) :
    (x.result g).expr f.expr = .field (x.var g) f.name := by
  have hin := hx.isIn hg
  have hf : f ∈ ((x.received g).clientFields (x.server g).requested).1 := hf
  obtain ⟨hgt, hlt⟩ := lt_of_mem_clientFields hf
  have hne : f.expr ≠ x.var g := hgt.ne'
  have hexpr := expr_clientFields_field hf
  rw [Graph.expr] at hexpr
  rw [sameShape_result.expr_eq, declare, expr_modifyExpr, if_neg fun h => hne h.1, grown, Graph.expr,
    node_clientGraph_of_ge hin.boundary_lt hin.parents_lt hgt.le hlt,
    hexpr, var]

omit hx in
theorem names_fields : (x.fields g).map (·.name) = (x.server g).requested := by
  rw [fields]
  exact addsFields_client.names_eq

omit hx in
theorem clientBlock_eq : x.clientBlock g =
    { entries := [⟨g.size, x.var g⟩], select := x.fields g, offset := x.b.offset,
      limit := x.b.limit } :=
  rfl

variable (hm : g.Maintained S []) (hS : S x.block) (hrow : S x.rowVar)
include hm hS hrow

theorem IsScanned.exprType_result_derived (hlive : (x.result g).isLive v)
    (hv : S v ∨ g.size ≤ v) (hcalm : (x.result g).IsCalm v) :
    (x.result g).exprType v = (x.result g).typeRule (x.result g).exprType v := by
  have hm' := hx.maintained_result hm hS hrow
  obtain ⟨rank, ho⟩ := hm'.ordered
  exact hm'.toSettled.exprType_of_isCalm ho
    (hv.imp_right fun hge => ⟨hge, lt_size_of_isLive hlive⟩) hlive hcalm.2

/-- A record that crosses the boundary has the type of the items of the server part. -/
theorem IsScanned.exprType_result_var :
    (x.result g).exprType (x.var g) = .one ((x.result g).exprType x.block).item := by
  have hin := hx.isIn hm.toSound
  obtain ⟨expanded, server, hp⟩ := hin.exists_server
  have hreceive := expr_result_boundary hin hp
  have hboundary : (x.result g).exprType g.size = (x.result g).exprType x.block := by
    rw [hx.exprType_result_derived hm hS hrow (hx.isLive_result_client hm.toSound (.inl rfl))
      (.inr le_rfl) (isCalm_of_inner (by rw [hreceive]; rfl)), typeRule, hreceive]
    rfl
  have hvar := hx.expr_result_var hm.toSound
  have hsource := hx.varSource?_result_var hm.toSound
  have hlive : (x.result g).isLive (x.var g) :=
    hx.isLive_result_client hm.toSound (.inr ⟨le_rfl, size_received_le_client⟩)
  have hcalm := (sameShape_declared.isCalm_iff _).2 (hx.isCalm_declared hm.toSound).2.1
  rw [hx.exprType_result_derived hm hS hrow hlive (.inr hin.boundary_lt.le) hcalm,
    typeRule, hvar]
  dsimp only
  rw [hsource, Option.map_some, hboundary]
  rfl

/-- The client part returns records of the fields that it finds in the records of the server part. -/
theorem IsScanned.exprType_result_client : (x.result g).exprType (x.client g) =
    .star (.record ((x.server g).requested.map fun name =>
      (name, ((SeqType.one ((x.result g).exprType x.block).item).fieldStep name).item))) := by
  have hin := hx.isIn hm.toSound
  have hclient := block?_eq_some.1 (block?_result_client hin)
  have hle : (x.received g).size ≤ x.client g := size_received_le_client
  have hge : g.size ≤ x.client g := (Nat.le_of_lt hin.boundary_lt).trans hle
  have hlive : (x.result g).isLive (x.client g) :=
    hx.isLive_result_client hm.toSound (.inr ⟨hle, le_rfl⟩)
  have hfield {f : SelectField} (hf : f ∈ x.fields g) : (x.result g).exprType f.expr =
      (SeqType.one ((x.result g).exprType x.block).item).fieldStep f.name := by
    have hexpr := hx.expr_result_field hm.toSound hf
    obtain ⟨hgt, hlt⟩ := lt_of_mem_clientFields hf
    have hlive : (x.result g).isLive f.expr :=
      hx.isLive_result_client hm.toSound (.inr ⟨hgt.le, hlt.le⟩)
    rw [hx.exprType_result_derived hm hS hrow hlive
      (.inr ((Nat.le_of_lt hin.boundary_lt).trans (Nat.le_of_lt hgt)))
      (isCalm_of_inner (by rw [hexpr]; rfl)), typeRule, hexpr]
    simp only [hx.exprType_result_var hm hS hrow]
  rw [hx.exprType_result_derived hm hS hrow hlive (.inr hge)
    (isCalm_of_inner (by rw [hclient]; rfl)), typeRule, hclient]
  have hrecord : (x.fields g).map (fun f => (f.name, ((x.result g).exprType f.expr).item)) =
      ((x.fields g).map (·.name)).map fun name =>
        (name, ((SeqType.one ((x.result g).exprType x.block).item).fieldStep name).item) := by
    rw [map_map]
    exact map_congr_left fun f hf => by rw [hfield hf, Function.comp_apply]
  rw [names_fields] at hrecord
  simp only [clientBlock_eq, Bool.false_eq_true, if_false, hrecord]

/-- The server part returns records of the fields that it selects. -/
theorem IsScanned.exprType_result_block
    (hp : x.IsServed g expanded server) (hstar : expanded.star = false) :
    (x.result g).exprType x.block = .star (.record (server.select.map fun f =>
      (f.name, ((x.result g).exprType f.expr).item))) := by
  have hblock := block?_eq_some.1 (block?_result_block (hx.isIn hm.toSound) hp)
  have hstar' : server.star = false := by rw [hp.server_eq]; exact hstar
  rw [hx.exprType_result_derived hm hS hrow (hx.isLive_result_server hm.toSound (.inl rfl)) (.inl hS)
    (isCalm_of_inner (by rw [hblock]; rfl)), typeRule, hblock]
  simp only [hstar', Bool.false_eq_true, if_false]

/-- The client part has the type of the fields that are asked for. -/
theorem IsScanned.exprType_result_client_eq
    (hp : x.IsServed g expanded server) (hstar : expanded.star = false)
    (hnodup : (expanded.select.map (·.name)).Nodup) :
    (x.result g).exprType (x.client g) = .star (.record (expanded.select.map fun f =>
      (f.name, ((x.result g).exprType f.expr).item))) := by
  obtain ⟨extra, hextra, -⟩ := hp.generated
  rw [hx.exprType_result_client hm hS hrow, hx.exprType_result_block hm hS hrow hp hstar,
    hp.requested, hextra, map_append]
  have hnames : expanded.select.map (·.name) = (expanded.select.map fun f =>
      (f.name, ((x.result g).exprType f.expr).item)).map (·.1) := by
    rw [map_map]
    rfl
  rw [hnames] at hnodup ⊢
  exact congrArg (fun fields => SeqType.star (.record fields))
    (map_fieldStep_record hnodup _)

/-- The row variable has the type of the rows, before and after. -/
theorem IsScanned.exprType_rowVar (hscans : g.ScansLocally) :
    g.exprType x.rowVar = .one x.scan.rowType ∧
      (x.bounded g).exprType x.rowVar = .one x.scan.rowType ∧
      (x.result g).exprType x.rowVar = .one x.scan.rowType := by
  have hin := hx.isIn hm.toSound
  obtain ⟨expanded, server, hp⟩ := hin.exists_server
  obtain ⟨e, he, hvar, hscan⟩ := hx.entry
  obtain ⟨rank, ho⟩ := hm.ordered
  have hbelow : S e.domain ∧ rank e.domain < rank x.block := by
    refine hx.below_of_mem_children hm hS ho ?_
    exact mem_children_of_mem_entries (mem_of_head? he)
  have htype {k : Graph} {S' : NodeId → Prop} {b' : Block} (hk : k.Maintained S' [])
      (hb : k.block? x.block = some b') (hentries : b'.entries = x.b.entries)
      (hexpr : k.expr e.domain = g.expr e.domain) : k.exprType x.rowVar = .one x.scan.rowType := by
    obtain ⟨rank', ho'⟩ := hk.ordered
    have hs : k.scan? e.domain = some x.scan := by
      rw [scan?_eq_some, hexpr]
      exact scan?_eq_some.1 hscan
    rw [← hvar]
    exact ho'.exprType_of_constant hk.constants
      (hk.toSound.constantType?_rowVar hb (by rw [hentries]; exact he) hs)
  have hentries : server.entries = x.b.entries := (hx.keepsScope hm.toSound hp).entries
  exact ⟨htype hm hx.block_eq rfl rfl,
    htype (hx.maintained_bounded hm hS) (block?_bounded hin.block_eq hin.anchored) rfl
      (hx.expr_bounded_below hscans ho (hm.inside _ hbelow.1) hbelow.2),
    htype (hx.maintained_result hm hS hrow) (block?_result_block hin hp) hentries
      ((hx.spares_result hm hS hscans ho hrow).expr_eq _ hbelow)⟩

/-- A star is always expanded, into the columns of the row. -/
theorem IsScanned.star_cases (hscans : g.ScansLocally) (hrecord : x.scan.rowType = .record row)
    (hp : x.IsServed g expanded server) :
    (x.b.star = false ∧ expanded = x.b) ∨ (x.b.star ∧ expanded.star = false ∧
      expanded.select.map (·.name) = row.map (·.1) ∧
      AreColumns x.rowVar (x.bounded g) (x.server g).graph expanded.select) := by
  obtain ⟨m, hexp, -, -⟩ := hp.sort
  obtain ⟨-, hbounded, -⟩ := hx.exprType_rowVar hm hS hrow hscans
  have hitem : ((x.bounded g).exprType x.rowVar).item = .record row := by
    rw [hbounded, hrecord]
    rfl
  rcases hp.star with rfl | ⟨fields, select, hstar, htype, rfl, hnames, hcols⟩
  · refine .inl ⟨?_, rfl⟩
    rcases hexp.cases with ⟨-, -, hnot⟩ | ⟨_, _, -, -, heq, -, -⟩
    · exact Bool.eq_false_iff.2 fun hstar => hnot hstar row hitem
    · rw [heq]
  · cases ItemType.record.inj (hitem.symm.trans htype)
    exact .inr ⟨hstar, rfl, hnames, hcols⟩

/-- The client part has the type that the block had, if the fields that are asked for have different
names. -/
theorem IsScanned.exprType_client_eq_block (hscans : g.ScansLocally)
    (hnodup : (x.b.select.map (·.name)).Nodup) (hrecord : x.scan.rowType = .record row)
    (hcolumns : (row.map (·.1)).Nodup) :
    (x.result g).exprType (x.client g) = g.exprType x.block := by
  have hin := hx.isIn hm.toSound
  obtain ⟨expanded, server, hp⟩ := hin.exists_server
  obtain ⟨rank, ho⟩ := hm.ordered
  obtain ⟨hbefore, -, hafter⟩ := hx.exprType_rowVar hm hS hrow hscans
  have hcalm : g.IsCalm x.block := isCalm_of_inner (by rw [block?_eq_some.1 hx.block_eq]; rfl)
  have hderived : g.exprType x.block = g.typeRule g.exprType x.block :=
    hm.toSettled.exprType_of_isCalm ho hS hx.live hcalm.2
  rw [hderived, typeRule_block hx.block_eq]
  rcases hx.star_cases hm hS hrow hscans hrecord hp with ⟨hstar, rfl⟩ | ⟨hstar, hnot, hnames, hcols⟩
  · -- Without a star, the fields are those of the block, and they have the types they had.
    rw [hx.exprType_result_client_eq hm hS hrow hp hstar hnodup, hstar]
    refine congrArg (fun fields => SeqType.star (.record fields))
      (map_congr_left fun f hf => ?_)
    obtain ⟨hmem, hlt⟩ := hx.below_of_mem_children hm hS ho (mem_children_of_mem_select hf)
    rw [hx.exprType_result hm hS hscans ho hrow hmem hlt]
  · -- With a star, they are the columns of the row.
    have hselected :
        expanded.select.map (fun f => (f.name, ((x.result g).exprType f.expr).item)) = row := by
      have hpicked := map_fieldStep_record hcolumns []
      rw [append_nil, ← hnames, map_map] at hpicked
      refine Eq.trans (map_congr_left fun f hf => ?_) hpicked
      have hexpr := expr_result_of_field hx hm hp (hcols.expr f hf) hin.rowVar_lt.ne
      have hge : g.size ≤ f.expr :=
        Nat.le_trans (size_bounded ▸ Nat.le_succ _) (hcols.lt f hf).1
      have hlive := hx.isLive_result_server hm.toSound (.inr (hcols.lt f hf))
      rw [hx.exprType_result_derived hm hS hrow hlive (.inr hge)
        (isCalm_of_inner (by rw [hexpr]; rfl)), typeRule, hexpr]
      simp only [hafter, hrecord, Function.comp_apply]
    have hfirst : x.b.firstVar?.map (fun v => (g.exprType v).item) = some (.record row) := by
      rw [hin.first, Option.map_some, hbefore, hrecord]
      rfl
    rw [hx.exprType_result_client_eq hm hS hrow hp hnot (hnames ▸ hcolumns), hselected, if_pos hstar,
      hfirst]
    rfl

end

end

end SplitSite

/-! ## A split in a run -/

/-- The records that cross the boundary when a block is split, wherever a run has come to. The fields
that the block asks for come first, in their order, which are the columns of the table for a star. The
boundary has a column for each sort key that matches it, with the specifications of the keys, and
one for each component of the primary key if duplicates are to be removed. The client part picks the
fields by their names, and has the type that the block had. -/
theorem Split.splitOne_keeps_records {c : Catalog} {o : Options} {first : Pass} {l : Layout}
    {root block : NodeId} {todo : List NodeId} {g : Graph} {b : Block} {e : FromEntry}
    {s : TableScan} {t : Table} (hl : l.IsReached c) (hroot : l.graph.root = some root)
    (hreach : Pass.Reaches c o first l.graph .distribution (block :: todo) g)
    (hlive : g.isLive block) (hb : g.block? block = some b) (he : b.entries.head? = some e)
    (hscan : g.scan? e.domain = some s) (htable : c.table s.table = .ok t) (hbuilt : t.IsBuilt)
    (hplace : s.singlePartition = false)
    (hneed : b.hasSort || b.offset.isSome || b.limit.isSome || s.dedup) :
    ∃ h boundary r var client server above columns generated,
      Split.splitOne c g block = .ok h ∧
      h.block? block = some server ∧
      h.expr boundary = .receive r ∧ r.input = block ∧
      h.block? client = some above ∧ above.entries = [⟨boundary, var⟩] ∧
      server.select = columns ++ generated ∧
      (b.star = false → columns = b.select) ∧
      (b.star → columns.map (·.name) = t.fields.map (·.name) ∧
        ∀ f ∈ columns, h.expr f.expr = .field e.var f.name) ∧
      Forall₂ (fun pos key => ∃ f, server.select[pos]? = some f ∧ h.alike f.expr key.expr)
        r.sortPositions b.sort ∧
      r.sortSpecs = b.sort.map (·.spec) ∧
      Forall₂ (fun pos name => ∃ f, server.select[pos]? = some f ∧
        h.expr f.expr = .field e.var name) r.keyPositions (if s.dedup then t.primaryKey else []) ∧
      above.star = false ∧
      above.select.map (·.name) = columns.map (·.name) ∧
      (∀ f ∈ above.select, h.expr f.expr = .field var f.name) ∧
      h.exprType client = g.exprType block := by
  obtain ⟨S, hg⟩ := hreach.isSteady hl hroot
  have hg : Pass.IsSplitting c S (block :: todo) g := hg
  let x : SplitSite := ⟨block, e.var, b, s, t.primaryKey⟩
  have hx : x.IsScanned g := ⟨hb, hlive, e, he, rfl, hscan⟩
  have hin := hx.isIn hg.toSound
  have hS : S x.block := hg.todo_mem block mem_cons_self
  have hm := hx.withRowVar hg.toMaintained hS
  have hS' : S x.block ∨ x.block = x.rowVar := .inl hS
  have hrow : S x.rowVar ∨ x.rowVar = x.rowVar := .inr rfl
  obtain ⟨expanded, server, hp⟩ := hin.exists_server
  obtain ⟨generated, hselect, -⟩ := hp.generated
  have hrecord : x.scan.rowType = .record (t.fields.map fun f => (f.name, f.itemType)) := by
    obtain ⟨t', ht', hrowType⟩ := hg.covers e.domain s hscan
    cases htable.symm.trans ht'
    exact hrowType
  have hcolumns : (t.fields.map fun f => (f.name, f.itemType)).map (·.1) = t.fields.map (·.name) := by
    rw [map_map]
    rfl
  have hnodup : (x.b.select.map (·.name)).Nodup := by
    have hnames := hg.names block mem_cons_self
    rwa [block?_eq_some.1 hb] at hnames
  have hstar := hx.star_cases hm hS' hrow hg.scans hrecord hp
  refine ⟨x.result g, g.size, _, x.var g, x.client g, server, x.clientBlock g, expanded.select,
    generated,
    Split.splitOne_eq hin (Option.map_eq_some_iff.2 ⟨e, he, rfl⟩) hscan htable rfl hplace hneed,
    SplitSite.block?_result_block hin hp, SplitSite.expr_result_boundary hin hp, rfl,
    SplitSite.block?_result_client hin, rfl, hselect, fun hnot => ?_, fun hyes => ?_,
    SplitSite.sortColumns_result hx hm hp hS' hrow hg.scans, rfl,
    SplitSite.keyColumns_result hx hm hp, rfl, SplitSite.names_fields.trans hp.requested,
    fun f hf => hx.expr_result_field hg.toSound hf,
    hx.exprType_client_eq_block hm hS' hrow hg.scans hnodup hrecord
      (hcolumns ▸ hbuilt.nodup_names)⟩
  · rcases hstar with ⟨-, rfl⟩ | ⟨hyes, -⟩
    · rfl
    · cases hnot.symm.trans hyes
  · rcases hstar with ⟨hnot, -⟩ | ⟨-, -, hnames, hcols⟩
    · cases hnot.symm.trans hyes
    · exact ⟨hnames.trans hcolumns, fun f hf => SplitSite.expr_result_of_field hx hm hp
        (hcols.expr f hf) (Nat.ne_of_lt hin.rowVar_lt)⟩

/-- `SELECT b AS sort_gen0, d AS pk_gen0 FROM t ORDER BY a`: the names are those of columns that the
server part adds. -/
def generatedNames : Layout :=
  Layout.script ⟨[pairTable]⟩
    [.draft, .scanTable "t" "t" [], .value (.field 1 "b"), .value (.field 1 "d"),
      .value (.field 1 "a"), .select "sort_gen0" 2, .select "pk_gen0" 3, .sort 4 .asc, .build, .root 5]

theorem Split.splitOne_keeps_records_generated :
    ∃ h client server above generated,
      Split.splitOne ⟨[pairTable]⟩ generatedNames.graph.inferTypes 5 = .ok h ∧
      h.block? 5 = some server ∧ h.block? client = some above ∧
      server.select = [⟨"sort_gen0", 2⟩, ⟨"pk_gen0", 3⟩] ++ generated ∧
      above.select.map (·.name) = ["sort_gen0", "pk_gen0"] ∧
      h.exprType client = generatedNames.graph.inferTypes.exprType 5 := by
  have hl : generatedNames.IsReached ⟨[pairTable]⟩ := Layout.isReached_script _ _
  have hroot : generatedNames.graph.root = some 5 := by decide +kernel
  have htodo : generatedNames.graph.inferTypes.queryBlocks = [5] := by decide +kernel
  have hreach : Pass.Reaches ⟨[pairTable]⟩ {} .distribution generatedNames.graph .distribution
      generatedNames.graph.inferTypes.queryBlocks generatedNames.graph.inferTypes := .start
  rw [htodo] at hreach
  have hblock : generatedNames.graph.inferTypes.block? 5 = some
      { entries := [⟨0, 1⟩], select := [⟨"sort_gen0", 2⟩, ⟨"pk_gen0", 3⟩],
        sort := [⟨4, .asc⟩] } := by decide +kernel
  have hscan : generatedNames.graph.inferTypes.scan? 0 = some
      { table := "t", rowType := pairTable.rowType } := by decide +kernel
  obtain ⟨h, -, -, -, client, server, above, columns, generated, hsplit, hserver, -, -, hclient, -,
      hselect, hcolumns, -, -, -, -, -, hnames, -, htype⟩ :=
    Split.splitOne_keeps_records hl hroot hreach (by decide +kernel) hblock rfl hscan
      (t := pairTable) rfl isBuilt_pairTable rfl rfl
  obtain rfl := hcolumns rfl
  exact ⟨h, client, server, above, generated, hsplit, hserver, hclient, hselect, hnames, htype⟩

end ShardedQuery
