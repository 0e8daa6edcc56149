import ShardedQuery.BlockDraft
import ShardedQuery.Proofs.BuiltTable
import ShardedQuery.Proofs.Graph.Laid
import ShardedQuery.Proofs.Graph.Local

/-!
# Laying out queries

A front end lays out a query by small steps, in any order that respects two rules: nodes are used
after they are added, and the variables of a path step are added after the input of the step. A
`Layout` is a query at some point of this, and `Layout.Step` is one step. Whatever the steps were, the
graph is sound (`Layout.IsReached.sound`).
-/

namespace ShardedQuery

open Relation List

variable {domain source u : NodeId} {g h : Graph} {ws' : List (NodeId × NodeId)} {d : BlockDraft}
  {c : Catalog} {hints : List Hint} {r : NodeId × BlockDraft × Graph} {table : String}

variable {id var : NodeId} {l : Layout} {ds' : List BlockDraft}

variable {e : Expr} {name : String}

/-- The expression computes a value and declares nothing. -/
def Expr.isValue : Expr → Bool
  | .field _ _ | .call _ _ | .literal _ | .case _ _ | .cast _ _ | .isOfType _ _ _ | .promote _ _
  | .array _ _ | .map _ => true
  | _ => false

/-- The nodes that a draft uses, FROM entries apart. -/
def BlockDraft.operands (d : BlockDraft) : List NodeId :=
  d.conjuncts ++ d.select.map (·.expr) ++ d.sort.map (·.expr) ++ d.offset.toList ++ d.limit.toList

/-- The variables of a draft, each with its domain. -/
def BlockDraft.pending (d : BlockDraft) : List (NodeId × NodeId) :=
  d.sources.map fun s => (s.entry.var, s.entry.domain)

/-- A query that is being laid out: the graph, the drafts of the blocks that are not built yet, and
the context variables whose step is not there yet, each with the input of its step. -/
structure Layout where
  graph : Graph := {}
  drafts : List BlockDraft := []
  context : List (NodeId × NodeId) := []

namespace Layout

/-- One step of a front end. Those on a draft are for the first one, and drafts may change places. -/
inductive Step (c : Catalog) : Layout → Layout → Prop
  | value {g ds ws} {e : Expr} (hvalue : e.isValue) (hlt : ∀ u ∈ e.children, u < g.size) :
    Step c ⟨g, ds, ws⟩ ⟨(g.add e).2, ds, ws⟩
  | external {g ds ws} (name : String) (t : SeqType) :
    Step c ⟨g, ds, ws⟩ ⟨(g.addExternal name t).2, ds, ws⟩
  | contextVar {g ds ws} {input : NodeId} (name : String) (kind : VarKind) (hlt : input < g.size) :
    Step c ⟨g, ds, ws⟩ ⟨(g.addVar name kind).2, ds, (g.size, input) :: ws⟩
  | pathStep {g ds ws ws'} {e : Expr} (hstep : e.stepInput?.isSome)
    (hlt : ∀ u ∈ e.children, u < g.size) (hctx : ws.Perm (e.sources ++ ws')) :
    Step c ⟨g, ds, ws⟩ ⟨(g.addDeclaring e none).2, ds, ws'⟩
  | root {g ds ws} {id : NodeId} (hlt : id < g.size) : Step c ⟨g, ds, ws⟩ ⟨g.setRoot id, ds, ws⟩
  | locate {g ds ws} (id : NodeId) (l : Option Location) :
    Step c ⟨g, ds, ws⟩ ⟨g.setLocation id l, ds, ws⟩
  | draft {g ds ws} : Step c ⟨g, ds, ws⟩ ⟨g, {} :: ds, ws⟩
  | reorder {g ds ds' ws} (hperm : ds.Perm ds') : Step c ⟨g, ds, ws⟩ ⟨g, ds', ws⟩
  | scanTable {g h ds ws d d' table name hints var}
    (hscan : BlockDraft.scanTable d g c table name hints = .ok (var, d', h)) :
    Step c ⟨g, d :: ds, ws⟩ ⟨h, d' :: ds, ws⟩
  | rangeOver {g h ds ws d d' domain name var} (hlt : domain < g.size)
    (hrange : BlockDraft.rangeOver d g domain name = .ok (var, d', h)) :
    Step c ⟨g, d :: ds, ws⟩ ⟨h, d' :: ds, ws⟩
  | column {g h ds ws d var name id} (hlt : var < g.size)
    (hcolumn : BlockDraft.column d g c var name = .ok (id, h)) :
    Step c ⟨g, d :: ds, ws⟩ ⟨h, d :: ds, ws⟩
  | restrict {g ds ws d} {condition : NodeId} (hlt : condition < g.size) :
    Step c ⟨g, d :: ds, ws⟩
      ⟨(BlockDraft.restrict d g condition).2, (d.restrict g condition).1 :: ds, ws⟩
  | select {g ds ws d d' name expr} (hlt : expr < g.size)
    (hselect : BlockDraft.addSelect d g name expr = .ok d') :
    Step c ⟨g, d :: ds, ws⟩ ⟨g, d' :: ds, ws⟩
  | star {g ds ws d} : Step c ⟨g, d :: ds, ws⟩ ⟨g, { d with star := true } :: ds, ws⟩
  | sort {g ds ws d} {expr : NodeId} (spec : SortSpec) (hlt : expr < g.size) :
    Step c ⟨g, d :: ds, ws⟩ ⟨g, BlockDraft.addSort d expr spec :: ds, ws⟩
  | offset {g ds ws d} {expr : NodeId} (hlt : expr < g.size) :
    Step c ⟨g, d :: ds, ws⟩ ⟨g, { d with offset := some expr } :: ds, ws⟩
  | limit {g ds ws d} {expr : NodeId} (hlt : expr < g.size) :
    Step c ⟨g, d :: ds, ws⟩ ⟨g, { d with limit := some expr } :: ds, ws⟩
  | locateDraft {g ds ws d} (l : Option Location) :
    Step c ⟨g, d :: ds, ws⟩ ⟨g, { d with location := l } :: ds, ws⟩
  | build {g h ds ws d id} (hbuild : BlockDraft.build d g = .ok (id, h)) :
    Step c ⟨g, d :: ds, ws⟩ ⟨h, ds, ws⟩

/-- The layout comes up when a query is laid out. -/
def IsReached (c : Catalog) (l : Layout) : Prop := ReflTransGen (Step c) {} l

section
variable {ds : List BlockDraft} {ws : List (NodeId × NodeId)} {input : NodeId}

/-- A filter of an array is laid out by steps if its condition is, while the variable waits. -/
theorem reaches_addArrayFilter {condition : NodeId → Graph → Id (NodeId × Graph)}
    (hinput : input < g.size)
    (hcondition : ReflTransGen (Step c)
      ⟨(g.addVar "$element" .element).2, ds, (g.size, input) :: ws⟩
      ⟨(condition g.size (g.addVar "$element" .element).2).2, ds, (g.size, input) :: ws⟩)
    (hlt : ∀ u ∈ [input, (condition g.size (g.addVar "$element" .element).2).1],
      u < (condition g.size (g.addVar "$element" .element).2).2.size) :
    ReflTransGen (Step c) ⟨g, ds, ws⟩ ⟨(g.addArrayFilter input condition).2, ds, ws⟩ :=
  (hcondition.head (.contextVar "$element" .element hinput)).tail (.pathStep rfl hlt (.refl _))

/-- A filter of a map is laid out by steps if its condition is, while both variables wait. -/
theorem reaches_addMapFilter {part : MapPart}
    {condition : NodeId → NodeId → Graph → Id (NodeId × Graph)} {k : Graph}
    (hh : (g.addVar "$key" .key).2 = h) (hk : (h.addVar "$value" .element).2 = k)
    (hinput : input < g.size)
    (hcondition : ReflTransGen (Step c)
      ⟨k, ds, (h.size, input) :: (g.size, input) :: ws⟩
      ⟨(condition g.size h.size k).2, ds, (h.size, input) :: (g.size, input) :: ws⟩)
    (hlt : ∀ u ∈ [input, (condition g.size h.size k).1], u < (condition g.size h.size k).2.size) :
    ReflTransGen (Step c) ⟨g, ds, ws⟩ ⟨(g.addMapFilter part input condition).2, ds, ws⟩ := by
  subst hh hk
  have hinput' : input < (g.addVar "$key" .key).2.size := by
    rw [Graph.addVar, Graph.size_add]
    exact Nat.lt_succ_of_lt hinput
  have hkey : Step c ⟨g, ds, ws⟩ _ := .contextVar "$key" .key hinput
  have hvalue := hcondition.head (.contextVar "$value" .element hinput')
  exact (hvalue.head hkey).tail (.pathStep rfl hlt (.swap ..))

end

end Layout

/-! ## What the steps keep -/

/-- The scan names a table of the catalog and knows no access path yet. -/
def Catalog.Lists (c : Catalog) (s : TableScan) : Prop :=
  ∃ t, c.table s.table = .ok t ∧ s = { table := t.name, hints := s.hints, rowType := t.rowType }

/-- A scan is of a table of the catalog, a block has one field of a name, or none if it has a star,
and there are no boundaries yet. -/
def Catalog.Admits (c : Catalog) : Expr → Prop
  | .scan s => c.Lists s
  | .block b => (b.select.map (·.name)).Nodup ∧ (b.star → b.select = [])
  | .receive _ => False
  | _ => True

/-- Whether a node may stand in a query does not depend on who declares it. -/
theorem Catalog.Admits.declaredBy (h : c.Admits e) (p : NodeId) : c.Admits (e.declaredBy p) := by
  cases e <;> exact h

/-- A table is found under its own name. -/
theorem Catalog.name_of_table {t : Table} (h : c.table name = .ok t) : t.name = name := by
  unfold table at h
  split at h
  · next u hu =>
    cases h
    simpa using find?_some hu
  · cases h

/-- A block is built if the draft has a FROM entry: the condition first, then the block. -/
theorem BlockDraft.build_eq_ok :
    d.build g = .ok (id, h) ↔ d.sources ≠ [] ∧ (id, h) =
      (g.addCondition d.conjuncts).2.addDeclaring
        (.block (d.block (g.addCondition d.conjuncts).1)) d.location := by
  unfold build
  cases hs : d.sources with
  | nil =>
    simp only [isEmpty_nil, if_true, ne_eq, not_true, false_and, iff_false]
    intro h
    cases ok_of_locateFailure h
  | cons s ss =>
    simp only [isEmpty_cons, Bool.false_eq_true, if_false, ne_eq, reduceCtorEq, not_false_eq_true,
      true_and, Except.ok.injEq]
    exact eq_comm

namespace Graph

/-- The graph has what a draft uses; the first FROM entry scans a table. -/
structure Supports (g : Graph) (d : BlockDraft) : Prop where
  operands_lt : ∀ u ∈ d.operands, u < g.size
  rows : ∀ s ∈ d.sources, ∃ x, g.expr s.entry.var = .var x ∧ x.kind = .row
  first : ∀ s ∈ d.sources.head?, ∃ t, g.scan? s.entry.domain = some t
  names : (d.select.map (·.name)).Nodup

/-- Nodes were added, and the variables of `gone` were declared. -/
structure Extends (g h : Graph) (gone : List NodeId) : Prop where
  size_le : g.size ≤ h.size
  kind : ∀ u x, g.expr u = .var x → ∃ x', h.expr u = .var x' ∧ x'.kind = x.kind ∧
    (u ∉ gone → x'.decl = x.decl)
  declared : ∀ p, ∀ u ∈ (h.expr p).declared, u ∈ (g.expr p).declared ∨ u ∈ gone
  scan : ∀ v s, g.scan? v = some s → h.scan? v = some s
  root_eq : h.root = g.root

section
variable {gone : List NodeId}

/-- A graph extends itself. -/
theorem Extends.refl (g : Graph) : g.Extends g [] :=
  ⟨le_rfl, fun _ x hx => ⟨x, hx, rfl, fun _ => rfl⟩, fun _ _ hu => .inl hu, fun _ _ hs => hs,
    rfl⟩

/-- A node that declares nothing leaves what is there as it is. -/
theorem Extends.add (hdeclared : e.declared = []) : g.Extends (g.add e).2 [] := by
  have hold {v : NodeId} (hv : v < g.size) : (g.add e).2.expr v = g.expr v := expr_add_of_lt e hv
  refine ⟨by rw [size_add]; exact Nat.le_succ _, fun u x hx => ⟨x, ?_, rfl, fun _ => rfl⟩,
    fun p u hu => ?_, fun v s hs => ?_, root_add e⟩
  · rw [hold (lt_size_of_var hx), hx]
  · rw [expr_add_eq] at hu
    split at hu
    · rw [hdeclared] at hu
      cases hu
    · exact .inl hu
  · rw [scan?_eq_some] at hs ⊢
    rw [hold (lt_size_of_expr (by rw [hs]; simp)), hs]

/-- A node that declares variables takes these and leaves the rest as it is. -/
theorem Extends.addDeclaring {l : Option Location} (he : g.IsDeclarer e) :
    g.Extends (g.addDeclaring e l).2 e.declared := by
  refine ⟨by rw [size_addDeclaring]; exact Nat.le_succ _, fun u x hx => ?_, fun p u hu => ?_,
    fun v s hs => ?_, root_addDeclaring e l⟩
  · by_cases hu : u ∈ e.declared
    · exact ⟨_, he.expr_addDeclaring_of_mem hu hx, rfl, fun hnot => absurd hu hnot⟩
    · have hlt : u < g.size := lt_size_of_var hx
      exact ⟨x, by rw [he.expr_addDeclaring_of_not_mem hlt.ne hu, hx], rfl,
        fun _ => rfl⟩
  · by_cases hp : p = g.size
    · rw [hp, he.expr_addDeclaring_self] at hu
      exact .inr hu
    · rw [declared_addDeclaring hp] at hu
      exact .inl hu
  · exact scan?_addDeclaring_of_some hs

/-- To take a conjunction apart touches no variable and no scan. -/
theorem Extends.dissolve {call : NodeId} {args : List NodeId}
    (hcall : g.expr call = .call .and args) : g.Extends (g.dissolve call args) [] :=
  ⟨by rw [size_dissolve], fun _ x hx => ⟨x, (expr_dissolve_eq_iff hcall rfl).2 hx, rfl, fun _ => rfl⟩,
    fun p u hu => .inl (declared_dissolve hcall p ▸ hu),
    fun v s hs => (scan?_dissolve hcall v).trans hs, root_dissolve call args⟩

/-- A variable goes on waiting until it is taken. -/
theorem Waits.extends {d : NodeId} (hw : g.Waits u d) (hx : g.Extends h gone) (hu : u ∉ gone) :
    h.Waits u d := by
  obtain ⟨x, hvar, hnone⟩ := hw.var
  obtain ⟨x', hvar', -, hdecl⟩ := hx.kind u x hvar
  exact ⟨⟨x', hvar', (hdecl hu).trans hnone⟩, hw.source_lt,
    fun p hp => (hx.declared p u hp).elim (hw.undeclared p) hu⟩

/-- A draft is not disturbed by what is added. -/
theorem Supports.extends (hd : g.Supports d) (hx : g.Extends h gone) : h.Supports d := by
  refine ⟨fun u hu => (hd.operands_lt u hu).trans_le hx.size_le, fun s hs => ?_,
    fun s hs => ?_, ?_⟩
  · obtain ⟨x, hvar, hrow⟩ := hd.rows s hs
    obtain ⟨x', hvar', hkind, -⟩ := hx.kind _ x hvar
    exact ⟨x', hvar', hkind.trans hrow⟩
  · obtain ⟨t, ht⟩ := hd.first s hs
    exact ⟨t, hx.scan _ t ht⟩
  · exact hd.names

/-- Types do not depend on locations. -/
theorem type?_setLocation (id : NodeId) (l : Option Location) (v : NodeId) :
    (g.setLocation id l).type? v = g.type? v := by
  obtain ⟨l', hl'⟩ := node_setLocation (g := g) (v := v) id l
  rw [type?, hl', type?]

/-- Nor do links. -/
theorem SameLinks.setLocation (id : NodeId) (l : Option Location) :
    SameLinks g (g.setLocation id l) := by
  have hnode (v : NodeId) := node_setLocation (g := g) (v := v) id l
  refine ⟨⟨size_modify .., fun v => ?_⟩, fun v => ?_, fun v => ?_⟩
  · obtain ⟨l', hl'⟩ := hnode v
    rw [expr, hl', expr]
  · obtain ⟨l', hl'⟩ := hnode v
    rw [parents, hl', parents]
  · obtain ⟨l', hl'⟩ := hnode v
    rw [isLive, hl', isLive]

/-- A new variable waits to be declared. -/
theorem IsLaid.waits_addVar (hg : g.IsLaid) (hlt : source < g.size) (name : String) (kind : VarKind) :
    (g.addVar name kind).2.Waits g.size source := by
  refine ⟨⟨_, expr_add_self .., rfl⟩, hlt, fun p hp => ?_⟩
  rw [addVar, expr_add_eq] at hp
  split at hp
  · cases hp
  · obtain ⟨x, hx, -⟩ := hg.declared p _ hp
    exact (lt_size_of_var hx).false

end

end Graph

namespace Layout

open ShardedQuery.Graph

/-- The variables that wait for their declaration, each with its source. -/
def pending (l : Layout) : List (NodeId × NodeId) :=
  l.drafts.flatMap BlockDraft.pending ++ l.context

/-- The graph is laid out properly, has its root and what the drafts use, and the variables of drafts
and of path steps to come wait for their declarations. -/
structure IsSound (c : Catalog) (l : Layout) : Prop where
  laid : l.graph.IsLaid
  root_lt : ∀ r, l.graph.root = some r → r < l.graph.size
  admits : ∀ v, c.Admits (l.graph.expr v)
  drafts : ∀ d ∈ l.drafts, l.graph.Supports d
  waits : ∀ p ∈ l.pending, l.graph.Waits p.1 p.2
  nodup : (l.pending.map (·.1)).Nodup

section
variable {ds : List BlockDraft} {ws : List (NodeId × NodeId)} {d' : BlockDraft}

/-- Laying out starts soundly, with nothing. -/
theorem isSound_start (c : Catalog) : IsSound c {} := by
  refine ⟨.empty, fun r hr => (by cases hr), fun v => ?_, fun d hd => (by cases hd),
    fun p hp => (by cases hp), nodup_nil⟩
  rw [expr_of_size_le (Nat.zero_le v)]
  trivial

/-- Other drafts and other variables, of which fewer wait now. -/
theorem IsSound.of_perm (hl : IsSound c ⟨g, ds, ws⟩) (gone : List (NodeId × NodeId))
    (hx : g.Extends h (gone.map (·.1))) (hlaid : h.IsLaid) (hadmits : ∀ v, c.Admits (h.expr v))
    (hdrafts : ∀ d ∈ ds', h.Supports d)
    (hperm : (pending ⟨g, ds, ws⟩).Perm (gone ++ pending ⟨h, ds', ws'⟩)) :
    IsSound c ⟨h, ds', ws'⟩ := by
  have hnodup := (hperm.map (·.1)).nodup_iff.1 hl.nodup
  rw [map_append] at hnodup
  obtain ⟨-, hnodup', hdisjoint⟩ := nodup_append.1 hnodup
  refine ⟨hlaid, fun r hr => ?_, hadmits, hdrafts, fun p hp => ?_, hnodup'⟩
  · exact (hl.root_lt r (hx.root_eq ▸ hr)).trans_le hx.size_le
  refine (hl.waits p (hperm.mem_iff.2 (mem_append_right _ hp))).extends hx fun hmem => ?_
  exact hdisjoint _ hmem _ (mem_map_of_mem hp) rfl

/-- The graph may grow under the drafts. -/
theorem IsSound.graph (hl : IsSound c ⟨g, ds, ws⟩) (hx : g.Extends h []) (hlaid : h.IsLaid)
    (hadmits : ∀ v, c.Admits (h.expr v)) : IsSound c ⟨h, ds, ws⟩ :=
  hl.of_perm [] hx hlaid hadmits (fun d hd => (hl.drafts d hd).extends hx) (Perm.refl _)

/-- The draft at the top may be changed, but for its FROM entries. -/
theorem IsSound.write (hl : IsSound c ⟨g, d :: ds, ws⟩) (hd : g.Supports d')
    (hpending : d'.pending = d.pending) : IsSound c ⟨g, d' :: ds, ws⟩ := by
  refine hl.of_perm [] (.refl g) hl.laid hl.admits (fun k hk => ?_) ?_
  · rcases mem_cons.1 hk with rfl | hk
    · exact hd
    · exact hl.drafts k (.tail _ hk)
  · simp [pending, hpending]

/-- The graph grows by a variable that waits. -/
theorem IsSound.addWaiting (hl : IsSound c ⟨g, ds, ws⟩) (hlt : source < g.size) (name : String)
    (kind : VarKind) (hdrafts : ∀ d ∈ ds', (g.addVar name kind).2.Supports d)
    (hperm : (pending ⟨(g.addVar name kind).2, ds', ws'⟩).Perm
      ((g.size, source) :: pending ⟨g, ds, ws⟩)) :
    IsSound c ⟨(g.addVar name kind).2, ds', ws'⟩ := by
  have hx : g.Extends (g.addVar name kind).2 [] := Extends.add rfl
  have hlaid : (g.addVar name kind).2.IsLaid := hl.laid.add (isPlain_var name kind)
  refine ⟨hlaid, fun r hr => ?_, fun v => ?_, hdrafts, fun p hp => ?_, ?_⟩
  · exact (hl.root_lt r (hx.root_eq ▸ hr)).trans_le hx.size_le
  · rw [addVar, expr_add_eq]
    split
    · trivial
    · exact hl.admits v
  · rcases mem_cons.1 (hperm.mem_iff.1 hp) with rfl | hp
    · exact hl.laid.waits_addVar hlt name kind
    · exact (hl.waits p hp).extends hx not_mem_nil
  · rw [(hperm.map (·.1)).nodup_iff, map_cons, nodup_cons]
    refine ⟨fun hmem => ?_, hl.nodup⟩
    obtain ⟨p, hp, heq⟩ := mem_map.1 hmem
    exact (heq ▸ (hl.waits p hp).lt_size).false

/-- A plain node is added. -/
theorem IsSound.add (hl : IsSound c ⟨g, ds, ws⟩) (he : g.IsPlain e)
    (hadmits : c.Admits e) : IsSound c ⟨(g.add e).2, ds, ws⟩ := by
  refine hl.graph (.add he.declared) (hl.laid.add he) fun v => ?_
  rw [expr_add_eq]
  split
  · exact hadmits
  · exact hl.admits v

/-- Values over nodes of the graph are plain. -/
theorem isPlain_of_isValue (he : e.isValue) (hlt : ∀ u ∈ e.children, u < g.size) : g.IsPlain e := by
  refine ⟨hlt, ?_, fun x hx => ?_, fun b hb => ?_⟩
  · cases e <;> first | rfl | cases he
  · rw [hx] at he
    cases he
  · rw [hb] at he
    cases he

/-- Values may stand in any query. -/
theorem admits_of_isValue (he : e.isValue) : c.Admits e := by
  cases e <;> trivial

section
variable (hl : IsSound c ⟨g, ds, ws⟩)
include hl

/-- A path step or a block takes its variables. -/
theorem IsSound.addDeclaring {l : Option Location} (he : g.IsDeclarer e) (hadmits : c.Admits e)
    (hdrafts : ∀ d ∈ ds', d ∈ ds)
    (hperm : (pending ⟨g, ds, ws⟩).Perm (e.sources ++ pending ⟨g, ds', ws'⟩)) :
    IsSound c ⟨(g.addDeclaring e l).2, ds', ws'⟩ := by
  have hx : g.Extends (g.addDeclaring e l).2 (e.sources.map (·.1)) := by
    rw [e.map_fst_sources]
    exact .addDeclaring he
  refine hl.of_perm _ hx (.addDeclaring he hl.laid) (fun v => ?_)
    (fun d hd => (hl.drafts d (hdrafts d hd)).extends hx) hperm
  rw [expr_addDeclaring he.not_var]
  split
  · exact hadmits
  · split
    · exact (hl.admits v).declaredBy _
    · exact hl.admits v

/-- Locations and other data do not matter. -/
theorem IsSound.of_sameLinks (hs : SameLinks g h) (htype : ∀ v, h.type? v = g.type? v)
    (hroot : h.root = g.root) : IsSound c ⟨h, ds, ws⟩ := by
  refine hl.graph ⟨hs.size_eq.symm.le, fun u x hx => ⟨x, ?_, rfl, fun _ => rfl⟩,
    fun p u hu => .inl (hs.expr_eq p ▸ hu),
    fun v s hv => scan?_eq_some.2 ((hs.expr_eq v).trans (scan?_eq_some.1 hv)), hroot⟩
    (hl.laid.of_sameLinks hs htype) fun v => (hs.expr_eq v).symm ▸ hl.admits v
  rw [hs.expr_eq, hx]

/-- The root may be any node of the graph. -/
theorem IsSound.setRoot (hlt : id < g.size) :
    IsSound c ⟨g.setRoot id, ds, ws⟩ where
  laid := hl.laid.of_sameLinks ⟨⟨rfl, fun _ => rfl⟩, fun _ => rfl, fun _ => rfl⟩ fun _ => rfl
  root_lt _ hr := Option.some.inj hr ▸ hlt
  admits := hl.admits
  drafts d hd := ⟨(hl.drafts d hd).operands_lt, (hl.drafts d hd).rows, (hl.drafts d hd).first,
    (hl.drafts d hd).names⟩
  waits p hp := ⟨(hl.waits p hp).var, (hl.waits p hp).source_lt, (hl.waits p hp).undeclared⟩
  nodup := hl.nodup

/-- An external variable is added. -/
theorem IsSound.external (name : String) (t : SeqType) :
    IsSound c ⟨(g.addExternal name t).2, ds, ws⟩ := by
  let x : Variable := { name := name, kind := .external g.externals.length t }
  have hadd : IsSound c ⟨(g.add (.var x)).2, ds, ws⟩ :=
    hl.add (isPlain_var ..) trivial
  exact hadd.of_sameLinks ⟨⟨rfl, fun _ => rfl⟩, fun _ => rfl, fun _ => rfl⟩ (fun _ => rfl) rfl

end

/-! ## Drafts -/

/-- A draft keeps its support, if its operands are nodes and its names are distinct. -/
theorem Supports.write (hd : g.Supports d) (hsources : d'.sources = d.sources)
    (hoperands : ∀ u ∈ d'.operands, u < g.size) (hnames : (d'.select.map (·.name)).Nodup) :
    g.Supports d' :=
  ⟨hoperands, fun s hs => hd.rows s (hsources ▸ hs), fun s hs => hd.first s (hsources ▸ hs), hnames⟩

/-- The same for a draft with one more operand. -/
theorem Supports.withOperand (hd : g.Supports d) (hlt : u < g.size)
    (hsources : d'.sources = d.sources) (hoperands : ∀ v ∈ d'.operands, v ∈ d.operands ∨ v = u)
    (hnames : (d'.select.map (·.name)).Nodup) : g.Supports d' :=
  Supports.write hd hsources (fun v hv =>
    (hoperands v hv).elim (hd.operands_lt v) fun heq => heq ▸ hlt) hnames

/-- A draft with one more FROM entry. -/
theorem IsSound.addSource {table : Option String} (hl : IsSound c ⟨g, d :: ds, ws⟩)
    (hlt : domain < g.size) (hfirst : d.sources = [] → ∃ t, g.scan? domain = some t) :
    IsSound c ⟨(d.addSource g domain name table).2.2,
      (d.addSource g domain name table).2.1 :: ds, ws⟩ := by
  have hx : g.Extends (g.addVar ("$" ++ name) .row).2 [] := Extends.add rfl
  have hd := (hl.drafts d (mem_cons_self ..)).extends hx
  refine hl.addWaiting hlt ("$" ++ name) .row (fun k hk => ?_) ?_
  · rcases mem_cons.1 hk with rfl | hk
    · refine ⟨hd.operands_lt, fun s hs => ?_, fun s hs => ?_, hd.names⟩
      · rcases mem_append.1 hs with hs | hs
        · exact hd.rows s hs
        · obtain rfl := mem_singleton.1 hs
          exact ⟨_, expr_add_self .., rfl⟩
      · cases hsources : d.sources with
        | nil =>
          obtain ⟨t, ht⟩ := hfirst hsources
          rw [BlockDraft.addSource] at hs
          simp only [hsources, nil_append, head?_cons, Option.mem_some_iff] at hs
          rw [← hs]
          exact ⟨t, hx.scan _ t ht⟩
        | cons first rest =>
          refine hd.first s ?_
          rw [BlockDraft.addSource] at hs
          simpa [hsources] using hs
    · exact (hl.drafts k (.tail _ hk)).extends hx
  · have hpending : (d.addSource g domain name table).2.1.pending =
        d.pending ++ [(g.size, domain)] := by
      simp only [BlockDraft.addSource, BlockDraft.pending, map_append]
      rfl
    simp only [pending, flatMap_cons, hpending]
    rw [append_assoc, append_assoc, append_assoc]
    exact perm_middle

/-- A conjunction is taken apart, and any other condition becomes a conjunct. -/
theorem restrict_cases (d : BlockDraft) (g : Graph) (condition : NodeId) :
    (∃ args, g.expr condition = .call .and args ∧ d.restrict g condition =
      ({ d with conjuncts := d.conjuncts ++ args }, g.dissolve condition args)) ∨
    d.restrict g condition = ({ d with conjuncts := d.conjuncts ++ [condition] }, g) := by
  unfold BlockDraft.restrict
  split
  · next args hcall =>
    split
    · exact .inl ⟨args, hcall, rfl⟩
    · exact .inr rfl
  · exact .inr rfl

/-- A draft gets a condition. -/
theorem IsSound.restrict {condition : NodeId} (hl : IsSound c ⟨g, d :: ds, ws⟩)
    (hlt : condition < g.size) :
    IsSound c ⟨(d.restrict g condition).2, (d.restrict g condition).1 :: ds, ws⟩ := by
  have hd := hl.drafts d (mem_cons_self ..)
  have hadd (cs : List NodeId) (hcs : ∀ u ∈ cs, u < g.size) :
      g.Supports { d with conjuncts := d.conjuncts ++ cs } := by
    refine Supports.write hd rfl (fun u hu => ?_) hd.names
    have hold := hd.operands_lt u
    simp only [BlockDraft.operands, mem_append] at hu hold
    rcases hu with ((((hu | hu) | hu) | hu) | hu) | hu
    · exact hold (.inl (.inl (.inl (.inl hu))))
    · exact hcs u hu
    · exact hold (.inl (.inl (.inl (.inr hu))))
    · exact hold (.inl (.inl (.inr hu)))
    · exact hold (.inl (.inr hu))
    · exact hold (.inr hu)
  rcases restrict_cases d g condition with ⟨args, hcall, heq⟩ | heq
  · rw [heq]
    have hargs (u : NodeId) (hu : u ∈ args) : u < g.size :=
      (hl.laid.children_lt condition u (by rw [children, hcall]; exact hu)).trans hlt
    refine IsSound.graph (hl.write (hadd args hargs) rfl) (.dissolve hcall)
      (hl.laid.dissolve hcall) fun v => ?_
    by_cases hv : v = condition
    · rw [hv, expr_dissolve hcall, if_pos rfl]
      trivial
    · rw [expr_dissolve hcall, if_neg hv]
      exact hl.admits v
  · rw [heq]
    exact hl.write (hadd [condition] fun u hu => mem_singleton.1 hu ▸ hlt) rfl

/-- A table that is known is scanned under a new FROM entry. -/
theorem scanTable_eq_ok (hscan : d.scanTable g c table name hints = .ok r) :
    ∃ t, c.table table = .ok t ∧
      r = d.addSource
        (g.add (.scan { table := t.name, hints := hints, rowType := t.rowType })).2 g.size name
          (some t.name) := by
  have hscan := ok_of_locateFailure hscan
  split at hscan
  · cases hscan
  · obtain ⟨t, ht, hscan⟩ := ok_of_bind hscan
    obtain ⟨-, -, hscan⟩ := ok_of_bind hscan
    exact ⟨t, ht, (Except.ok.inj hscan).symm⟩

/-- A draft gets a FROM entry over a table. -/
theorem IsSound.scanTable (hl : IsSound c ⟨g, d :: ds, ws⟩)
    (hscan : d.scanTable g c table name hints = .ok (var, d', h)) :
    IsSound c ⟨h, d' :: ds, ws⟩ := by
  obtain ⟨t, ht, heq⟩ := scanTable_eq_ok hscan
  have hlists : c.Lists { table := t.name, hints := hints, rowType := t.rowType } := by
    refine ⟨t, ?_, rfl⟩
    rw [Catalog.name_of_table ht, ht]
  generalize ({ table := t.name, hints := hints, rowType := t.rowType } : TableScan) = s at heq hlists
  have hplain : g.IsPlain (.scan s) := by
    obtain ⟨t, -, hs⟩ := hlists
    rw [hs]
    exact ⟨fun u hu => (by cases hu), rfl, fun x hx => (by cases hx), fun b hb => (by cases hb)⟩
  have hadd : IsSound c ⟨(g.add (.scan s)).2, d :: ds, ws⟩ :=
    hl.add hplain hlists
  have hd' := congrArg (·.2.1) heq
  have hh := congrArg (·.2.2) heq
  dsimp only at hd' hh
  rw [hd', hh]
  refine hadd.addSource ?_ fun _ => ⟨s, scan?_eq_some.2 (expr_add_self ..)⟩
  rw [size_add]
  exact Nat.lt_succ_self _

/-- An expression follows a first FROM entry only. -/
theorem rangeOver_eq_ok (hrange : d.rangeOver g domain name = .ok r) :
    d.sources ≠ [] ∧ r = d.addSource g domain name none := by
  unfold BlockDraft.rangeOver at hrange
  split at hrange
  · cases ok_of_locateFailure hrange
  · next hne => exact ⟨fun hnil => hne (by rw [hnil]; rfl), (Except.ok.inj hrange).symm⟩

/-- A draft gets a FROM entry over an expression. -/
theorem IsSound.rangeOver (hl : IsSound c ⟨g, d :: ds, ws⟩) (hlt : domain < g.size)
    (hrange : d.rangeOver g domain name = .ok (var, d', h)) : IsSound c ⟨h, d' :: ds, ws⟩ := by
  obtain ⟨hne, heq⟩ := rangeOver_eq_ok hrange
  cases heq
  exact hl.addSource hlt fun hnil => absurd hnil hne

/-- A column is a field of the row variable. -/
theorem column_eq_ok {r : NodeId × Graph} (hcolumn : d.column g c var name = .ok r) :
    r = g.addField var name := by
  unfold BlockDraft.column at hcolumn
  split at hcolumn
  · exact (Except.ok.inj hcolumn).symm
  · obtain ⟨t, -, hcolumn⟩ := ok_of_bind hcolumn
    split at hcolumn
    · exact (Except.ok.inj hcolumn).symm
    · cases ok_of_locateFailure hcolumn

/-- The WHERE clause of a draft. -/
theorem IsSound.addCondition {cs : List NodeId} (hl : IsSound c ⟨g, ds, ws⟩)
    (hlt : ∀ u ∈ cs, u < g.size) :
    IsSound c ⟨(g.addCondition cs).2, ds, ws⟩ ∧
      (∀ u ∈ (g.addCondition cs).1, u < (g.addCondition cs).2.size) ∧
      g.Extends (g.addCondition cs).2 [] := by
  unfold Graph.addCondition
  split
  · exact ⟨hl, fun u hu => (by cases hu), .refl g⟩
  · next u =>
    exact ⟨hl, fun v hv => Option.mem_some_iff.1 hv ▸ hlt u (mem_singleton_self u), .refl g⟩
  · refine ⟨hl.add (isPlain_of_isValue rfl hlt) trivial, fun u hu => ?_, .add rfl⟩
    obtain rfl := Option.mem_some_iff.1 hu
    show g.size < (g.add (.call .and cs)).2.size
    rw [size_add]
    exact Nat.lt_succ_self _

/-- The draft at the top becomes a block, which declares its variables. -/
theorem IsSound.build (hl : IsSound c ⟨g, d :: ds, ws⟩)
    (hbuild : d.build g = .ok (id, h)) : IsSound c ⟨h, ds, ws⟩ := by
  obtain ⟨hne, heq⟩ := BlockDraft.build_eq_ok.1 hbuild
  have hd := hl.drafts d (mem_cons_self ..)
  have hconjuncts (u : NodeId) (hu : u ∈ d.conjuncts) : u < g.size :=
    hd.operands_lt u (by simp [BlockDraft.operands, hu])
  obtain ⟨hk, hcondition, hx⟩ := hl.addCondition hconjuncts
  have hd' := hd.extends hx
  have hwaits (p : NodeId × NodeId) (hp : p ∈ d.pending) :
      (g.addCondition d.conjuncts).2.Waits p.1 p.2 :=
    hk.waits p (mem_append_left _ (mem_flatMap.2 ⟨d, .head _, hp⟩))
  let b := d.block (g.addCondition d.conjuncts).1
  have hsources : (Expr.block b).sources = d.pending := by
    simp [b, BlockDraft.block, Expr.sources, BlockDraft.pending]
  have he : (g.addCondition d.conjuncts).2.IsDeclarer (.block b) := by
    refine ⟨rfl, fun u hu => ?_, ?_, fun p hp => hwaits p (hsources ▸ hp), fun b' hb' => ?_⟩
    · have hold := hd'.operands_lt u
      simp only [BlockDraft.operands, mem_append] at hold
      simp only [Expr.children, List.mem_append, b, BlockDraft.block, List.map_map] at hu
      rcases hu with ((((hu | hu) | hu) | hu) | hu) | hu
      · obtain ⟨s, hs, rfl⟩ := mem_map.1 hu
        have hw := hwaits _ (List.mem_map_of_mem hs)
        exact hw.source_lt.trans hw.lt_size
      · exact hcondition u (Option.mem_toList.1 hu)
      · split at hu
        · cases hu
        · exact hold (.inl (.inl (.inl (.inr hu))))
      · exact hold (.inl (.inl (.inr hu)))
      · exact hold (.inl (.inr hu))
      · exact hold (.inr hu)
    · rw [← Expr.map_fst_sources, hsources]
      refine Nodup.sublist (Sublist.map _ ?_) hl.nodup
      simp [pending]
    · cases hb'
      obtain ⟨first, rest, hcons⟩ := exists_cons_of_ne_nil hne
      have hfirst : first ∈ d.sources.head? := by rw [hcons]; rfl
      obtain ⟨s, hs⟩ := hd'.first first hfirst
      obtain ⟨x, hvar, hrow⟩ := hd'.rows first (mem_of_head? hfirst)
      refine ⟨first.entry, s, x, ?_, hs, hvar, hrow⟩
      simp [b, BlockDraft.block, hcons]
  cases heq
  have hadmits : c.Admits (.block b) := by
    refine ⟨?_, fun hstar => if_pos hstar⟩
    show ((if d.star || d.select.isEmpty then [] else d.select).map (·.name)).Nodup
    split
    · exact nodup_nil
    · exact hd.names
  refine hk.addDeclaring he hadmits (fun k hk => .tail _ hk) ?_
  rw [hsources]
  simp [pending]

/-- A path step declares the variables that were waiting for it. -/
theorem IsSound.pathStep {l : Option Location} (hl : IsSound c ⟨g, ds, ws⟩)
    (hstep : e.stepInput?.isSome) (hlt : ∀ u ∈ e.children, u < g.size)
    (hctx : ws.Perm (e.sources ++ ws')) : IsSound c ⟨(g.addDeclaring e l).2, ds, ws'⟩ := by
  have hperm : (pending ⟨g, ds, ws⟩).Perm (e.sources ++ pending ⟨g, ds, ws'⟩) := by
    refine (hctx.append_left _).trans ?_
    rw [pending, ← append_assoc, ← append_assoc]
    exact perm_append_comm.append_right _
  have hnodup := (hperm.map (·.1)).nodup_iff.1 hl.nodup
  rw [map_append, e.map_fst_sources] at hnodup
  refine hl.addDeclaring ⟨?_, hlt, hnodup.of_append_left, fun p hp => ?_, fun b hb => ?_⟩ ?_
    (fun d hd => hd) hperm
  · cases e <;> first | rfl | cases hstep
  · exact hl.waits p (hperm.mem_iff.2 (mem_append_left _ hp))
  · rw [hb] at hstep
    cases hstep
  · cases e <;> trivial

/-! ## Runs -/

/-- Every step keeps a layout sound. -/
theorem IsSound.step {l' : Layout} (hl : IsSound c l) (hs : Step c l l') : IsSound c l' := by
  cases hs with
  | value hvalue hlt =>
    exact hl.add (isPlain_of_isValue hvalue hlt) (admits_of_isValue hvalue)
  | external name t => exact hl.external name t
  | contextVar name kind hlt =>
    refine hl.addWaiting hlt name kind (fun d hd => (hl.drafts d hd).extends (.add rfl)) ?_
    exact perm_middle
  | pathStep hstep hlt hctx => exact hl.pathStep hstep hlt hctx
  | root hlt => exact hl.setRoot hlt
  | locate id l => exact hl.of_sameLinks (.setLocation id l) (type?_setLocation id l) rfl
  | draft =>
    refine hl.of_perm [] (.refl _) hl.laid hl.admits (fun d hd => ?_) (Perm.refl _)
    rcases mem_cons.1 hd with rfl | hd
    · exact ⟨fun u hu => (by cases hu), fun s hs => (by cases hs), fun s hs => (by cases hs),
        nodup_nil⟩
    · exact hl.drafts d hd
  | reorder hperm =>
    refine hl.of_perm [] (.refl _) hl.laid hl.admits
      (fun d hd => hl.drafts d (hperm.mem_iff.2 hd)) ?_
    exact (hperm.flatMap_right _).append_right _
  | scanTable hscan => exact hl.scanTable hscan
  | rangeOver hlt hrange => exact hl.rangeOver hlt hrange
  | column hlt hcolumn =>
    cases column_eq_ok hcolumn
    exact hl.add (isPlain_of_isValue rfl fun u hu => mem_singleton.1 hu ▸ hlt) trivial
  | restrict hlt => exact hl.restrict hlt
  | select hlt hselect =>
    have hd := hl.drafts _ (mem_cons_self ..)
    unfold BlockDraft.addSelect at hselect
    split at hselect
    · cases ok_of_locateFailure hselect
    · next hnew =>
      cases hselect
      refine hl.write (Supports.withOperand hd hlt rfl (fun u hu => ?_) ?_) rfl
      · simp only [BlockDraft.operands, map_append, mem_append, map_cons, map_nil,
          mem_singleton] at hu ⊢
        tauto
      · rw [map_append, nodup_append]
        refine ⟨hd.names, nodup_singleton _, fun n hn m hm heq => ?_⟩
        obtain ⟨f, hf, rfl⟩ := mem_map.1 hn
        rw [map_singleton, mem_singleton] at hm
        exact hnew (any_eq_true.2 ⟨f, hf, by simpa using heq.trans hm⟩)
  | star | locateDraft =>
    have hd := hl.drafts _ (mem_cons_self ..)
    exact hl.write (Supports.write hd rfl hd.operands_lt hd.names) rfl
  | sort spec hlt =>
    have hd := hl.drafts _ (mem_cons_self ..)
    refine hl.write (Supports.withOperand hd hlt rfl (fun u hu => ?_) hd.names) rfl
    simp only [BlockDraft.operands, BlockDraft.addSort, map_append, mem_append,
      map_cons, map_nil, mem_singleton] at hu ⊢
    tauto
  | offset hlt | limit hlt =>
    have hd := hl.drafts _ (mem_cons_self ..)
    refine hl.write (Supports.withOperand hd hlt rfl (fun u hu => ?_) hd.names) rfl
    simp only [BlockDraft.operands, mem_append, Option.toList_some, mem_singleton] at hu ⊢
    tauto
  | build hbuild => exact hl.build hbuild

/-- So whatever is reached is sound, by induction on the steps. -/
theorem IsReached.isSound (hl : IsReached c l) : IsSound c l := by
  induction hl with
  | refl => exact isSound_start c
  | tail _ hs ih => exact ih.step hs

/-- Whatever the steps were, the graph is sound. -/
theorem IsReached.sound (hl : IsReached c l) : l.graph.Sound := hl.isSound.laid.sound

/-- In a query laid out from a catalog, scans are over values only. -/
theorem IsReached.scansLocally (hl : IsReached c l) : l.graph.ScansLocally := by
  intro v s hs u hu
  have hadmits := hl.isSound.admits v
  rw [scan?_eq_some.1 hs] at hadmits
  obtain ⟨t, -, heq⟩ := hadmits
  rw [heq] at hu
  cases hu

end

end Layout

end ShardedQuery
