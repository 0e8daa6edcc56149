import ShardedQuery.Proofs.Graph.Dissolve

/-!
# Graphs as they are laid out

While a query is laid out, nodes are added after the nodes they use, no types are derived, and
nothing is removed but conjunctions that are taken apart. A variable is added before the node that
declares it, so that some variables wait for their declaration.
-/

namespace ShardedQuery

open List

variable {d p v u : NodeId} {g : Graph} {e : Expr}

/-- The variables that an expression declares, each with the node it takes its type from. -/
def Expr.sources : Expr → List (NodeId × NodeId)
  | .block b => b.entries.map fun e => (e.var, e.domain)
  | .slice input _ _ ctx | .filter input _ ctx | .mapFilter _ input _ ctx => ctx.map (·, input)
  | _ => []

theorem Expr.map_fst_sources (e : Expr) : e.sources.map (·.1) = e.declared := by
  cases e <;> simp [sources, declared, context, Function.comp_def]

theorem Expr.mem_sources_of_stepInput? (hu : u ∈ e.declared) (hd : e.stepInput? = some d) :
    (u, d) ∈ e.sources := by
  cases e <;> simp_all [sources, declared, context, stepInput?]

namespace Graph

/-- Nodes come after the nodes they use, no type is kept, and only conjunctions that were taken
apart are dead. -/
structure IsLaid (g : Graph) : Prop extends g.Linked, g.Scoped where
  children_lt : ∀ v, ∀ u ∈ g.children v, u < v
  declared_lt : ∀ v, ∀ u ∈ (g.expr v).declared, u < v
  source_lt : ∀ v u, g.varSource? v = some u → u < v
  untyped : ∀ v, g.type? v = none
  dead : ∀ v, v < g.size → g.isLive v = false → g.expr v = .call .and []

section
theorem IsLaid.empty : ({} : Graph).IsLaid := by
  have hexpr (v : NodeId) : ({} : Graph).expr v = .literal .empty := expr_of_size_le (Nat.zero_le v)
  have hlive (v : NodeId) : ({} : Graph).isLive v = false := isLive_of_size_le (Nat.zero_le v)
  have hparents (v : NodeId) : ({} : Graph).parents v = [] := parents_of_size_le (Nat.zero_le v)
  have hblock (v : NodeId) : ({} : Graph).block? v = none := by rw [block?, hexpr]
  constructor
  · exact ⟨fun v p hp => by simp [hparents] at hp, fun v p hp => by simp [hparents] at hp,
      fun p hp => by simp [hlive] at hp⟩
  · exact ⟨⟨fun p u hu => by simp [hexpr, Expr.declared, Expr.context] at hu,
      fun p => by simp [hexpr, Expr.declared, Expr.context], fun u x hx => by simp [hexpr] at hx,
      fun v b hb => by simp [hblock] at hb, fun v b e s hb => by simp [hblock] at hb⟩,
      fun u x hu => by simp [hlive] at hu⟩
  · exact fun v u hu => by simp [children, hexpr, Expr.children] at hu
  · exact fun v u hu => by simp [hexpr, Expr.declared, Expr.context] at hu
  · exact fun v u hu => by simp [varSource?, var?, hexpr] at hu
  · exact fun v => type?_of_size_le (Nat.zero_le v)
  · exact fun v hv => absurd hv (Nat.not_lt_zero v)

variable (hg : g.IsLaid)
include hg

/-- The numbers of the nodes are ranks. -/
theorem IsLaid.ordered : g.Ordered fun v => v := by
  have hlt (v u : NodeId) (hu : u ∈ g.uses v) : u < v := by
    rw [uses, mem_append, mem_append] at hu
    rcases hu with (hu | hu) | hu
    · split at hu
      · cases hu
      · exact hg.children_lt v u hu
    · exact hg.declared_lt v u hu
    · exact hg.source_lt v u (Option.mem_toList.1 hu)
  refine ⟨hlt, fun v u hu => (hlt v u hu).trans (Nat.lt_of_not_le fun hle => ?_)⟩
  rw [uses_of_size_le hle] at hu
  cases hu

theorem IsLaid.isCurrent (v : NodeId) : g.IsCurrent v := by
  intro t ht
  rw [hg.untyped v] at ht
  cases ht

theorem IsLaid.sound : g.Sound :=
  { hg.toLinked, hg.toScoped with ordered := ⟨_, hg.ordered⟩ }

theorem IsLaid.keepsConstants : g.KeepsConstants := by
  intro v t _ t' ht'
  rw [hg.untyped v] at ht'
  cases ht'

theorem IsLaid.inside (p : NodeId) (_ : (g.expr p).isScan = false) (c : NodeId)
    (hc : c ∈ g.children p) : c < g.size := by
  refine (hg.children_lt p c hc).trans (Nat.lt_of_not_le fun hle => ?_)
  rw [children, expr_of_size_le hle] at hc
  cases hc

/-- Root, external variables and locations do not count. -/
theorem IsLaid.of_sameLinks {h : Graph} (hs : SameLinks g h) (htype : ∀ v, h.type? v = g.type? v) :
    h.IsLaid := by
  refine
    { hs.linked hg.toLinked, hs.scoped hg.toScoped with
      children_lt := fun v u hu => ?_
      declared_lt := fun v u hu => ?_
      source_lt := fun v u hu => hg.source_lt v u (hs.varSource?_eq v ▸ hu)
      untyped := fun v => (htype v).trans (hg.untyped v)
      dead := fun v hv hdead => ?_ }
  · rw [children, hs.expr_eq] at hu
    exact hg.children_lt v u hu
  · rw [hs.expr_eq] at hu
    exact hg.declared_lt v u hu
  · rw [hs.expr_eq]
    exact hg.dead v (hs.size_eq ▸ hv) (hs.live_eq v ▸ hdead)

/-! ## Adding a node -/

/-- A node that declares nothing. -/
theorem IsLaid.add (he : g.IsPlain e) : (g.add e).2.IsLaid := by
  have hsize : (g.add e).2.size = g.size + 1 := size_add ..
  refine
    { hg.toLinked.add he.children_lt hg.inside, hg.toScoped.add he hg.inside with
      children_lt := fun v u hu => ?_
      declared_lt := fun v u hu => ?_
      source_lt := fun v u hu => ?_
      untyped := fun v => ?_
      dead := fun v hv hdead => ?_ }
  · rw [children, expr_add_eq] at hu
    split at hu
    · next hv => exact hv ▸ he.children_lt u hu
    · exact hg.children_lt v u hu
  · rw [expr_add_eq] at hu
    split at hu
    · rw [he.declared] at hu
      cases hu
    · exact hg.declared_lt v u hu
  · have hv := lt_size_of_varSource? hu
    rw [hsize] at hv
    rcases Nat.eq_or_lt_of_le (Nat.le_of_lt_succ hv) with rfl | hv
    · have hnew : DeclaresNothing ((g.add e).2.expr g.size) :=
        he.reforms.fresh _ le_rfl (hsize ▸ Nat.lt_succ_self _)
      rw [hnew.varSource?_eq] at hu
      cases hu
    · exact hg.source_lt v u (he.reforms.varSource?_eq hv id hg.toScoped ▸ hu)
  · exact (type?_add e).trans (hg.untyped v)
  · rw [hsize] at hv
    rcases Nat.eq_or_lt_of_le (Nat.le_of_lt_succ hv) with rfl | hv
    · rw [isLive_add_self] at hdead
      cases hdead
    · rw [expr_add_of_lt e hv]
      exact hg.dead v hv (isLive_add_of_lt e hv ▸ hdead)

end

/-! ## Declarations -/

end Graph

/-- The expression with a declaration, if it is a variable. -/
def Expr.declaredBy (p : NodeId) : Expr → Expr
  | .var x => .var { x with decl := some p }
  | e => e

namespace Expr

@[simp] theorem declaredBy_declaredBy : (e.declaredBy p).declaredBy p = e.declaredBy p := by
  cases e <;> rfl

@[simp] theorem children_declaredBy : (e.declaredBy p).children = e.children := by
  cases e <;> rfl

@[simp] theorem declared_declaredBy : (e.declaredBy p).declared = e.declared := by
  cases e <;> rfl

@[simp] theorem stepInput?_declaredBy : (e.declaredBy p).stepInput? = e.stepInput? := by
  cases e <;> rfl

@[simp] theorem isLeaf_declaredBy : (e.declaredBy p).isLeaf = e.isLeaf := by
  cases e <;> rfl

@[simp] theorem isScan_declaredBy : (e.declaredBy p).isScan = e.isScan := by
  cases e <;> rfl

theorem declaredBy_eq_self (he : e.isVar = false) : e.declaredBy p = e := by
  cases e with
  | var x => cases he
  | _ => rfl

end Expr

namespace Graph

theorem node_declare (u : NodeId) : (g.declare u p).node v =
    { g.node v with expr := if v = u then (g.expr v).declaredBy p else g.expr v } := by
  rw [declare, modifyExpr, node_modify_of_absent rfl]
  split <;> rfl

theorem node_declareAll (us : List NodeId) : (us.foldl (fun g u => g.declare u p) g).node v =
    { g.node v with expr := if v ∈ us then (g.expr v).declaredBy p else g.expr v } := by
  induction us generalizing g with
  | nil => rfl
  | cons u us ih =>
    rw [foldl_cons, ih, expr, node_declare]
    by_cases hv : v = u
    · by_cases hmem : v ∈ us <;> simp [hv, expr]
    · simp [hv, expr]

theorem node_setLocation (id : NodeId) (l : Option Location) :
    ∃ l', (g.setLocation id l).node v = { g.node v with location := l' } := by
  rw [setLocation, node_modify]
  split
  · exact ⟨l, rfl⟩
  · exact ⟨(g.node v).location, rfl⟩

theorem node_addDeclaring (e : Expr) (l : Option Location) :
    ∃ l', (g.addDeclaring e l).2.node v = { (g.add e).2.node v with
      expr := if v ∈ e.declared then ((g.add e).2.expr v).declaredBy g.size else (g.add e).2.expr v
      location := l' } := by
  obtain ⟨l', hl'⟩ := node_setLocation (g := (g.add e).2) (v := v) g.size l
  refine ⟨l', ?_⟩
  rw [show (g.addDeclaring e l).2 = e.declared.foldl (fun k u => k.declare u g.size)
    ((g.add e).2.setLocation g.size l) from rfl, node_declareAll, expr, hl']
  rfl

theorem size_addDeclaring (e : Expr) (l : Option Location) :
    (g.addDeclaring e l).2.size = g.size + 1 := by
  have hdeclare (us : List NodeId) (h : Graph) :
      (us.foldl (fun k u => k.declare u g.size) h).size = h.size := by
    induction us generalizing h with
    | nil => rfl
    | cons u us ih => rw [foldl_cons, ih, declare, modifyExpr, size_modify]
  rw [show (g.addDeclaring e l).2 = e.declared.foldl (fun k u => k.declare u g.size)
    ((g.add e).2.setLocation g.size l) from rfl, hdeclare, setLocation, size_modify, size_add]

theorem root_addDeclaring (e : Expr) (l : Option Location) : (g.addDeclaring e l).2.root = g.root :=
  (root_foldl (fun h v => h.declare v g.size) (fun _ _ => rfl) e.declared _).trans (root_add e)

/-- The variable waits for its declaration, by a node over the given source. -/
structure Waits (g : Graph) (u source : NodeId) : Prop where
  var : ∃ x, g.expr u = .var x ∧ x.decl = none
  source_lt : source < u
  undeclared : ∀ p, u ∉ (g.expr p).declared

theorem Waits.lt_size (hw : g.Waits u d) : u < g.size := by
  obtain ⟨x, hx, -⟩ := hw.var
  exact lt_size_of_var hx

/-- A block or path step may be added: its variables wait for it, and a block scans a table. -/
structure IsDeclarer (g : Graph) (e : Expr) : Prop where
  not_var : e.isVar = false
  children_lt : ∀ u ∈ e.children, u < g.size
  nodup : e.declared.Nodup
  waiting : ∀ p ∈ e.sources, g.Waits p.1 p.2
  block : ∀ b, e = .block b → ∃ entry s x, b.entries.head? = some entry ∧
    g.scan? entry.domain = some s ∧ g.expr entry.var = .var x ∧ x.kind = .row

section
variable {l : Option Location}

theorem expr_addDeclaring_cases (e : Expr) (l : Option Location) (v : NodeId) :
    (g.addDeclaring e l).2.expr v = (g.add e).2.expr v ∨
      (g.addDeclaring e l).2.expr v = ((g.add e).2.expr v).declaredBy g.size := by
  obtain ⟨l', hl'⟩ := node_addDeclaring (g := g) (v := v) e l
  rw [expr, hl']
  dsimp only
  split
  · exact .inr rfl
  · exact .inl rfl

theorem children_addDeclaring (v : NodeId) :
    (g.addDeclaring e l).2.children v = (g.add e).2.children v := by
  rcases expr_addDeclaring_cases (g := g) e l v with h | h <;> simp [children, h]

theorem scan?_addDeclaring {s : TableScan} (hv : v ≠ g.size) :
    (g.addDeclaring e l).2.scan? v = some s ↔ g.scan? v = some s := by
  rw [scan?_eq_some, scan?_eq_some]
  rcases expr_addDeclaring_cases (g := g) e l v with h | h
  · rw [h, expr_add_eq, if_neg hv]
  · rw [h, expr_add_eq, if_neg hv]
    cases g.expr v <;> simp [Expr.declaredBy]

theorem scan?_addDeclaring_of_some {s : TableScan} (hs : g.scan? v = some s) :
    (g.addDeclaring e l).2.scan? v = some s :=
  (scan?_addDeclaring (lt_size_of_scan? hs).ne).2 hs

theorem block?_addDeclaring {b : Block} (hv : v ≠ g.size) :
    (g.addDeclaring e l).2.block? v = some b ↔ g.block? v = some b := by
  rw [block?_eq_some, block?_eq_some]
  rcases expr_addDeclaring_cases (g := g) e l v with h | h
  · rw [h, expr_add_eq, if_neg hv]
  · rw [h, expr_add_eq, if_neg hv]
    cases g.expr v <;> simp [Expr.declaredBy]

theorem declared_addDeclaring (hv : v ≠ g.size) :
    ((g.addDeclaring e l).2.expr v).declared = (g.expr v).declared := by
  rcases expr_addDeclaring_cases (g := g) e l v with h | h
  · rw [h, expr_add_eq, if_neg hv]
  · rw [h, expr_add_eq, if_neg hv, Expr.declared_declaredBy]

theorem parents_addDeclaring (v : NodeId) :
    (g.addDeclaring e l).2.parents v = (g.add e).2.parents v := by
  obtain ⟨l', hl'⟩ := node_addDeclaring (g := g) (v := v) e l
  rw [parents, hl', parents]

theorem isLive_addDeclaring (v : NodeId) :
    (g.addDeclaring e l).2.isLive v = (g.add e).2.isLive v := by
  obtain ⟨l', hl'⟩ := node_addDeclaring (g := g) (v := v) e l
  rw [isLive, hl', isLive]

theorem type?_addDeclaring (v : NodeId) :
    (g.addDeclaring e l).2.type? v = (g.add e).2.type? v := by
  obtain ⟨l', hl'⟩ := node_addDeclaring (g := g) (v := v) e l
  rw [type?, hl', type?]

theorem expr_addDeclaring (hvar : e.isVar = false) (v : NodeId) : (g.addDeclaring e l).2.expr v =
    if v = g.size then e else if v ∈ e.declared then (g.expr v).declaredBy g.size else g.expr v := by
  obtain ⟨l', hl'⟩ := node_addDeclaring (g := g) (v := v) e l
  rw [expr, hl']
  dsimp only
  rw [expr_add_eq]
  by_cases hv : v = g.size
  · rw [if_pos hv, Expr.declaredBy_eq_self hvar]
    split <;> rfl
  · rw [if_neg hv, if_neg hv]

variable (he : g.IsDeclarer e)
include he

theorem IsDeclarer.waits (hu : u ∈ e.declared) : ∃ d, g.Waits u d := by
  rw [← e.map_fst_sources, mem_map] at hu
  obtain ⟨⟨_, d⟩, hp, rfl⟩ := hu
  exact ⟨d, he.waiting _ hp⟩

theorem IsDeclarer.declared_lt (hu : u ∈ e.declared) : u < g.size :=
  let ⟨_, hw⟩ := he.waits hu
  hw.lt_size

theorem IsDeclarer.expr_addDeclaring_self : (g.addDeclaring e l).2.expr g.size = e := by
  rw [expr_addDeclaring he.not_var, if_pos rfl]

theorem IsDeclarer.expr_addDeclaring_of_mem {x : Variable} (hu : u ∈ e.declared)
    (hx : g.expr u = .var x) :
    (g.addDeclaring e l).2.expr u = .var { x with decl := some g.size } := by
  rw [expr_addDeclaring he.not_var, if_neg (he.declared_lt hu).ne, if_pos hu, hx]
  rfl

theorem IsDeclarer.expr_addDeclaring_of_not_mem (hv : v ≠ g.size)
    (hnot : v ∉ e.declared) : (g.addDeclaring e l).2.expr v = g.expr v := by
  rw [expr_addDeclaring he.not_var, if_neg hv, if_neg hnot]

theorem IsDeclarer.expr_addDeclaring_of_not_var (hv : v ≠ g.size)
    (hvar : (g.expr v).isVar = false) : (g.addDeclaring e l).2.expr v = g.expr v := by
  rw [expr_addDeclaring he.not_var, if_neg hv, Expr.declaredBy_eq_self hvar]
  split <;> rfl

theorem IsDeclarer.linked (hg : g.IsLaid) : (g.addDeclaring e l).2.Linked := by
  have hadd := hg.toLinked.add he.children_lt hg.inside
  have hsize : (g.addDeclaring e l).2.size = (g.add e).2.size := by
    rw [size_addDeclaring, size_add]
  have hkind (v : NodeId) : ((g.addDeclaring e l).2.expr v).isLeaf = ((g.add e).2.expr v).isLeaf ∧
      ((g.addDeclaring e l).2.expr v).isScan = ((g.add e).2.expr v).isScan := by
    rcases expr_addDeclaring_cases (g := g) e l v with h | h <;> simp [h]
  exact hadd.of_same hsize (fun v hv => isLive_addDeclaring v ▸ hv)
    (fun v q hq => parents_addDeclaring v ▸ hq) (fun c q _ _ => by rw [parents_addDeclaring])
    (fun q _ hq => (hkind q).1.trans hq) fun q _ hq => ⟨(hkind q).2 ▸ hq, children_addDeclaring q⟩

/-- A variable of the new node takes its type from the source it waited with. -/
theorem IsDeclarer.mem_sources (hu : u ∈ e.declared)
    (hd : (g.addDeclaring e l).2.varSource? u = some d) : (u, d) ∈ e.sources := by
  obtain ⟨_, hw⟩ := he.waits hu
  obtain ⟨x, hx, -⟩ := hw.var
  have hx' := he.expr_addDeclaring_of_mem (l := l) hu hx
  have hself : (g.addDeclaring e l).2.expr g.size = e := he.expr_addDeclaring_self
  have hinput (h : e.stepInput? = some d) : (u, d) ∈ e.sources :=
    Expr.mem_sources_of_stepInput? hu h
  rw [varSource?, var?_eq_some.2 hx'] at hd
  cases hk : x.kind with
  | row =>
    simp only [hk] at hd
    rw [domain?_of_decl hx' rfl] at hd
    obtain ⟨b, hb, hd⟩ := Option.bind_eq_some_iff.1 hd
    obtain ⟨entry, hentry, rfl⟩ := Option.map_eq_some_iff.1 hd
    obtain rfl : entry.var = u := by simpa using find?_some hentry
    have heb : e = .block b := hself ▸ block?_eq_some.1 hb
    rw [heb]
    exact mem_map.2 ⟨entry, mem_of_find?_eq_some hentry, rfl⟩
  | item => exact hinput (by simpa [hk, hself] using hd)
  | element => exact hinput (by simpa [hk, hself] using hd)
  | key => simp [hk] at hd
  | position => simp [hk] at hd
  | external n t => simp [hk] at hd

theorem IsDeclarer.varSource?_of_not_mem (hg : g.IsLaid) (hv : v < g.size)
    (hnot : v ∉ e.declared) : (g.addDeclaring e l).2.varSource? v = g.varSource? v := by
  refine varSource?_congr (fun x => ?_) fun x hx p hp => ?_
  · rw [he.expr_addDeclaring_of_not_mem hv.ne hnot]
  · have hp' := (hg.decl_lt v x hx p hp).ne
    rcases expr_addDeclaring_cases (g := g) e l p with h | h
    · exact .of_expr_eq (h.trans (by rw [expr_add_eq, if_neg hp']))
    · rw [expr_add_eq, if_neg hp'] at h
      refine ⟨?_, by rw [h, Expr.stepInput?_declaredBy]⟩
      rw [block?, h, block?]
      cases g.expr p <;> rfl

/-- A variable that was declared stays as it is. -/
theorem IsDeclarer.expr_addDeclaring_of_declared {p : NodeId} {x : Variable}
    (hu : u ∈ (g.expr p).declared) (hx : g.expr u = .var x) :
    (g.addDeclaring e l).2.expr u = .var x := by
  rw [he.expr_addDeclaring_of_not_mem (lt_size_of_var hx).ne fun hmem => ?_, hx]
  obtain ⟨_, hw⟩ := he.waits hmem
  exact hw.undeclared p hu

/-- A variable is one that was there, or one that waited and now knows the new node. -/
theorem IsDeclarer.var_cases {x : Variable} (hx : (g.addDeclaring e l).2.expr u = .var x) :
    g.expr u = .var x ∨ (u ∈ e.declared ∧ x.decl = some g.size) := by
  have hne : u ≠ g.size := by
    rintro rfl
    rw [he.expr_addDeclaring_self] at hx
    exact absurd he.not_var (by rw [hx]; simp [Expr.isVar])
  by_cases hmem : u ∈ e.declared
  · obtain ⟨_, hw⟩ := he.waits hmem
    obtain ⟨y, hy, -⟩ := hw.var
    rw [he.expr_addDeclaring_of_mem hmem hy, Expr.var.injEq] at hx
    exact .inr ⟨hmem, by rw [← hx]⟩
  · rw [he.expr_addDeclaring_of_not_mem hne hmem] at hx
    exact .inl hx

theorem IsDeclarer.scoped (hg : g.IsLaid) : (g.addDeclaring e l).2.Scoped := by
  have hself : (g.addDeclaring e l).2.expr g.size = e := he.expr_addDeclaring_self
  have hlive {v : NodeId} (hv : v < g.size) : (g.addDeclaring e l).2.isLive v = g.isLive v := by
    rw [isLive_addDeclaring, isLive_add_of_lt e hv]
  refine
    { declared := fun p u hu => ?_
      declared_nodup := fun p => ?_
      decl_lt := fun u x hx p hp => ?_
      starred := fun v b hb hstar => ?_
      scanned := fun v b entry s hb hentry hs => ?_
      decl := fun u x hu hx p hp => ?_ }
  · by_cases hp : p = g.size
    · rw [hp, hself] at hu
      obtain ⟨_, hw⟩ := he.waits hu
      obtain ⟨x, hx, -⟩ := hw.var
      exact ⟨_, he.expr_addDeclaring_of_mem hu hx, .inr (by rw [hp])⟩
    · rw [declared_addDeclaring hp] at hu
      obtain ⟨x, hx, hdecl⟩ := hg.declared p u hu
      exact ⟨x, he.expr_addDeclaring_of_declared hu hx, hdecl⟩
  · by_cases hp : p = g.size
    · rw [hp, hself]
      exact he.nodup
    · rw [declared_addDeclaring hp]
      exact hg.declared_nodup p
  · rw [size_addDeclaring]
    rcases he.var_cases hx with hx | ⟨-, hdecl⟩
    · exact Nat.lt_succ_of_lt (hg.decl_lt u x hx p hp)
    · rw [hdecl] at hp
      cases hp
      exact Nat.lt_succ_self _
  · by_cases hv : v = g.size
    · obtain ⟨entry, s, x, hentry, hs, -⟩ := he.block b (by rw [← hself, ← hv, block?_eq_some.1 hb])
      exact ⟨entry, s, hentry, scan?_addDeclaring_of_some hs⟩
    · rw [block?_addDeclaring hv] at hb
      obtain ⟨entry, s, hentry, hs⟩ := hg.starred v b hb hstar
      exact ⟨entry, s, hentry, scan?_addDeclaring_of_some hs⟩
  · by_cases hv : v = g.size
    · have heb : e = .block b := by rw [← hself, ← hv, block?_eq_some.1 hb]
      obtain ⟨entry', s', x, hentry', hs', hx, hk⟩ := he.block b heb
      rw [hentry'] at hentry
      cases hentry
      have hmem : entry.var ∈ e.declared := by
        rw [heb]
        exact mem_map_of_mem (mem_of_head? hentry')
      exact ⟨_, he.expr_addDeclaring_of_mem hmem hx, hk, by rw [hv]⟩
    · rw [block?_addDeclaring hv] at hb
      have hlt : entry.domain < g.size := hg.inside v (by rw [block?_eq_some.1 hb]; rfl) _
        (domain_mem_children hb (mem_of_head? hentry))
      rw [scan?_addDeclaring hlt.ne] at hs
      obtain ⟨x, hx, hk, hdecl⟩ := hg.scanned v b entry s hb hentry hs
      have hmem : entry.var ∈ (g.expr v).declared := by
        rw [block?_eq_some.1 hb]
        exact mem_map_of_mem (mem_of_head? hentry)
      exact ⟨x, he.expr_addDeclaring_of_declared hmem hx, hk, hdecl⟩
  · rcases he.var_cases hx with hx | ⟨hmem, hdecl⟩
    · have hlt := hg.decl_lt u x hx p hp
      rw [hlive hlt, declared_addDeclaring hlt.ne]
      exact hg.decl u x (hlive (lt_size_of_var hx) ▸ hu) hx p hp
    · rw [hdecl] at hp
      cases hp
      rw [isLive_addDeclaring, hself]
      exact ⟨isLive_add_self, hmem⟩

/-- A block or path step with its variables. -/
theorem IsLaid.addDeclaring (hg : g.IsLaid) : (g.addDeclaring e l).2.IsLaid := by
  have hself : (g.addDeclaring e l).2.expr g.size = e := he.expr_addDeclaring_self
  refine
    { he.linked hg, he.scoped hg with
      children_lt := fun v u hu => ?_
      declared_lt := fun v u hu => ?_
      source_lt := fun v u hu => ?_
      untyped := fun v => ?_
      dead := fun v hv hdead => ?_ }
  · rw [children_addDeclaring, children, expr_add_eq] at hu
    split at hu
    · next hv => exact hv ▸ he.children_lt u hu
    · exact hg.children_lt v u hu
  · by_cases hv : v = g.size
    · rw [hv, hself] at hu
      exact hv ▸ he.declared_lt hu
    · rw [declared_addDeclaring hv] at hu
      exact hg.declared_lt v u hu
  · by_cases hmem : v ∈ e.declared
    · exact (he.waiting _ (he.mem_sources hmem hu)).source_lt
    · have hv := lt_size_of_varSource? hu
      rw [size_addDeclaring] at hv
      rcases Nat.eq_or_lt_of_le (Nat.le_of_lt_succ hv) with rfl | hv
      · have hnot := he.not_var
        rw [varSource?, var?, hself] at hu
        cases e <;> simp_all [Expr.isVar]
      · exact hg.source_lt v u (he.varSource?_of_not_mem hg hv hmem ▸ hu)
  · exact (type?_addDeclaring v).trans ((type?_add e).trans (hg.untyped v))
  · rw [size_addDeclaring] at hv
    rw [isLive_addDeclaring] at hdead
    rcases Nat.eq_or_lt_of_le (Nat.le_of_lt_succ hv) with rfl | hv
    · rw [isLive_add_self] at hdead
      cases hdead
    · rw [isLive_add_of_lt e hv] at hdead
      have hcall := hg.dead v hv hdead
      rw [he.expr_addDeclaring_of_not_var hv.ne (by rw [hcall]; rfl), hcall]

end

/-! ## Taking conjunctions apart -/

/-- A conjunction is taken apart. -/
theorem IsLaid.dissolve {call : NodeId} {args : List NodeId} (hcall : g.expr call = .call .and args)
    (hg : g.IsLaid) : (g.dissolve call args).IsLaid := by
  refine
    { hg.toLinked.dissolve hcall, hg.toScoped.dissolve hcall hg.inside with
      children_lt := fun v u hu => ?_
      declared_lt := fun v u hu => ?_
      source_lt := fun v u hu => ?_
      untyped := fun v => ?_
      dead := fun v hv hdead => ?_ }
  · rw [children, expr_dissolve hcall] at hu
    split at hu
    · cases hu
    · exact hg.children_lt v u hu
  · rw [declared_dissolve hcall] at hu
    exact hg.declared_lt v u hu
  · have hv : v < g.size := size_dissolve g call args ▸ lt_size_of_varSource? hu
    rw [(reforms_dissolve hcall).varSource?_eq hv id hg.toScoped] at hu
    exact hg.source_lt v u hu
  · exact (type?_dissolve hcall v).trans (hg.untyped v)
  · rw [expr_dissolve hcall]
    split
    · rfl
    · next hne =>
      rw [isLive_dissolve hcall, if_neg hne] at hdead
      exact hg.dead v (size_dissolve g call args ▸ hv) hdead

end Graph

end ShardedQuery
