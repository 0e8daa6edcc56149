import ShardedQuery.Proofs.Graph.Sound

/-!
# Edits of sound graphs
-/

namespace ShardedQuery.Graph

open List

variable {g h k : Graph} {c v p u : NodeId} {e : Expr} {changed cs work : List NodeId}
  {gone S : NodeId → Prop} {rank : NodeId → Nat} {x : Variable}

section
/-! ## Absent nodes -/

/-- A node that is not there has no type. -/
theorem type?_of_size_le (hv : g.size ≤ v) : g.type? v = none := by
  rw [type?, node_of_size_le hv]
  rfl

/-- Only nodes of the graph are live. -/
theorem isLive_of_size_le (hv : g.size ≤ v) : g.isLive v = false := by
  rw [isLive, node_of_size_le hv]
  rfl

/-- A node that is not there uses nothing. -/
theorem uses_of_size_le (hv : g.size ≤ v) : g.uses v = [] := by
  simp [uses, children, varSource?, var?, expr_of_size_le hv, Expr.children, Expr.declared,
    Expr.context, Expr.isScan]

/-- Only nodes of the graph use nodes. -/
theorem lt_size_of_mem_uses (hu : u ∈ g.uses v) : v < g.size :=
  Nat.lt_of_not_le fun hle => by
    rw [uses_of_size_le hle] at hu
    cases hu

/-- Only nodes of the graph are variables over something. -/
theorem lt_size_of_varSource? (hu : g.varSource? v = some u) : v < g.size :=
  lt_size_of_mem_uses (reads_subset_uses (mem_reads_of_varSource? hu))

/-- An order depends on the ranks of the graph's own nodes only. -/
theorem Ordered.congr {rank' : NodeId → Nat} (ho : g.Ordered rank)
    (heq : ∀ v, v < g.size → rank' v = rank v) : g.Ordered rank' := by
  refine ⟨fun v u hu => ?_, ho.mem⟩
  rw [heq v (lt_size_of_mem_uses hu), heq u (ho.mem v u hu)]
  exact ho.rank_lt v u hu

/-- Whatever an edit lets a node use anew has to rank below that node. -/
theorem Ordered.of_uses (ho : g.Ordered rank) (hsize : g.size ≤ h.size)
    (huses : ∀ v u, u ∈ h.uses v → u ∈ g.uses v ∨ (rank u < rank v ∧ u < h.size)) :
    h.Ordered rank := by
  refine ⟨fun v u hu => ?_, fun v u hu => ?_⟩
  · exact (huses v u hu).elim (ho.rank_lt v u) And.left
  · exact (huses v u hu).elim (fun hu => (ho.mem v u hu).trans_le hsize) And.right

/-! ## Variables -/

/-- A row variable is over the domain of its entry in the block that declares it. -/
theorem domain?_of_decl (hx : g.expr v = .var x) (hp : x.decl = some p) :
    g.domain? v = (g.block? p).bind fun b => (b.entries.find? (·.var == v)).map (·.domain) := by
  simp only [domain?, var?, hx, hp, bind, Option.bind_some, pure]
  cases g.block? p with
  | none => rfl
  | some b =>
    simp only [Option.bind_some]
    cases b.entries.find? (·.var == v) <;> rfl

/-- The node declares the variable over the same input in the two graphs, if it does. -/
structure SameScope (g h : Graph) (p v : NodeId) : Prop where
  domain_eq : ((h.block? p).bind fun b => (b.entries.find? (·.var == v)).map (·.domain)) =
    (g.block? p).bind fun b => (b.entries.find? (·.var == v)).map (·.domain)
  input_eq : (h.expr p).stepInput? = (g.expr p).stepInput?

/-- A node that is not edited declares what it did. -/
theorem SameScope.of_expr_eq (he : h.expr p = g.expr p) : SameScope g h p v :=
  ⟨by rw [block?, he, block?], by rw [he]⟩

/-- A node is the variable that it was. -/
theorem var?_congr (hvar : ∀ x, h.expr v = .var x ↔ g.expr v = .var x) : h.var? v = g.var? v :=
  Option.ext fun x => by rw [var?_eq_some, hvar, var?_eq_some]

variable (hvar : ∀ x, h.expr v = .var x ↔ g.expr v = .var x)
  (hdecl : ∀ x, g.expr v = .var x → ∀ p ∈ x.decl, SameScope g h p v)
include hvar hdecl

/-- A variable is over the same domain, if its declaration keeps the entry. -/
theorem domain?_congr : h.domain? v = g.domain? v := by
  cases hx : g.var? v with
  | none => simp [domain?, var?_congr hvar, hx]
  | some x =>
    have hx := var?_eq_some.1 hx
    cases hp : x.decl with
    | none => simp [domain?, var?, hx, (hvar x).2 hx, hp]
    | some p =>
      rw [domain?_of_decl hx hp, domain?_of_decl ((hvar x).2 hx) hp, (hdecl x hx p hp).domain_eq]

omit hdecl in
/-- With its domain and the input of its step, a variable keeps its source. -/
theorem varSource?_of_domain? (hdomain : h.domain? v = g.domain? v)
    (hinput : ∀ x, g.expr v = .var x → ∀ p ∈ x.decl, (h.expr p).stepInput? = (g.expr p).stepInput?) :
    h.varSource? v = g.varSource? v := by
  rw [varSource?, var?_congr hvar, hdomain, varSource?]
  cases hx : g.var? v with
  | none => rfl
  | some x =>
    have hinput : (x.decl.bind fun d => (h.expr d).stepInput?) =
        x.decl.bind fun d => (g.expr d).stepInput? := by
      cases hp : x.decl with
      | none => rfl
      | some p => exact hinput x (var?_eq_some.1 hx) p hp
    simp only [hinput]

/-- A variable has the same source, if its declaration stays. -/
theorem varSource?_congr : h.varSource? v = g.varSource? v :=
  varSource?_of_domain? hvar (domain?_congr hvar hdecl) fun x hx p hp => (hdecl x hx p hp).input_eq

end

section
variable (hg : g.Sound)
include hg

omit hg in
/-- The type of a scan's rows as that of one item. -/
theorem map_one_rowType (d : NodeId) : (g.scan? d).map (fun s => SeqType.one s.rowType) =
    ((g.scan? d).map (·.rowType)).map .one := by
  rw [Option.map_map]
  rfl

/-- The domains of a sound graph are nodes of it. -/
theorem Sound.domain_lt {b : Block} {e : FromEntry} (hb : g.block? v = some b) (he : e ∈ b.entries) :
    e.domain < g.size := by
  obtain ⟨rank, ho⟩ := hg.ordered
  exact ho.mem v e.domain (mem_uses_of_child (isScan_of_block? hb) (domain_mem_children hb he))

/-- The source of a variable is a node of a sound graph. -/
theorem Sound.source_lt (hu : g.varSource? v = some u) : u < g.size := by
  obtain ⟨rank, ho⟩ := hg.ordered
  exact ho.mem v u (reads_subset_uses (mem_reads_of_varSource? hu))

/-- A variable of a sound graph is over a node of it. -/
theorem Sound.domain?_lt (hu : g.domain? v = some u) : u < g.size := by
  simp only [domain?, bind, Option.bind_eq_some_iff, pure, Option.some.injEq] at hu
  obtain ⟨_, _, _, _, b, hb, e, he, rfl⟩ := hu
  exact hg.domain_lt hb (mem_of_find?_eq_some he)

end

/-! ## Edits that keep variables -/

/-- An expression that declares nothing and is not declared. -/
structure DeclaresNothing (e : Expr) : Prop where
  declared : e.declared = []
  undeclared : ∀ x, e = .var x → x.decl = none
  not_star : ∀ b, e = .block b → b.star = false

/-- What is not declared is over nothing. -/
theorem DeclaresNothing.varSource?_eq (he : DeclaresNothing (g.expr v)) : g.varSource? v = none := by
  cases hx : g.expr v with
  | var x =>
    have := he.undeclared x hx
    cases hk : x.kind <;> simp [varSource?, var?, domain?, hx, hk, this]
  | _ => simp [varSource?, var?, hx]

/-- What declares nothing uses its slots only. -/
theorem DeclaresNothing.mem_children (he : DeclaresNothing (g.expr v)) (hu : u ∈ g.uses v) :
    u ∈ g.children v := by
  rw [uses, he.declared, he.varSource?_eq] at hu
  simp only [Option.toList_none, append_nil] at hu
  split at hu
  · cases hu
  · exact hu

/-- What edits may make of an expression without touching a variable: data may change, a conjunction
may lose its arguments, and a block the FROM entries of `gone`, but not the first entry. -/
inductive Reform (gone : NodeId → Prop) : Expr → Expr → Prop
  | refl (e : Expr) : Reform gone e e
  | receive {r r' : Receive} (hinput : r'.input = r.input) : Reform gone (.receive r) (.receive r')
  | scan {s s' : TableScan} (htype : s'.rowType = s.rowType) : Reform gone (.scan s) (.scan s')
  | conjunction (args : List NodeId) : Reform gone (.call .and args) (.call .and [])
  | block {b b' : Block} (hstar : b'.star → b.star) (hhead : b'.entries.head? = b.entries.head?)
      (hsub : b'.entries.Sublist b.entries) (hfind : ∀ u, ¬ gone u →
        b'.entries.find? (·.var == u) = b.entries.find? (·.var == u)) :
      Reform gone (.block b) (.block b')

/-- Nodes are edited in this way, and nodes that declare nothing are added. -/
structure Reforms (gone : NodeId → Prop) (g h : Graph) : Prop where
  size_le : g.size ≤ h.size
  expr : ∀ v, v < g.size → Reform gone (g.expr v) (h.expr v)
  fresh : ∀ v, g.size ≤ v → v < h.size → DeclaresNothing (h.expr v)

namespace Reform

variable {e' : Expr} (hr : Reform gone e e')
include hr

/-- A step keeps its input. -/
theorem stepInput?_eq : e'.stepInput? = e.stepInput? := by
  cases hr <;> rfl

/-- Leaves stay leaves, and no others become one. -/
theorem isLeaf_eq : e'.isLeaf = e.isLeaf := by
  cases hr <;> rfl

/-- Scans stay scans. -/
theorem isScan_eq : e'.isScan = e.isScan := by
  cases hr <;> rfl

/-- Variables are not touched. -/
theorem eq_var : e' = .var x ↔ e = .var x := by
  cases hr <;> simp

/-- Literals are not touched. -/
theorem eq_literal {a : Value} : e' = .literal a ↔ e = .literal a := by
  cases hr <;> simp

/-- Field accesses are not touched. -/
theorem eq_field {r : NodeId} {name : String} : e' = .field r name ↔ e = .field r name := by
  cases hr <;> simp

/-- No variable is declared anew, and those left keep their order. -/
theorem declared_sublist : e'.declared.Sublist e.declared := by
  cases hr with
  | block _ _ hsub => exact hsub.map _
  | _ => exact Sublist.refl _

/-- Variables outside `gone` stay declared. -/
theorem mem_declared (hu : u ∈ e.declared) (hgone : ¬ gone u) : u ∈ e'.declared := by
  cases hr with
  | @block b b' _ _ _ hfind =>
    obtain ⟨entry, hmem, rfl⟩ := mem_map.1 hu
    have hsome : (b.entries.find? (·.var == entry.var)).isSome :=
      find?_isSome.2 ⟨entry, hmem, by simp⟩
    rw [← hfind _ hgone] at hsome
    obtain ⟨kept, hkept⟩ := Option.isSome_iff_exists.1 hsome
    have hvar : kept.var = entry.var := by simpa using find?_some hkept
    exact hvar ▸ mem_map_of_mem (mem_of_find?_eq_some hkept)
  | _ => exact hu

end Reform

namespace Reforms

variable {E : NodeId → Prop} (hr : Reforms gone g h)
include hr

/-- A block was one before, over the same first entry. -/
theorem exists_block (hv : v < g.size) {b' : Block} (hb : h.block? v = some b') :
    ∃ b, g.block? v = some b ∧ (b'.star → b.star) ∧ b'.entries.head? = b.entries.head? := by
  have he := hr.expr v hv
  rw [block?_eq_some.1 hb] at he
  generalize hg : g.expr v = e at he
  cases he with
  | refl => exact ⟨b', block?_eq_some.2 hg, id, rfl⟩
  | block hstar hhead => exact ⟨_, block?_eq_some.2 hg, hstar, hhead⟩

/-- Scans keep the type of their rows. -/
theorem rowType_eq (hv : v < g.size) :
    (h.scan? v).map (·.rowType) = (g.scan? v).map (·.rowType) := by
  have he := hr.expr v hv
  unfold scan?
  generalize g.expr v = e at he
  generalize h.expr v = e' at he
  cases he with
  | scan htype => simp [htype]
  | _ => rfl

/-- Scans stay scans, and no other node becomes one. -/
theorem exists_scan_iff (hv : v < g.size) :
    (∃ s, h.scan? v = some s) ↔ ∃ s, g.scan? v = some s := by
  have := hr.rowType_eq hv
  cases h₁ : g.scan? v <;> cases h₂ : h.scan? v <;> simp_all

/-- Entries of variables outside `gone` stay. -/
theorem sameScope (hp : p < g.size) (hgone : ¬ gone v) : SameScope g h p v := by
  have he := hr.expr p hp
  refine ⟨?_, he.stepInput?_eq⟩
  unfold block?
  generalize g.expr p = e at he
  generalize h.expr p = e' at he
  cases he with
  | block _ _ _ hfind => simp only [Option.bind_some, hfind v hgone]
  | _ => rfl

section
variable (hv : v < g.size) (hgone : ¬ gone v)
include hv hgone

/-- Variables outside `gone` keep their domain. -/
theorem domain?_eq (hg : g.Scoped) : h.domain? v = g.domain? v :=
  domain?_congr (fun _ => (hr.expr v hv).eq_var) fun x hx p hp =>
    hr.sameScope (hg.decl_lt v x hx p hp) hgone

/-- Variables outside `gone` keep their source. -/
theorem varSource?_eq (hg : g.Scoped) : h.varSource? v = g.varSource? v :=
  varSource?_congr (fun _ => (hr.expr v hv).eq_var) fun x hx p hp =>
    hr.sameScope (hg.decl_lt v x hx p hp) hgone

/-- A row variable keeps the scan below it, and with it its type. -/
theorem constantType?_eq (hg : g.Sound) : h.constantType? v = g.constantType? v := by
  have he := hr.expr v hv
  have hrows : ((g.domain? v).bind fun d => (h.scan? d).map fun s => SeqType.one s.rowType) =
      (g.domain? v).bind fun d => (g.scan? d).map fun s => SeqType.one s.rowType := by
    cases hd : g.domain? v with
    | none => rfl
    | some d => simp only [Option.bind_some, map_one_rowType, hr.rowType_eq (hg.domain?_lt hd)]
  simp only [constantType?, hr.domain?_eq hv hgone hg.toScoped, hrows]
  generalize g.expr v = e at he
  generalize h.expr v = e' at he
  cases he with
  | scan htype => simp only [htype]
  | _ => rfl

/-- Typing rules stay, but for those of conjunctions that are taken apart and of blocks that select
something else. -/
theorem sameRule (hg : g.Scoped)
    (hand : ∀ args, g.expr v = .call .and args → h.expr v = .call .and args)
    (hblock : ∀ b b', g.expr v = .block b → h.expr v = .block b' →
      b'.star = b.star ∧ b'.select = b.select) : SameRule g h v := by
  have he := hr.expr v hv
  generalize hge : g.expr v = e at he
  generalize hhe : h.expr v = e' at he
  cases he with
  | refl => exact .of_expr_eq (hhe.trans hge.symm) fun _ => hr.varSource?_eq hv hgone hg
  | receive hinput =>
    refine ⟨fun t => by simp only [typeRule, hge, hhe, hinput], ?_⟩
    simp only [reads, hge, hhe, Expr.children, hinput]
  | scan htype => exact .of_scan (scan?_eq_some.2 hge) (scan?_eq_some.2 hhe) htype
  | conjunction args =>
    exact .of_expr_eq ((hand args hge).trans hge.symm) fun _ => hr.varSource?_eq hv hgone hg
  | block _ hhead =>
    obtain ⟨hstar, hselect⟩ := hblock _ _ hge hhe
    refine .of_block (block?_eq_some.2 hge) (block?_eq_some.2 hhe) hstar hselect fun _ => ?_
    rw [Block.firstVar?, hhead, Block.firstVar?]

end

/-- Scopes stay in order, if all but the variables of `E` are still declared. -/
theorem scopedBut (hg : g.ScopedBut E)
    (hin : ∀ p, (g.expr p).isScan = false → ∀ c ∈ g.children p, c < g.size)
    (hdecl : h.DeclaresBut E) : h.ScopedBut E := by
  refine hg.of_same hr.size_le (fun v hv x => (hr.expr v hv).eq_var)
    (fun v hv => (hr.expr v hv).declared_sublist)
    (fun v s hs => (hr.exists_scan_iff (lt_size_of_scan? hs)).2 ⟨s, hs⟩) (fun v hv b' hb => ?_)
    (fun v hge hlt => ?_) hdecl
  · obtain ⟨b, hb, hstar, hhead⟩ := hr.exists_block hv hb
    refine ⟨b, hb, hstar, fun e s he _ => hhead.trans he, fun e s he hs => ?_⟩
    rw [hhead] at he
    exact ⟨he, (hr.exists_scan_iff (hin v (isScan_of_block? hb) _
      (domain_mem_children hb (mem_of_head? he)))).1 ⟨s, hs⟩⟩
  · have hnew := hr.fresh v hge hlt
    have hnil := hnew.declared
    rw [hnil]
    refine ⟨nodup_nil, fun u hu => (by cases hu), hnew.undeclared, fun b hb => ?_⟩
    have hexpr := block?_eq_some.1 hb
    refine ⟨hnew.not_star b hexpr, fun entry hentry => ?_⟩
    rw [hexpr, Expr.declared, map_eq_nil_iff] at hnil
    rw [hnil] at hentry
    cases hentry

end Reforms

section
variable (hr : Reforms gone g h) (hg : g.Scoped)
  (hin : ∀ p, (g.expr p).isScan = false → ∀ c ∈ g.children p, c < g.size)
  (hlive : ∀ v, v < g.size → h.isLive v → g.isLive v)
  (hstays : ∀ p, g.isLive p → (g.expr p).declared ≠ [] → h.isLive p)
include hr hg hin hlive hstays

/-- Declarations stay in order if no node that declares anything dies, but that the variables of
`gone` are left over. -/
theorem Reforms.scopedBut_gone : h.ScopedBut gone := by
  refine hr.scopedBut (hg.but gone) hin fun u x hu hnot hx p hp => ?_
  have hlt : u < g.size := Nat.lt_of_not_le fun hge => by
    rw [(hr.fresh u hge (lt_size_of_var hx)).undeclared x hx] at hp
    cases hp
  obtain ⟨hplive, hmem⟩ := hg.decl u x (hlive u hlt hu) ((hr.expr u hlt).eq_var.1 hx) p hp
  exact ⟨hstays p hplive (ne_nil_of_mem hmem),
    (hr.expr p (lt_size_of_isLive hplive)).mem_declared hmem hnot⟩

/-- Scopes stay in order, if the variables of `gone` are dead. -/
theorem Reforms.scoped (hgone : ∀ u, gone u → h.isLive u = false) : h.Scoped :=
  (hr.scopedBut_gone hg hin hlive hstays).scoped hgone

end

/-- Equal expressions are edited in no way at all. -/
theorem SameExprs.reforms (hs : SameExprs g h) : Reforms (fun _ => False) g h :=
  ⟨hs.size_eq.symm.le, fun v _ => hs.expr_eq v ▸ .refl _,
    fun _ hge hlt => absurd hge (not_le.2 (hs.size_eq ▸ hlt))⟩

/-! ## Types -/

/-- The nodes of `S` and those that `h` has more than `g`. -/
def grown (S : NodeId → Prop) (g h : Graph) (v : NodeId) : Prop := S v ∨ (g.size ≤ v ∧ v < h.size)

/-- Only the size of the edited graph matters. -/
theorem grown_congr (hsize : k.size = h.size) : grown S g k = grown S g h := by
  unfold grown
  rw [hsize]

/-- A graph has no more nodes than itself. -/
theorem grown_self : grown S g g = S := by
  funext v
  refine propext ⟨fun hv => hv.resolve_right fun hv => ?_, .inl⟩
  exact absurd hv.1 (not_le.2 hv.2)

/-- Growing twice is growing once. -/
theorem grown_grown (hgh : g.size ≤ h.size) (hhk : h.size ≤ k.size) :
    grown (grown S g h) h k = grown S g k := by
  funext v
  apply propext
  constructor
  · rintro ((hv | hv) | hv)
    · exact .inl hv
    · exact .inr ⟨hv.1, hv.2.trans_le hhk⟩
    · exact .inr ⟨hgh.trans hv.1, hv.2⟩
  · rintro (hv | hv)
    · exact .inl (.inl hv)
    · rcases Nat.lt_or_ge v h.size with hlt | hge
      · exact .inl (.inr ⟨hv.1, hlt⟩)
      · exact .inr ⟨hge, hv.2⟩

/-- An edit that leaves kept types, life, variables and constants alone, and that adds nodes without
kept types. -/
theorem Edits.of_same (hm : g.Maintained S work) (htype : ∀ v, v < g.size → h.type? v = g.type? v)
    (hlive : ∀ v, v < g.size → h.isLive v = g.isLive v)
    (hnew : ∀ v, g.size ≤ v → v < h.size → h.type? v = none ∧ h.isLive v)
    (hvar : ∀ v x, v ∉ changed → g.expr v = .var x → h.expr v = .var x)
    (hliteral : ∀ v, v < g.size → g.expr v = .literal .empty → h.expr v = .literal .empty)
    (hconst : ∀ v, v < g.size → h.constantType? v = g.constantType? v)
    (hrule : ∀ v, v < g.size → g.constantType? v = none → v ∉ changed → SameRule g h v)
    (hchanged : ∀ v ∈ changed, g.constantType? v = none) : Edits g h S (grown S g h) changed := by
  have htype' (v : NodeId) (hge : g.size ≤ v) : h.type? v = none := by
    rcases Nat.lt_or_ge v h.size with hlt | hge'
    · exact (hnew v hge hlt).1
    · exact type?_of_size_le hge'
  refine
    { mono := fun v hv => .inl hv
      fresh := fun v hv => hv.imp_right fun h => htype' v h.1
      type_eq := fun v hv => htype v (hm.inside v hv)
      live := fun v hv h => hlive v (hm.inside v hv) ▸ h
      dead := fun v hv hdead => ?_
      constants := fun v t ht t' ht' => ?_
      rule := fun v hv hnot => ?_
      open_rule := fun v hmem hv => (hconst v (hm.inside v hv)).trans (hchanged v hmem)
      stale := fun v hv hnot _ hstale => ?_ }
  · rcases hv with hv | ⟨hge, hlt⟩
    · have hin := hm.inside v hv
      rw [htype v hin, hconst v hin]
      exact hm.dead v hv (hlive v hin ▸ hdead)
    · rw [(hnew v hge hlt).2] at hdead
      cases hdead
  · rcases Nat.lt_or_ge v g.size with hlt | hge
    · rw [hconst v hlt] at ht
      rw [htype v hlt] at ht'
      exact hm.constants v t ht t' ht'
    · rw [htype' v hge] at ht'
      cases ht'
  · have hin := hm.inside v hv
    cases hc : g.constantType? v with
    | some t => exact .inr (.inl ⟨t, hc, (hconst v hin).trans hc⟩)
    | none => exact .inr (.inr ⟨hrule v hin hc hnot, hc, (hconst v hin).trans hc⟩)
  · obtain ⟨u, hu, hempty⟩ := hstale
    obtain ⟨x, hx⟩ : ∃ x, g.expr v = .var x := by
      unfold varSource? at hu
      split at hu
      · cases hu
      · next x hx => exact ⟨x, var?_eq_some.1 hx⟩
    refine ⟨u, ?_, hliteral u (hm.toSound.source_lt hu) hempty⟩
    have hc : g.constantType? v = none := by
      cases hk : x.kind with
      | row =>
        have hd : g.domain? v = some u := by simpa [varSource?, var?, hx, hk] using hu
        simp [constantType?, hx, hk, hd, scan?, hempty]
      | _ => simp [constantType?, hx, hk]
    have hreads := (hrule v (hm.inside v hv) hc hnot).reads_eq
    have hsource : (h.varSource? v).toList = (g.varSource? v).toList := by
      simpa [reads, hx, hvar v x hnot hx] using hreads
    rw [hu] at hsource
    exact Option.toList_eq_singleton_iff.1 hsource

/-- An edit that adds no nodes. -/
theorem Maintained.editSame (hm : g.Maintained S work) (hsize : h.size = g.size) (hh : h.Sound)
    (he : Edits g h S (grown S g h) changed)
    (hclosed : ∀ v, S v → ∀ u, u ∈ h.children v ∨ u ∈ h.reads v → S u) :
    h.Maintained S (changed ++ work) := by
  have hgrown (v : NodeId) (hv : grown S g h v) : S v :=
    hv.resolve_right fun hv => absurd hv.1 (not_le.2 (hsize ▸ hv.2))
  have hinside (v : NodeId) (hv : S v) : v < h.size := hsize ▸ hm.inside v hv
  have hm' := hm.edit hh he (fun v hv => hinside v (hgrown v hv))
    fun v hv u hu => .inl (hclosed v (hgrown v hv) u hu)
  exact ⟨hm'.toSound, ⟨hm'.constants, fun v hv => hm'.dead v (.inl hv),
    fun v hv => hm'.current v (.inl hv)⟩, hinside, hclosed⟩

/-- A node of a constant type may be counted in. -/
theorem Maintained.withConstant
    (hm : g.Maintained S work) (hlt : u < g.size) (hconst : g.constantType? u ≠ none)
    (hclosed : ∀ w, w ∈ g.children u ∨ w ∈ g.reads u → S w) :
    g.Maintained (fun v => S v ∨ v = u) work := by
  refine ⟨hm.toSound, ⟨hm.constants, fun v hv hdead => ?_, fun v hv hlive => ?_⟩, fun v hv => ?_,
    fun v hv w hw => ?_⟩
  · rcases hv with hv | rfl
    · exact hm.dead v hv hdead
    · exact .inr hconst
  · rcases hv with hv | rfl
    · exact hm.current v hv hlive
    · obtain ⟨t, ht⟩ := Option.ne_none_iff_exists'.1 hconst
      refine .inl fun t' ht' => ?_
      rw [derivedType_of_constant hm.constants ht, hm.constants v t ht t' ht']
  · rcases hv with hv | rfl
    · exact hm.inside v hv
    · exact hlt
  · rcases hv with hv | rfl
    · exact .inl (hm.closed v hv w hw)
    · exact .inl (hclosed w hw)

/-! ## Adding a node -/

/-- A node with slots is not a leaf. -/
theorem isLeaf_eq_false (hc : c ∈ e.children) : e.isLeaf = false := by
  cases e <;> simp_all [Expr.children, Expr.isLeaf]

/-- An expression over nodes of the graph that declares nothing. -/
structure IsPlain (g : Graph) (e : Expr) : Prop where
  children_lt : ∀ c ∈ e.children, c < g.size
  declared : e.declared = []
  undeclared : ∀ x, e = .var x → x.decl = none
  not_star : ∀ b, e = .block b → b.star = false

/-- A variable that is not declared yet is plain. -/
theorem isPlain_var (name : String) (kind : VarKind) :
    g.IsPlain (.var { name := name, kind := kind }) :=
  ⟨fun c hc => (by cases hc), rfl, fun x hx => (by cases hx; rfl), fun b hb => (by cases hb)⟩

/-- A new node is live. -/
theorem isLive_add_self : (g.add e).2.isLive g.size := isLive_add_iff.2 (.inl rfl)

/-- The new node is the only parent that is added, unless it is a leaf. -/
theorem mem_parents_add (hp : p ∈ (g.add e).2.parents v) :
    p ∈ g.parents v ∨ (p = g.size ∧ e.isLeaf = false) := by
  rcases Nat.lt_or_ge v g.size with hlt | hge
  · rw [parents_add_of_lt e hlt] at hp
    refine (mem_append.1 hp).imp_right fun hp => ⟨eq_of_mem_replicate hp, ?_⟩
    have hcount : 0 < e.children.count v := by
      rcases Nat.eq_zero_or_pos (e.children.count v) with h | h
      · rw [h] at hp
        cases hp
      · exact h
    exact isLeaf_eq_false (count_pos_iff.1 hcount)
  · rcases Nat.eq_or_lt_of_le hge with rfl | hlt
    · rw [parents, node_add_self] at hp
      cases hp
    · rw [parents_of_size_le (by rw [size_add]; exact hlt)] at hp
      cases hp

/-- Slots that were recorded as parents still are. -/
theorem count_le_parents_add (hrecords : ∀ c, g.isLive c → cs.count c ≤ (g.parents c).count p)
    (hcs : ∀ c ∈ cs, c < g.size) (hc : (g.add e).2.isLive c) :
    cs.count c ≤ ((g.add e).2.parents c).count p := by
  by_cases hmem : c ∈ cs
  · rw [isLive_add_of_lt e (hcs c hmem)] at hc
    rw [parents_add_of_lt e (hcs c hmem), count_append]
    exact (hrecords c hc).trans (Nat.le_add_right _ _)
  · rw [count_eq_zero_of_not_mem hmem]
    exact Nat.zero_le _

/-- The slots of the new node are recorded. -/
theorem recordsSlots_add_self (he : ∀ c ∈ e.children, c < g.size) :
    (g.add e).2.RecordsSlots g.size := by
  intro c _
  rw [children, expr_add_self]
  by_cases hmem : c ∈ e.children
  · rw [parents_add_of_lt e (he c hmem), count_append, count_replicate_self]
    exact Nat.le_add_left _ _
  · rw [count_eq_zero_of_not_mem hmem]
    exact Nat.zero_le _

/-- Parents record slots as before, and those of the new node. -/
theorem LinkedAs.add (hg : g.LinkedAs p cs) (he : ∀ c ∈ e.children, c < g.size)
    (hin : ∀ q, q ≠ p → (g.expr q).isScan = false → ∀ c ∈ g.children q, c < g.size)
    (hp : p ≠ g.size) (hcs : ∀ c ∈ cs, c < g.size) : (g.add e).2.LinkedAs p cs := by
  have hsize : (g.add e).2.size = g.size + 1 := size_add ..
  refine ⟨fun v q hq => ?_, fun v q hq => ?_, fun q hqp hq hscan c hc => ?_, fun hplive c hc => ?_⟩
  · rcases mem_parents_add hq with hq | ⟨rfl, -⟩
    · exact hsize ▸ Nat.lt_succ_of_lt (hg.parents_lt v q hq)
    · exact hsize ▸ Nat.lt_succ_self _
  · rcases mem_parents_add hq with hq | ⟨rfl, hleaf⟩
    · rw [expr_add_of_lt e (hg.parents_lt v q hq)]
      exact hg.parents_inner v q hq
    · rw [expr_add_self]
      exact hleaf
  · by_cases hself : q = g.size
    · subst hself
      exact recordsSlots_add_self he c hc
    · rw [expr_add_eq, if_neg hself] at hscan
      rw [children, expr_add_eq, if_neg hself]
      exact count_le_parents_add (hg.slots q hqp ((isLive_add_iff.1 hq).resolve_left hself) hscan)
        (hin q hqp hscan) hc
  · exact count_le_parents_add (hg.claimed ((isLive_add_iff.1 hplive).resolve_left hp)) hcs hc

/-- A node over nodes of the graph keeps the parents right. -/
theorem Linked.add (hg : g.Linked) (he : ∀ c ∈ e.children, c < g.size)
    (hin : ∀ p, (g.expr p).isScan = false → ∀ c ∈ g.children p, c < g.size) :
    (g.add e).2.Linked := by
  rw [linked_iff_linkedAs (p := g.size + 1) (size_add ..).le]
  exact ((linked_iff_linkedAs (Nat.le_succ _)).1 hg).add he (fun q _ => hin q)
    (Nat.succ_ne_self _) fun c hc => by cases hc

/-- A plain expression declares nothing. -/
theorem IsPlain.declaresNothing (he : g.IsPlain e) : DeclaresNothing e :=
  ⟨he.declared, he.undeclared, he.not_star⟩

/-- To add a plain node is an edit that touches no variable. -/
theorem IsPlain.reforms (he : g.IsPlain e) : Reforms (fun _ => False) g (g.add e).2 := by
  have hsize : (g.add e).2.size = g.size + 1 := size_add ..
  refine ⟨hsize ▸ Nat.le_succ _, fun v hv => expr_add_of_lt e hv ▸ .refl _, fun v hge hlt => ?_⟩
  obtain rfl := Nat.eq_of_le_of_lt_succ hge (hsize ▸ hlt)
  rw [expr_add_self]
  exact he.declaresNothing

/-- A plain node keeps the scopes in order. -/
theorem Scoped.add (hg : g.Scoped) (he : g.IsPlain e)
    (hin : ∀ p, (g.expr p).isScan = false → ∀ c ∈ g.children p, c < g.size) :
    (g.add e).2.Scoped :=
  he.reforms.scoped hg hin (fun _ hv hlive => isLive_add_of_lt e hv ▸ hlive)
    (fun _ hp _ => isLive_add_iff.2 (.inr hp)) fun _ hu => hu.elim

/-- A plain node uses its slots only. -/
theorem mem_children_of_uses_add_self (he : g.IsPlain e)
    (hu : u ∈ (g.add e).2.uses g.size) : u ∈ e.children := by
  have hself : (g.add e).2.expr g.size = e := expr_add_self ..
  have hu := DeclaresNothing.mem_children (hself.symm ▸ he.declaresNothing) hu
  rwa [children, hself] at hu

/-- A new node has a place in the order above the nodes it uses. -/
theorem Ordered.add (ho : g.Ordered rank) (hg : g.Scoped) (he : g.IsPlain e)
    (hrank : ∀ c ∈ e.children, rank c < rank g.size) : (g.add e).2.Ordered rank := by
  have hsize : (g.add e).2.size = g.size + 1 := size_add ..
  have huses {v : NodeId} (hv : v < g.size) : (g.add e).2.uses v = g.uses v := by
    rw [uses, children, expr_add_of_lt e hv, he.reforms.varSource?_eq hv id hg, uses, children]
  have hcases {v u : NodeId} (hu : u ∈ (g.add e).2.uses v) : v < g.size ∨ v = g.size :=
    Nat.lt_or_eq_of_le (Nat.le_of_lt_add_one (hsize ▸ lt_size_of_mem_uses hu))
  refine ho.of_uses (hsize ▸ Nat.le_succ _) fun v u hu => ?_
  rcases hcases hu with hv | rfl
  · exact .inl (huses hv ▸ hu)
  · have hu := mem_children_of_uses_add_self he hu
    exact .inr ⟨hrank u hu, hsize ▸ Nat.lt_succ_of_lt (he.children_lt u hu)⟩

/-- The slots of a sound graph hold nodes of it, scans apart. -/
theorem Sound.children_lt (hg : g.Sound) (hscan : (g.expr p).isScan = false) (hc : c ∈ g.children p) :
    c < g.size := by
  obtain ⟨rank, ho⟩ := hg.ordered
  exact ho.mem p c (mem_uses_of_child hscan hc)

/-- A rank for a new node above some nodes. -/
theorem Ordered.exists_rank (ho : g.Ordered rank) (cs : List NodeId) (hcs : ∀ c ∈ cs, c < g.size) :
    ∃ rank', g.Ordered rank' ∧ ∀ c ∈ cs, rank' c < rank' g.size := by
  let top := cs.foldr (fun c n => max (rank c) n) 0
  have htop : ∀ c ∈ cs, rank c ≤ top := by
    intro c hc
    show rank c ≤ cs.foldr (fun c n => max (rank c) n) 0
    clear hcs
    induction cs with
    | nil => cases hc
    | cons d cs ih =>
      rw [foldr_cons]
      rcases mem_cons.1 hc with rfl | hc
      · exact Nat.le_max_left _ _
      · exact (ih hc).trans (Nat.le_max_right _ _)
  refine ⟨fun v => if v = g.size then top + 1 else rank v,
    ho.congr fun v hv => if_neg hv.ne, fun c hc => ?_⟩
  simp only [if_neg (hcs c hc).ne, if_true]
  exact Nat.lt_succ_of_le (htop c hc)

/-- What an edit adds can be ranked right below a node, if only that node uses it and if it uses only
what ranks below that node. -/
theorem Ordered.exists_below {block : NodeId} (ho : g.Ordered rank)
    (hblock : block < g.size) (hsize : g.size ≤ h.size)
    (huses : ∀ v u, u ∈ h.uses v → u ∈ g.uses v ∨ (v = block ∧ g.size ≤ u ∧ u < h.size) ∨
      ((v = block ∨ g.size ≤ v) ∧ rank u < rank block ∧ u < g.size)) : ∃ rank', h.Ordered rank' ∧
      ∀ u, u < g.size → rank u < rank block → rank' u < rank' block := by
  let rank' (v : NodeId) : Nat := if v < g.size then 2 * rank v + 2 else 2 * rank block + 1
  have hold {v : NodeId} (hv : v < g.size) : rank' v = 2 * rank v + 2 := if_pos hv
  have hnew {v : NodeId} (hv : g.size ≤ v) : rank' v = 2 * rank block + 1 :=
    if_neg (not_lt.2 hv)
  refine ⟨rank', ⟨fun v u hu => ?_, fun v u hu => ?_⟩, fun u hu hlt => ?_⟩
  · rcases huses v u hu with hu | ⟨rfl, hge, -⟩ | ⟨rfl | hv, hlt, hu⟩
    · have := ho.rank_lt v u hu
      rw [hold (lt_size_of_mem_uses hu), hold (ho.mem v u hu)]
      omega
    · rw [hold hblock, hnew hge]
      exact Nat.lt_succ_self _
    · rw [hold hblock, hold hu]
      omega
    · rw [hnew hv, hold hu]
      omega
  · rcases huses v u hu with hu | ⟨-, -, hu⟩ | ⟨-, -, hu⟩
    · exact (ho.mem v u hu).trans_le hsize
    · exact hu
    · exact hu.trans_le hsize
  · rw [hold hblock, hold hu]
    omega

/-- A graph stays sound with a plain node, which ranks above its slots. -/
theorem Sound.add (hg : g.Sound) (he : g.IsPlain e) : (g.add e).2.Sound := by
  obtain ⟨rank, ho⟩ := hg.ordered
  obtain ⟨rank', ho', hrank⟩ := ho.exists_rank e.children he.children_lt
  have hin := fun p hscan c hc => hg.children_lt (p := p) (c := c) hscan hc
  exact
    { hg.toLinked.add he.children_lt hin, hg.toScoped.add he hin with
      ordered := ⟨rank', ho'.add hg.toScoped he hrank⟩ }

/-- Types stay up to date in `S`, and the new node joins it when its slots are there. -/
theorem Maintained.add (hm : g.Maintained S work) (he : g.IsPlain e) (hS : ∀ c ∈ e.children, S c) :
    (g.add e).2.Maintained (grown S g (g.add e).2) work := by
  have hsize : (g.add e).2.size = g.size + 1 := size_add ..
  have hexpr {v : NodeId} (hv : v < g.size) : (g.add e).2.expr v = g.expr v := expr_add_of_lt e hv
  have hedit : Edits g (g.add e).2 S (grown S g (g.add e).2) [] := by
    refine Edits.of_same hm (fun v _ => type?_add e) (fun v hv => isLive_add_of_lt e hv)
      (fun v hge hlt => ?_) (fun v x _ hx => ?_) (fun v hv h => (hexpr hv).trans h)
      (fun v hv => he.reforms.constantType?_eq hv id hm.toSound) (fun v hv _ _ => ?_)
      (fun v hv => by cases hv)
    · obtain rfl := Nat.eq_of_le_of_lt_succ hge (hsize ▸ hlt)
      exact ⟨(type?_add e).trans (type?_of_size_le le_rfl), isLive_add_self⟩
    · exact (hexpr (lt_size_of_var hx)).trans hx
    · exact .of_expr_eq (hexpr hv) fun _ => he.reforms.varSource?_eq hv id hm.toScoped
  refine hm.edit (hm.toSound.add he) hedit (fun v hv => ?_) fun v hv u hu => ?_
  · rcases hv with hv | hv
    · exact hsize ▸ Nat.lt_succ_of_lt (hm.inside v hv)
    · exact hv.2
  · rcases hv with hv | ⟨hge, hlt⟩
    · have hin := hm.inside v hv
      refine .inl (hm.closed v hv u ?_)
      rwa [children, hexpr hin, (SameRule.of_expr_eq (hexpr hin)
        fun _ => he.reforms.varSource?_eq hin id hm.toScoped).reads_eq] at hu
    · obtain rfl := Nat.eq_of_le_of_lt_succ hge (hsize ▸ hlt)
      have hself : (g.add e).2.expr g.size = e := expr_add_self ..
      have hmem : u ∈ e.children := by
        rcases hu with hu | hu
        · rwa [children, hself] at hu
        · exact mem_children_of_uses_add_self he (reads_subset_uses hu)
      exact .inl (hS u hmem)

/-! ## Changing the data of a node -/

/-- `e'` is `e` with other data, but with the same variables and typing rule and, scans apart, the
same slots. -/
inductive Retouch : Expr → Expr → Prop
  | refl (e : Expr) : Retouch e e
  | receive {r r' : Receive} (hinput : r'.input = r.input) : Retouch (.receive r) (.receive r')
  | block (b : Block) (sorted : Bool) : Retouch (.block b) (.block { b with sortByIndex := sorted })
  | scan {s s' : TableScan} (htype : s'.rowType = s.rowType) : Retouch (.scan s) (.scan s')

/-- Nothing but data of nodes differs. -/
structure Retouches (g h : Graph) : Prop where
  size_eq : h.size = g.size
  parents_eq : ∀ v, h.parents v = g.parents v
  live_eq : ∀ v, h.isLive v = g.isLive v
  type_eq : ∀ v, h.type? v = g.type? v
  expr : ∀ v, Retouch (g.expr v) (h.expr v)

namespace Retouch

variable {e' : Expr} (hr : Retouch e e')
include hr

/-- Slots stay, but for those of scans. -/
theorem children_eq (hscan : e.isScan = false) : e'.children = e.children := by
  cases hr with
  | refl => rfl
  | receive hinput => simp only [Expr.children, hinput]
  | block => rfl
  | scan => cases hscan

/-- To change data is an edit that touches no variable. -/
theorem reform : Reform (fun _ => False) e e' := by
  cases hr with
  | refl => exact .refl _
  | receive hinput => exact .receive hinput
  | block => exact .block id rfl (Sublist.refl _) fun _ _ => rfl
  | scan htype => exact .scan htype

end Retouch

/-- To change the data of one node changes no other. -/
theorem Retouches.modifyExpr {id : NodeId} {f : Expr → Expr}
    (hf : Retouch (g.expr id) (f (g.expr id))) : Retouches g (g.modifyExpr id f) := by
  refine ⟨size_modify .., fun _ => parents_modifyExpr _ _, fun _ => isLive_modifyExpr _ _,
    fun _ => type?_modifyExpr _ _, fun v => ?_⟩
  rw [expr_modifyExpr]
  split
  · next hv => exact hv.1 ▸ hf
  · exact .refl _

section
variable (hr : Retouches g h)
include hr

/-- No variable is touched. -/
theorem Retouches.reforms : Reforms (fun _ => False) g h :=
  ⟨hr.size_eq.symm.le, fun v _ => (hr.expr v).reform,
    fun _ hge hlt => absurd hge (not_le.2 (hr.size_eq ▸ hlt))⟩

/-- Typing rules stay. -/
theorem Retouches.sameRule (hg : g.Scoped) (hv : v < g.size) : SameRule g h v := by
  have he := hr.expr v
  refine hr.reforms.sameRule hv id hg (fun args hargs => ?_) fun b b' hb hb' => ?_
  · rw [hargs] at he
    generalize h.expr v = e' at he
    cases he
    rfl
  · rw [hb, hb'] at he
    cases he <;> exact ⟨rfl, rfl⟩

/-- The order stays, as no node uses anything new. -/
theorem Retouches.ordered (hg : g.Scoped) (ho : g.Ordered rank) : h.Ordered rank := by
  refine ho.of_uses hr.size_eq.symm.le fun v u hu => .inl ?_
  have hv : v < g.size := hr.size_eq ▸ lt_size_of_mem_uses hu
  have hr' := hr.reforms.expr v hv
  rw [uses, mem_append, mem_append, hr.reforms.varSource?_eq hv id hg, hr'.isScan_eq] at hu
  rw [uses, mem_append, mem_append]
  refine hu.imp_left fun hu => hu.imp (fun hu => ?_) fun hu => hr'.declared_sublist.subset hu
  split at hu
  · cases hu
  · next hscan =>
    rw [if_neg hscan]
    rwa [children, (hr.expr v).children_eq (Bool.eq_false_iff.2 hscan)] at hu

/-- The graph stays sound. -/
theorem Retouches.sound (hg : g.Sound) : h.Sound := by
  obtain ⟨rank, ho⟩ := hg.ordered
  refine
    { toLinked := hg.toLinked.of_same hr.size_eq (fun v hv => hr.live_eq v ▸ hv)
        (fun v q hq => hr.parents_eq v ▸ hq) (fun c q _ _ => by rw [hr.parents_eq])
        (fun q _ hq => (hr.expr q).reform.isLeaf_eq.trans hq) fun q _ hscan => ?_
      toScoped := hr.reforms.scoped hg.toScoped (fun _ hscan _ => hg.children_lt hscan)
        (fun v _ hv => hr.live_eq v ▸ hv) (fun p hp _ => (hr.live_eq p).trans hp) fun _ hu => hu.elim
      ordered := ⟨rank, hr.ordered hg.toScoped ho⟩ }
  rw [(hr.expr q).reform.isScan_eq] at hscan
  exact ⟨hscan, (hr.expr q).children_eq hscan⟩

section
variable (hm : g.Maintained S work)
  (hscan : ∀ v s, S v → h.scan? v = some s → ∀ c ∈ (Expr.scan s).children, S c)
include hm hscan

/-- What stands in the slots of a node or is read by it, if new slots are over nodes of `S` only. -/
theorem Retouches.closed (v : NodeId) (hv : S v) (u : NodeId)
    (hu : u ∈ h.children v ∨ u ∈ h.reads v) : S u := by
  rw [(hr.sameRule hm.toScoped (hm.inside v hv)).reads_eq] at hu
  cases hs : h.scan? v with
  | some s =>
    rcases hu with hu | hu
    · rw [children, scan?_eq_some.1 hs] at hu
      exact hscan v s hv hs u hu
    · exact hm.closed v hv u (.inr hu)
  | none =>
    have hnot := (hr.expr v).reform.isScan_eq.symm.trans (scan?_eq_none.1 hs)
    rw [children, (hr.expr v).children_eq hnot] at hu
    exact hm.closed v hv u hu

/-- Types stay up to date, if new slots of scans are over nodes of `S`. -/
theorem Retouches.maintained : h.Maintained S work := by
  have hedit : Edits g h S (grown S g h) [] :=
    Edits.of_same hm (fun v _ => hr.type_eq v) (fun v _ => hr.live_eq v)
      (fun v hge hlt => absurd hge (not_le.2 (hr.size_eq ▸ hlt)))
      (fun v x _ hx => (hr.expr v).reform.eq_var.2 hx)
      (fun v _ hx => (hr.expr v).reform.eq_literal.2 hx)
      (fun v hv => hr.reforms.constantType?_eq hv id hm.toSound)
      (fun v hv _ _ => hr.sameRule hm.toScoped hv) fun v hv => by cases hv
  exact hm.editSame hr.size_eq (hr.sound hm.toSound) hedit (hr.closed hm hscan)

end

end

end ShardedQuery.Graph
