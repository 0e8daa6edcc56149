import ShardedQuery.Proofs.Access.Chains
import ShardedQuery.Proofs.Graph.Local
import ShardedQuery.Proofs.Passes.Names

/-!
# Access paths use what is local

A scan gets operands of the WHERE clause as keys and checks conjuncts on index entries. Operands do
not depend on rows, and a conjunct is checked on entries only if the paths in it look at all items
that the entries hold. So what a scan uses is computed on the spot, whatever access path is chosen
(`Selection.scansLocally_select`).
-/

namespace ShardedQuery

open ShardedQuery.Graph List

variable {g h : Graph} {block c operand rowVar : NodeId} {path : AccessPath} {t : Table}
  {a : Analysis} {e : Expr} {q : QueryPath} {site : Site} {s : TableScan} {w : Weights}

/-! ## Conjuncts on index entries -/

/-- A conjunct that compares an operand with a path that looks at all items of an index field. -/
def Site.ChecksPath (site : Site) (g : Graph) (path : AccessPath) (c : NodeId) : Prop :=
  ∃ op any left operand q f m allowKey,
    (g.expr c = .call (.compare op any) [left, operand] ∨
      g.expr c = .call (.compare op any) [operand, left]) ∧
    g.isRowIndependent operand ∧ g.queryPath? site.rowVar left = some q ∧ f ∈ path.fields ∧
    q.matchPath f.path allowKey = some m ∧ m.widened = false

namespace Analysis

/-- A predicate that filters looks at all items of its field. -/
theorem IsFound.widened_eq_false (h : a.IsFound g t w site path) {p : Predicate}
    (hp : p ∈ a.predicates) (hfilters : a.filters p) : p.widened = false := by
  obtain ⟨hkeep, huses⟩ := filters_iff.1 hfilters
  obtain ⟨ps, rs, -, -, -, hpredicates⟩ := h.exists_settled
  rw [hpredicates] at hp
  obtain ⟨r, -, rfl⟩ := mem_map.1 hp
  rw [Bounds.uses_release] at huses
  unfold Predicate.release at hkeep ⊢
  dsimp only at hkeep ⊢
  split at hkeep
  · cases hkeep
  · next hnot =>
    rw [if_neg hnot]
    have hkept : r.isKept := by simpa [Predicate.isKept] using hkeep
    rw [Bool.not_eq_true, Bool.or_eq_false_iff] at hnot
    simpa [hkept, huses] using hnot.2

/-- What is checked on index entries compares such a path, or can be evaluated there. -/
theorem IsFound.filter_cases (h : a.IsFound g t w site path) (hc : c ∈ a.filterConjuncts) :
    site.ChecksPath g path c ∨ isEvaluable g t path site.rowVar c := by
  rcases mem_filterConjuncts.1 hc with ⟨p, hp, hfilters, rfl⟩ | hc
  · have hwidened := h.widened_eq_false hp hfilters
    obtain ⟨p', left, hpp, -, hread⟩ := h.exists_isReadAt hp
    obtain ⟨q, m, others, hq, -, hmeet, -, hm, -⟩ := hread.query
    obtain ⟨f, hf, hmatch⟩ :=
      AccessPath.mem_meetings.1 (hmeet ▸ (.head _) : (p'.position, m) ∈ path.meetings q)
    obtain ⟨op, hcall⟩ := hread.conjunct
    rw [hpp.conjunct_eq]
    rw [hpp.widened_eq] at hwidened
    exact .inl ⟨op, p'.any, left, p'.operand, q, f, m, _, hcall.imp And.left And.left,
      hread.independent, hq, mem_of_getElem? hf, hmatch, hm.trans hwidened⟩
  · exact .inr (h.mem_indexFilters.1 hc).2.2.2

/-- Index entries hold no restricted path. -/
theorem isResident_unrestricted (h : isResident t path q) :
    ∀ n ∈ q.steps, n.step.isRestricted = false := by
  rw [isResident, Bool.or_eq_true] at h
  rcases h with h | h
  · split at h
    · next heq =>
      intro n hn
      rw [heq, mem_singleton] at hn
      rw [hn]
      rfl
    · cases h
  · obtain ⟨f, -, hholds⟩ := any_eq_true.1 h
    rw [AccessPath.AccessField.holds, Bool.and_eq_true] at hholds
    rw [QueryPath.isExactly, Option.any_eq_true] at hholds
    obtain ⟨m, hm, hexact⟩ := hholds.2
    rw [PathMatch.isExact, Bool.and_eq_true, Bool.not_eq_true'] at hexact
    exact (matchSteps_unrestricted hm hexact.1).2

end Analysis

/-! ## What is local -/

theorem Expr.isScan_of_isLocal (he : e.isLocal) : e.isScan = false := by
  cases e <;> first | rfl | cases he

theorem Expr.isLocal_of_isRowFree (he : e.isRowFree) : e.isLocal := by
  cases e <;> first | rfl | cases he

namespace Graph

variable {id base : NodeId}

theorem isLocal_of_navigation? (hnav : (g.navigation? id).isSome) : (g.expr id).isLocal := by
  unfold navigation? at hnav
  cases hexpr : g.expr id <;> rw [hexpr] at hnav <;> first | rfl | cases hnav

variable (hg : g.Sound) (hlt : id < g.size)
include hg hlt

theorem Sound.isLocal_of_forall
    (h : ∀ v, Relation.ReflTransGen g.IsChild id v → (g.expr v).isLocal) : g.IsLocal id := by
  intro v hv
  refine ⟨?_, h v hv⟩
  induction hv with
  | refl => exact hlt
  | tail hv hc _ => exact hg.children_lt (Expr.isScan_of_isLocal (h _ hv)) hc

theorem Sound.isLocal_of_isRowFree (hfree : g.IsRowFree id) : g.IsLocal id :=
  hg.isLocal_of_forall hlt fun v hv => Expr.isLocal_of_isRowFree (hfree v hv)

theorem Sound.isLocal_of_climbs {steps : List Navigation} {x : Variable}
    (h : g.Climbs base id steps) (hsteps : ∀ n ∈ steps, n.step.isRestricted = false)
    (hx : g.expr base = .var x) : g.IsLocal id := by
  refine hg.isLocal_of_forall hlt fun v hv => ?_
  rcases h.reached hsteps (children_of_var hx) hv with rfl | hnav
  · rw [hx]
    rfl
  · exact isLocal_of_navigation? hnav

theorem Sound.isLocal_of_queryPath? (hq : g.queryPath? rowVar id = some q)
    (hsteps : ∀ n ∈ q.steps, n.step.isRestricted = false) : g.IsLocal id := by
  obtain ⟨x, hx, ⟨-, hclimbs⟩ | ⟨u, y, d, taken, rest, -, -, hu, -, -, -, hclimbs, -, hall⟩⟩ :=
    climbs_of_queryPath? hq
  · exact hg.isLocal_of_climbs hlt hclimbs hsteps hx
  · exact hg.isLocal_of_climbs hlt hclimbs
      (fun n hn => hsteps n (hall ▸ mem_append_right _ hn)) hu

/-- What can be evaluated on index entries is local. -/
theorem Sound.isLocal_of_evaluableWithin {d : Nat}
    (h : Analysis.evaluableWithin g t path rowVar d id) : g.IsLocal id := by
  induction d generalizing id with
  | zero => cases h
  | succ d ih =>
    rw [Analysis.evaluableWithin] at h
    split at h
    · next q hq =>
      rw [Bool.and_eq_true] at h
      exact hg.isLocal_of_queryPath? hlt hq (Analysis.isResident_unrestricted h.2)
    · split at h
      · next x hx =>
        refine isLocal_of_children hlt (by rw [hx]; rfl) fun c hc => ?_
        rw [children_of_var hx] at hc
        cases hc
      · cases h
      · cases h
      · cases h
      · next hvar hblock hscan hreceive =>
        have hlocal : (g.expr id).isLocal := by
          cases hexpr : g.expr id <;> first
            | rfl | exact absurd hexpr (hblock _) | exact absurd hexpr (hscan _)
            | exact absurd hexpr (hreceive _)
        refine isLocal_of_children hlt hlocal fun c hc => ?_
        exact ih (hg.children_lt (Expr.isScan_of_isLocal hlocal) hc) (all_eq_true.1 h c hc)

end Graph

/-! ## Putting an analysis to work -/

namespace Graph

theorem Thins.keepsLocal (hthin : g.Thins h) (hsize : g.size ≤ h.size) : g.KeepsLocal h := by
  refine ⟨hsize, fun v hv => ?_⟩
  have hlocal := hv.isLocal
  have hblock : (g.expr v).isBlock = false := by
    cases hexpr : g.expr v <;> rw [hexpr] at hlocal <;> first | rfl | cases hlocal
  refine (hthin v hv.lt_size hblock (Expr.isScan_of_isLocal hlocal)).imp_right fun ⟨_, hexpr⟩ => ?_
  rw [children, hexpr]
  exact ⟨rfl, rfl⟩

theorem Keeps.keepsLocal {C : Expr → Prop} (hk : Keeps C g h)
    (hC : ∀ e : Expr, e.isBlock = false → e.isScan = false → C e) : g.KeepsLocal h :=
  (hk.thins hC).keepsLocal hk.size_le

end Graph

namespace Analysis

variable {scan : NodeId}

theorem keepsLocal_grownGraph (a : Analysis) (g : Graph) : g.KeepsLocal (a.grownGraph g) :=
  (a.keeps_grownGraph g).keepsLocal fun _ _ _ => trivial

theorem keepsLocal_apply (a : Analysis) (g : Graph) (t : Table) (site : Site) (scan : NodeId) :
    (a.grownGraph g).KeepsLocal (a.apply g t site scan) := by
  have hr : Rewrites site.block scan _ _ := a.rewrites_apply g t site
  exact hr.thins.keepsLocal hr.size_le

section
variable (hg : g.Sound) (hs : g.ScansLocally)
include hg hs

theorem isLocal_of_isRowIndependent (hlt : operand < g.size) (h : g.isRowIndependent operand) :
    g.IsLocal operand :=
  hg.isLocal_of_isRowFree hlt (isRowFree_of_isRowIndependent (hs.acyclicBelow hg operand) h)

theorem isLocal_of_comparesAt {pos : Nat} (h : site.ComparesAt g path pos operand) :
    g.IsLocal operand := by
  obtain ⟨c, -, op, any, left, hcall, hfree, -⟩ := h
  refine isLocal_of_isRowIndependent hg hs ?_ hfree
  rcases hcall with hcall | hcall <;>
    exact hg.children_lt (p := c) (by rw [hcall]; rfl) (by rw [children, hcall]; simp [Expr.children])

/-- What filters index entries is local. -/
theorem IsFound.isLocal_filter (hfound : a.IsFound g t w site path) (hc : c ∈ a.filterConjuncts) :
    g.IsLocal c := by
  obtain ⟨rank, ho⟩ := hg.ordered
  have hlt : c < g.size := (ho.rank_conjunct (hfound.filterConjuncts_subset c hc)).2
  rcases hfound.filter_cases hc with
    ⟨op, any, left, operand, q, f, m, allowKey, hcall, hfree, hq, -, hm, hwidened⟩ | heval
  · have hargs : g.IsLocal left ∧ g.IsLocal operand := by
      have hlt {v : NodeId} (hv : v ∈ g.children c) : v < g.size := by
        refine hg.children_lt ?_ hv
        rcases hcall with hcall | hcall <;> rw [hcall] <;> rfl
      have hmem : left ∈ g.children c ∧ operand ∈ g.children c := by
        rcases hcall with hcall | hcall <;> rw [children, hcall] <;> simp [Expr.children]
      exact ⟨hg.isLocal_of_queryPath? (hlt hmem.1) hq (matchSteps_unrestricted hm hwidened).2,
        isLocal_of_isRowIndependent hg hs (hlt hmem.2) hfree⟩
    rcases hcall with hcall | hcall <;>
    · refine isLocal_of_children hlt (by rw [hcall]; rfl) fun v hv => ?_
      rw [children, hcall] at hv
      simp only [Expr.children, mem_cons, not_mem_nil, or_false] at hv
      rcases hv with rfl | rfl
      · first | exact hargs.1 | exact hargs.2
      · first | exact hargs.2 | exact hargs.1
  · exact hg.isLocal_of_evaluableWithin hlt heval

/-- All that the scan comes to use is local. -/
theorem IsFound.isLocal_slot (hfound : a.IsFound g t w site path)
    (hc : c ∈ (Expr.scan (s.accessed a t (a.keyNodes g).1
      ((a.keyedGraph g).addCondition a.filterConjuncts).1)).children) :
    (a.grownGraph g).IsLocal c := by
  have hgrown := a.keepsLocal_grownGraph g
  have hkeep : (a.keyedGraph g).Keeps (fun _ => True) (a.grownGraph g) := .addCondition _ _ _
  simp only [TableScan.accessed, Expr.children, mem_append, Option.mem_toList] at hc
  rcases hc with (hc | hc) | hc
  · obtain ⟨k, hk, hkey⟩ := exists_of_forall₂ (isKey_nodes a.bounds.keys g) hc
    obtain ⟨i, hi⟩ := getElem?_of_mem hk
    rcases hfound.key_comes_from hi with ⟨p, rfl, hcompares⟩ | ⟨key, rfl, -⟩
    · rw [show c = p.operand from hkey]
      exact hgrown.isLocal (isLocal_of_comparesAt hg hs hcompares)
    · have hlit : (a.grownGraph g).expr c = .literal (.string (a.mapKey.getD "")) :=
        hkey.keep hkeep fun _ => trivial
      refine isLocal_of_children (lt_size_of_expr (by simp [hlit]))
        (by rw [hlit]; rfl) fun v hv => ?_
      rw [children, hlit] at hv
      cases hv
  · cases hr : a.bounds.range with
    | none => simp [hr] at hc
    | some r =>
      simp only [hr, Option.map_some, Option.getD_some] at hc
      exact hgrown.isLocal (isLocal_of_comparesAt hg hs ((hfound.range_comes_from hr).2 c hc))
  · have hfilter (d : NodeId) (hd : d ∈ a.filterConjuncts) : (a.grownGraph g).IsLocal d :=
      hgrown.isLocal (hfound.isLocal_filter hg hs hd)
    rcases addCondition_spec hc with hsingle | ⟨-, hlt, hcall⟩
    · exact hfilter c (hsingle ▸ mem_singleton_self c)
    · refine isLocal_of_children hlt ?_ fun d hd => hfilter d ?_
      · rw [grownGraph, hcall]
        rfl
      · rwa [children, grownGraph, hcall] at hd

/-- Whatever becomes of the order of the block, all scans have local slots. -/
theorem IsFound.scansLocally_carryOut {b : Block} (hfound : a.IsFound g t w ⟨block, rowVar⟩ path)
    (hb : g.block? block = some b) (hscan : g.scan? scan = some s) (sort : SortUse) :
    (Selection.carryOut g block (.access t ⟨block, rowVar⟩ scan a sort)).ScansLocally := by
  have hr : Rewrites block scan (a.grownGraph g) _ :=
    Selection.rewrites_carryOut rowVar a t sort
  have hkeep := hr.thins.keepsLocal hr.size_le
  have hb₀ : g.block? (Site.mk block rowVar).block = some b := hb
  obtain ⟨entries, hb', -⟩ := a.block?_apply t scan hb₀
  obtain ⟨-, reverse, hs'⟩ := Selection.carryOut_access hb' (a.scan?_apply t hscan) sort
  refine hs.edit ((a.keepsLocal_grownGraph g).trans hkeep) fun v s' hv c hc => ?_
  by_cases hne : v = scan
  · rw [hne, hs'] at hv
    cases hv
    exact .inl (hkeep.isLocal (hfound.isLocal_slot hg hs (s := s) hc))
  · have hexpr := scan?_eq_some.1 hv
    refine .inr ⟨s', ?_, hc⟩
    rw [scan?_eq_some, ← hexpr]
    exact (((a.rewrites_grownGraph g).trans hr).expr_eq_of_givesRows (by rw [hexpr]; rfl)
      (by simp [hexpr, Expr.isBlock]) fun h => hne h.1).symm

end

end Analysis

/-! ## Carrying out -/

namespace Graph.ScansLocally

variable (hs : g.ScansLocally)
include hs

theorem of_sameExprs (he : SameExprs g h) : h.ScansLocally := by
  refine hs.editOthers he.keepsLocal fun v s hv => ?_
  rwa [scan?_eq_some, ← he.expr_eq, ← scan?_eq_some]

theorem redirect_eq_self {v old new : NodeId} (hv : g.expr v = .scan s)
    (hold : (g.expr old).isLocal = false) :
    (g.expr v).mapChildren (redirect old new) = g.expr v := by
  refine Expr.mapChildren_eq_self fun c hc => if_neg ?_
  rintro rfl
  rw [hv] at hc
  rw [(hs v s (scan?_eq_some.2 hv) c hc).isLocal] at hold
  cases hold

/-- An edit that adds no scans, and leaves alone what does not use a given node that is not local. -/
theorem redirects {E : NodeId → Prop} (old new : NodeId) (hnames : KeepsNames E g h)
    (hold : (g.expr old).isLocal = false)
    (hexpr : ∀ v, v < g.size → (g.expr v).mapChildren (redirect old new) = g.expr v →
      ((g.expr v).isLocal ∨ (g.expr v).isScan) → (∀ c ∈ g.children v, c < g.size) →
      h.expr v = g.expr v) : h.ScansLocally := by
  refine hs.editOthers ⟨hnames.size_le, fun v hv => .inl ?_⟩ fun v s hv => ?_
  · exact hexpr v hv.lt_size (hv.redirect_eq_self hold) (.inl hv.isLocal)
      fun c hc => (hv.child hc).lt_size
  · have htable := hnames.table_eq v
    rw [scan?_eq_some.1 hv] at htable
    obtain ⟨s', hs', -⟩ := Expr.table?_eq_some.1 htable.symm
    have hself := hexpr v (lt_size_of_expr (by simp [hs'])) (hs.redirect_eq_self hs' hold)
      (.inr (by rw [hs']; rfl)) fun c hc => by
        rw [children, hs'] at hc
        exact (hs v s' (scan?_eq_some.2 hs') c hc).lt_size
    rwa [scan?_eq_some, ← hself, ← scan?_eq_some]

theorem makeEmpty (hlt : block < g.size) (hblock : (g.expr block).isLocal = false) :
    (Selection.makeEmpty g block).ScansLocally := by
  refine hs.redirects block g.size (E := fun _ => False) (.makeEmpty hlt) hblock
    fun v hv hself _ _ => ?_
  rw [Selection.expr_makeEmpty hlt, hself, ite_self]

end Graph.ScansLocally

/-- Whatever is decided for a block, scans use what is local. -/
theorem Selection.scansLocally_select {c : Catalog} {o : Options} (hg : g.Sound)
    (hs : g.ScansLocally) (hselect : select c o g block = .ok h) : h.ScansLocally := by
  obtain ⟨sel, hdecide, rfl⟩ := select_eq_ok.1 hselect
  rcases decide_cases hdecide with rfl | ⟨b, e, s, t, hb, -, hscan, -, hcase⟩
  · exact hs
  · have hexpr := block?_eq_some.1 hb
    rcases hcase with rfl | ⟨path, a, sort, hrun, -, -, rfl⟩
    · exact hs.makeEmpty (lt_size_of_expr (by simp [hexpr])) (by rw [hexpr]; rfl)
    · exact (Analysis.isFound_of_run hrun).scansLocally_carryOut hg hs hb hscan sort

end ShardedQuery
