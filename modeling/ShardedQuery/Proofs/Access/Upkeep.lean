import ShardedQuery.Proofs.Access.KeyShape
import ShardedQuery.Proofs.Access.Ranking
import ShardedQuery.Proofs.Graph.Empty

/-!
# Well-typed graphs through access paths

Choosing an access path for a block keeps the graph well-typed.
-/

namespace ShardedQuery

open List Analysis

variable {g h : Graph} {block scan : NodeId} {S : NodeId → Prop} {b : Block} {path : AccessPath}
  {a : Analysis} {site : Site} {t : Table} {cs : List NodeId} {s : TableScan}

open ShardedQuery.Graph

namespace Graph

/-! ## The WHERE clause -/

section
/-- Without its WHERE clause a block is known to its other slots. -/
theorem Linked.withoutCondition (hg : g.Linked) (hb : g.block? block = some b) :
    (g.withoutCondition block).LinkedAs block
      (Expr.block { b with condition := none }).children := by
  have hall := hg.linkedAs_block hb
  have hold {old : NodeId} (hold : (g.block? block).bind (·.condition) = some old) :
      (g.unlink block old).LinkedAs block (Expr.block { b with condition := none }).children := by
    rw [hb, Option.bind_some] at hold
    refine LinkedAs.unlink (hall.mono fun c => ?_)
    simp only [Expr.children, hold, Option.toList_none, Option.toList_some, count_cons,
      count_append, count_nil]
    omega
  rcases g.withoutCondition_cases block with
    ⟨-, ⟨hnone, h⟩ | ⟨old, hcond, h⟩⟩ | ⟨old, args, happart, hcall, h⟩
  · rw [hb, Option.bind_some] at hnone
    rw [h]
    refine hall.mono fun c => ?_
    simp [Expr.children, hnone]
  · exact h ▸ hold hcond
  · exact h ▸ (hold happart.1).dissolve hcall

theorem children_withoutCondition_lt (hg : g.Sound) {q c : NodeId}
    (hq : ((g.withoutCondition block).expr q).isScan = false)
    (hc : c ∈ (g.withoutCondition block).children q) :
    c < (g.withoutCondition block).size := by
  rw [expr_withoutCondition] at hq
  rw [children, expr_withoutCondition] at hc
  rw [size_withoutCondition]
  split at hc
  · cases hc
  · next hnot => exact hg.children_lt (by rwa [if_neg hnot] at hq) hc

theorem isPlain_conjunction (hcs : ∀ c ∈ cs, c < g.size) : g.IsPlain (.call .and cs) :=
  ⟨hcs, rfl, fun x hx => (by cases hx), fun b hb => (by cases hb)⟩

variable (hg : g.Sound) (hb : g.block? block = some b) (hcs : ∀ c ∈ cs, c ∈ g.conjuncts block)
include hg hb hcs

omit hb in
theorem conjuncts_lt_withoutCondition : ∀ c ∈ cs, c < (g.withoutCondition block).size := by
  obtain ⟨rank, ho⟩ := hg.ordered
  intro c hc
  rw [size_withoutCondition]
  exact (ho.rank_conjunct (hcs c hc)).2

theorem linkedAs_withCondition : (g.withCondition block cs).LinkedAs block
    (Expr.block { b with condition := none }).children := by
  have hlinked := hg.toLinked.withoutCondition hb
  rcases addCondition_cases (g.withoutCondition block) cs with ⟨-, h, -⟩ | ⟨-, h⟩
  · rwa [withCondition, h]
  · rw [withCondition, h]
    refine hlinked.add (conjuncts_lt_withoutCondition hg hcs)
      (fun q _ hq c hc => children_withoutCondition_lt hg hq hc) ?_ fun c hc => ?_
    · rw [size_withoutCondition]
      exact (lt_size_of_block? hb).ne
    · rw [size_withoutCondition]
      refine hg.children_lt (isScan_of_block? hb) ?_
      rw [children_of_block? hb]
      simp only [Expr.children, Option.toList_none, mem_append] at hc ⊢
      tauto

theorem linked_reconditioned : (g.reconditioned block cs).Linked := by
  have hlinked := linkedAs_withCondition hg hb hcs
  have hblock := block?_linkedCondition hb cs
  have hexpr : (g.withCondition block cs).expr block = .block b :=
    ((g.sameExprs_linkedCondition block cs).expr_eq block).symm.trans (block?_eq_some.1 hblock)
  have hclaims : (g.linkedCondition block cs).LinkedAs block
      (Expr.block { b with condition := g.newCondition block cs }).children := by
    unfold linkedCondition
    cases hnew : g.newCondition block cs with
    | none => exact hlinked
    | some c =>
      refine (hlinked.link (c := c) (lt_size_of_expr (by rw [hexpr]; simp))
        (by rw [hexpr]; rfl)).mono fun d => ?_
      simp only [Expr.children, Option.toList_none, Option.toList_some, count_cons,
        count_append, count_nil]
      omega
  exact hclaims.linked_modifyBlock hblock fun _ => le_rfl

omit hg in
/-- A new WHERE clause over conjuncts of the old one is an edit of the clauses of the block. -/
theorem editsClauses_reconditioned : EditsClauses block (fun _ => False) g (g.reconditioned block cs) b
    { b with condition := g.newCondition block cs } := by
  refine
    { size_le := ?_
      before := hb
      after := block?_reconditioned hb cs
      star_eq := rfl
      select_eq := rfl
      head_eq := rfl
      expr := fun v hv hne => ?_
      type_eq := fun v _ => type?_reconditioned
      live := fun v hv hlive => ?_
      fresh := fun v hge hv => ?_
      entries := fun u _ => rfl
      entries_sub := Sublist.refl _
      vars := fun e _ => id
      gone := fun u hu => hu.elim
      mem_children := fun c hc => ?_ }
  · rw [size_reconditioned]
    split
    · exact Nat.le_succ _
    · exact le_rfl
  · rw [expr_reconditioned hne, if_neg fun h => hv.ne h.1]
    split
    · next happart => exact .inr ⟨happart.2, rfl⟩
    · exact .inl rfl
  · exact ((isLive_reconditioned.1 hlive).resolve_left fun h => hv.ne h.1).1
  · rw [size_reconditioned] at hv
    split at hv
    · next htwo =>
      obtain rfl := Nat.le_antisymm (Nat.le_of_lt_succ hv) hge
      have hne : g.size ≠ block := (lt_size_of_block? hb).ne'
      refine ⟨type?_reconditioned.trans (type?_of_size_le hge), cs, ?_, hcs⟩
      rw [expr_reconditioned hne, if_pos ⟨rfl, htwo⟩]
    · exact absurd hge (not_le.2 hv)
  · by_cases hnew : g.newCondition block cs = some c
    · right
      rcases newCondition_eq_some.1 hnew with hone | ⟨htwo, rfl⟩
      · exact .inl (hcs c (hone ▸ mem_singleton_self c))
      · rw [size_reconditioned, if_pos htwo]
        exact .inr ⟨le_rfl, Nat.lt_succ_self _⟩
    · left
      simp only [Expr.children, mem_append, Option.mem_toList] at hc ⊢
      tauto

/-- Only a conjunction dies, which declares nothing. -/
theorem scoped_reconditioned : (g.reconditioned block cs).Scoped := by
  have hedits := editsClauses_reconditioned hb hcs
  refine hedits.reforms.scoped hg.toScoped (fun _ hscan _ => hg.children_lt hscan) hedits.live
    (fun p hp hmem => isLive_reconditioned.2 (.inr ⟨hp, fun happart => hmem ?_⟩)) fun _ hu => hu.elim
  obtain ⟨args, hargs⟩ := Expr.exists_of_isConjunction happart.2
  rw [hargs]
  rfl

omit hg in
/-- A new WHERE clause over conjuncts of the old one keeps a graph well-typed. -/
theorem WellTyped.setConjuncts (hw : g.WellTyped S) (hS : S block) :
    (g.setConjuncts block cs).WellTyped (grown S g (g.setConjuncts block cs)) := by
  have hedit := (editsClauses_reconditioned hb hcs).wellTyped hw hS
    (linked_reconditioned hw.toSound hb hcs) (scoped_reconditioned hw.toSound hb hcs)
  rw [Graph.setConjuncts]
  refine foldlRecOn (motive := fun k : Graph => k.WellTyped (grown S g k)) _ _ hedit
    fun k hk c _ => ?_
  split
  · exact hk
  · exact grown_congr (SameExprs.destroyIfUnused k c).size_eq ▸ hk.destroyIfUnused c

end

/-! ## The scan -/

theorem isFixed_of_constant {v : NodeId} (hconst : g.constantType? v ≠ none)
    (hvar : (g.expr v).isVar = false) : g.IsFixed v := by
  refine ⟨hconst, fun x hx => ?_⟩
  rw [hx] at hvar
  cases hvar

theorem WellTyped.addLiteral (hw : g.WellTyped S) (a : Value) :
    (g.addLiteral a).2.WellTyped (grown S g (g.addLiteral a).2) := by
  have hself : (g.addLiteral a).2.expr g.size = .literal a := expr_add_self ..
  refine hw.add ⟨fun c hc => (by cases hc), rfl, fun x hx => (by cases hx), fun b hb => (by cases hb)⟩
    (fun c hc => by cases hc) (isFixed_of_constant ?_ ?_)
  · rw [constantType?, ← Graph.addLiteral, hself]
    simp
  · rw [← Graph.addLiteral, hself]
    rfl

/-- The nodes of keys are operands or new constants. -/
theorem WellTyped.keyNodes {key : String} (ks : List KeySource) :
    ∀ {g : Graph} {S : NodeId → Prop}, g.WellTyped S →
    (∀ p, KeySource.predicate p ∈ ks → S p.operand) →
    (KeySource.nodes key g ks).2.WellTyped (grown S g (KeySource.nodes key g ks).2) ∧
      g.size ≤ (KeySource.nodes key g ks).2.size ∧
      ∀ id ∈ (KeySource.nodes key g ks).1, grown S g (KeySource.nodes key g ks).2 id := by
  induction ks with
  | nil =>
    intro g S hw _
    refine ⟨?_, le_rfl, fun id hid => by cases hid⟩
    rw [KeySource.nodes, grown_self]
    exact hw
  | cons k ks ih =>
    intro g S hw hS
    cases k with
    | predicate p =>
      obtain ⟨hwell, hsize, hids⟩ := ih hw fun q hq => hS q (.tail _ hq)
      refine ⟨hwell, hsize, fun id hid => ?_⟩
      rcases mem_cons.1 hid with rfl | hid
      · exact .inl (hS p (.head _))
      · exact hids id hid
    | mapKey =>
      have hnew := hw.addLiteral (.string key)
      have hle : g.size ≤ (g.addLiteral (.string key)).2.size := by
        rw [Graph.addLiteral, size_add]
        exact Nat.le_succ _
      obtain ⟨hwell, hsize, hids⟩ := ih hnew fun q hq => .inl (hS q (.tail _ hq))
      rw [grown_grown hle hsize] at hwell hids
      refine ⟨hwell, hle.trans hsize, fun id hid => ?_⟩
      rcases mem_cons.1 hid with rfl | hid
      · refine .inr ⟨le_rfl, Nat.lt_of_lt_of_le ?_ hsize⟩
        rw [Graph.addLiteral, size_add]
        exact Nat.lt_succ_self _
      · exact hids id hid

/-- The node of a condition is one of the conditions or their conjunction. -/
theorem WellTyped.addCondition (hw : g.WellTyped S) (hcs : ∀ c ∈ cs, S c) :
    (g.addCondition cs).2.WellTyped (grown S g (g.addCondition cs).2) ∧
      g.size ≤ (g.addCondition cs).2.size ∧
      ∀ c, (g.addCondition cs).1 = some c → grown S g (g.addCondition cs).2 c := by
  rcases addCondition_cases g cs with ⟨-, h, hmem⟩ | ⟨-, h⟩
  · rw [h, grown_self]
    refine ⟨hw, le_rfl, fun c hc => hcs c ?_⟩
    rw [← hmem, hc]
    exact mem_singleton_self c
  · have hself : (g.add (.call .and cs)).2.expr g.size = .call .and cs := expr_add_self ..
    rw [h, size_add]
    refine ⟨hw.add (isPlain_conjunction fun c hc => hw.inside c (hcs c hc)) hcs
      (isFixed_of_constant ?_ ?_), Nat.le_succ _, fun c hc => ?_⟩
    · rw [constantType?, hself]
      simp [Function.isBoolean]
    · rw [hself]
      rfl
    · cases hc
      exact .inr ⟨le_rfl, by rw [size_add]; exact Nat.lt_succ_self _⟩

/-- The nodes in the slots of a node get to know it. -/
theorem WellTyped.linkAll {p : NodeId} (cs : List NodeId) : ∀ {g : Graph}, g.WellTyped S →
    p < g.size → (g.expr p).isLeaf = false →
    (cs.foldl (fun k c => k.link p c) g).WellTyped S := by
  induction cs with
  | nil => exact fun hw _ _ => hw
  | cons c cs ih =>
    intro g hw hp hleaf
    have hs := SameExprs.link g p c
    exact ih (hw.relink hs (fun v => type?_link p c) (fun v => isLive_link p c)
      (hw.toLinked.link hp hleaf)) (hs.size_eq ▸ hp) (by rw [hs.expr_eq]; exact hleaf)

/-- A change of a scan whose slots hold nodes of `S`. -/
theorem WellTyped.modifyScan {f : TableScan → TableScan}
    (hw : g.WellTyped S) (hs : g.scan? scan = some s) (htype : (f s).rowType = s.rowType)
    (hslots : S scan → ∀ c ∈ (Expr.scan (f s)).children, S c) :
    (g.modifyScan scan f).WellTyped S := by
  have hexpr := scan?_eq_some.1 hs
  have hlt : scan < g.size := lt_size_of_expr (by rw [hexpr]; simp)
  have hretouch : Retouches g (g.modifyScan scan f) := by
    refine .modifyExpr ?_
    rw [hexpr]
    exact .scan htype
  refine hretouch.wellTyped hw fun v s' hv hs' c hc => ?_
  rw [scan?_eq_some, Graph.modifyScan, expr_modifyExpr] at hs'
  split at hs'
  · next hvs =>
    rw [hvs.1, hexpr] at hs'
    cases hs'
    exact hslots (hvs.1 ▸ hv) c hc
  · exact hw.closed v hv c (.inl (by rw [children, hs']; exact hc))

theorem WellTyped.setAccess (hw : g.WellTyped S)
    (hs : g.scan? scan = some s) (a : Analysis) (t : Table) {keys : List NodeId}
    {filter : Option NodeId}
    (hslots : ∀ c ∈ (Expr.scan (s.accessed a t keys filter)).children, S c) :
    (g.setAccess scan a t keys filter).WellTyped S := by
  have hexpr := scan?_eq_some.1 hs
  have hlt : scan < g.size := lt_size_of_expr (by rw [hexpr]; simp)
  have hmodified := hw.modifyScan (f := (·.accessed a t keys filter)) hs rfl fun _ => hslots
  refine hmodified.linkAll _ ?_ ?_
  · rwa [Graph.modifyScan, modifyExpr, size_modify]
  · rw [Graph.modifyScan, expr_modifyExpr, if_pos ⟨rfl, hlt⟩, hexpr]
    rfl

/-! ## Order -/

/-- Slots that a block has no more are given up, with what nothing uses then. -/
theorem WellTyped.releaseAll (cs : List NodeId) : ∀ {g : Graph}, g.WellTyped S →
    g.LinkedAs block (cs ++ g.children block) →
    (cs.foldl (fun k c => (k.unlink block c).destroyIfUnused c) g).WellTyped S := by
  induction cs with
  | nil => exact fun hw _ => hw
  | cons c cs ih =>
    intro g hw hlinked
    have hs := SameExprs.unlink g block c
    have hr : Removes (g.unlink block c) _ := .destroyIfUnused c
    have hchildren : ((g.unlink block c).destroyIfUnused c).children block = g.children block := by
      rw [children, hr.expr_eq, hs.expr_eq, children]
    have hunlinked : (g.unlink block c).LinkedAs block (cs ++ g.children block) := hlinked.unlink
    refine ih ((hw.relink hs (fun v => type?_unlink block c) (fun v => isLive_unlink block c)
      (hunlinked.linked fun _ d => ?_)).destroyIfUnused c) (hchildren ▸ hr.linkedAs hunlinked)
    rw [children, hs.expr_eq, count_append]
    exact Nat.le_add_left _ _

/-- A block may lose slots, if it selects what it did. -/
theorem editsClauses_modifyBlock {f : Block → Block} (hb : g.block? block = some b)
    (hstar : (f b).star = b.star) (hselect : (f b).select = b.select)
    (hentries : (f b).entries = b.entries)
    (hchildren : ∀ c ∈ (Expr.block (f b)).children, c ∈ (Expr.block b).children) :
    EditsClauses block (fun _ => False) g (g.modifyBlock block f) b (f b) where
  size_le := Nat.le_of_eq (size_modify ..).symm
  before := hb
  after := block?_modifyBlock hb f
  star_eq := hstar
  select_eq := hselect
  head_eq := by rw [hentries]
  expr v _ hv := .inl (expr_modifyBlock_of_ne hv)
  type_eq v _ := type?_modifyExpr ..
  live v _ hv := by rwa [modifyBlock, isLive_modifyExpr] at hv
  fresh v hge hlt := by
    rw [modifyBlock, modifyExpr, size_modify] at hlt
    exact absurd hge (not_le.2 hlt)
  entries u _ := by rw [hentries]
  entries_sub := by rw [hentries]
  vars e _ := id
  gone u hu := hu.elim
  mem_children c hc := .inl (hchildren c hc)

theorem WellTyped.dropSort (hw : g.WellTyped S) (hS : S block) (hb : g.block? block = some b) :
    (Selection.dropSort g block).WellTyped S := by
  have hall := hw.toLinked.linkedAs_block hb
  let f : Block → Block := fun b => { b with sort := [], sortByIndex := false }
  have hcount (c : NodeId) : (b.sort.map (·.expr) ++ (Expr.block (f b)).children).count c =
      (Expr.block b).children.count c := by
    simp only [f, Expr.children, map_nil, count_append, count_nil]
    omega
  have hmodified : (g.modifyBlock block f).WellTyped S := by
    have hedits := editsClauses_modifyBlock (f := f) hb rfl rfl rfl fun c hc => by
      rw [← count_pos_iff, ← hcount, count_append]
      exact (count_pos_iff.2 hc).trans_le (Nat.le_add_left _ _)
    have hlinked : (g.modifyBlock block f).Linked := hall.linked_modifyBlock hb fun c => by
      rw [← hcount, count_append]
      exact Nat.le_add_left _ _
    have hscoped := hedits.reforms.scoped hw.toScoped
      (fun _ hscan _ => hw.toSound.children_lt hscan) hedits.live
      (fun p hp _ => (isLive_modifyExpr ..).trans hp) fun _ hu => hu.elim
    have hwell := hedits.wellTyped hw hS hlinked hscoped
    rwa [grown_congr (k := g.modifyBlock block f) (h := g) (size_modify ..), grown_self] at hwell
  unfold Selection.dropSort
  simp only [hb, Option.map_some, Option.getD_some]
  rw [← foldl_map (f := fun k : SortKey => k.expr)
    (g := fun k c => (unlink k block c).destroyIfUnused c)]
  refine hmodified.releaseAll _ ((hall.modifyBlock hb).mono fun c => ?_)
  rw [children_of_block? (block?_modifyBlock hb f), hcount]

theorem WellTyped.sortByIndex (hw : g.WellTyped S)
    (hb : g.block? block = some b) (hs : g.scan? scan = some s) (reverse : Bool) :
    (Selection.sortByIndex g block scan reverse).WellTyped S := by
  have hretouch : Retouches g (g.modifyBlock block fun b => { b with sortByIndex := true }) := by
    refine .modifyExpr ?_
    rw [block?_eq_some.1 hb]
    exact .block b true
  have hscan := scan?_modifyBlock (f := fun b => { b with sortByIndex := true }) hb
  have hblock := hretouch.wellTyped hw fun v s' hv hs' c hc => by
    rw [hscan] at hs'
    exact hw.closed v hv c (.inl (by rw [children, scan?_eq_some.1 hs']; exact hc))
  refine hblock.modifyScan ((hscan scan).trans hs) rfl fun hS c hc => ?_
  exact hw.closed scan hS c (.inl (by rw [children, scan?_eq_some.1 hs]; exact hc))

end Graph

/-! ## Putting an analysis to work -/

/-- An analysis changes the WHERE clause of a block and drops FROM entries, but not the first one. -/
theorem Analysis.block?_apply (a : Analysis) (t : Table) (scan : NodeId)
    (hb : g.block? site.block = some b) :
    ∃ entries, (a.apply g t site scan).block? site.block =
        some { b with
          entries := entries
          condition := (a.accessGraph g t scan).newCondition site.block
            (a.remaining (a.accessGraph g t scan) site) } ∧
      entries.head? = b.entries.head? ∧ entries.Sublist b.entries := by
  obtain ⟨entries, hblock, hhead⟩ :=
    block?_dropUnused (a.block?_remainingGraph t scan hb) a.absorbed
  rw [← apply] at hblock
  exact ⟨entries, hblock, hhead⟩

namespace Analysis

variable {w : Weights}

theorem mem_of_comparesAt (hw : g.WellTyped S) (hS : S site.block) {pos : Nat} {operand : NodeId}
    (h : site.ComparesAt g path pos operand) : S operand := by
  obtain ⟨c, hc, hchild⟩ := h.exists_isChild
  exact hw.closed c (hw.conjunct hS hc) operand (.inl hchild)

section
variable (hfound : a.IsFound g t w site path) (hw : g.WellTyped S) (hS : S site.block)
include hfound hw hS

/-- The scan gets its keys, range and filter. -/
theorem wellTyped_accessGraph (hs : g.scan? scan = some s) :
    (a.accessGraph g t scan).WellTyped (grown S g (a.accessGraph g t scan)) ∧
      g.size ≤ (a.accessGraph g t scan).size := by
  obtain ⟨hkeyed, hsize₁, hkeys⟩ := hw.keyNodes a.bounds.keys fun p hp => by
    obtain ⟨i, hi⟩ := mem_iff_getElem?.1 hp
    rcases hfound.key_comes_from hi with ⟨q, hq, hcompares⟩ | ⟨key, hkey, -⟩
    · cases hq
      exact mem_of_comparesAt hw hS hcompares
    · cases hkey
  obtain ⟨hgrown, hsize₂, hfilter⟩ := hkeyed.addCondition
    fun c (hc : c ∈ a.filterConjuncts) => .inl (hw.conjunct hS (hfound.filterConjuncts_subset c hc))
  rw [grown_grown hsize₁ hsize₂] at hgrown hfilter
  have hs' : (a.grownGraph g).scan? scan = some s := by
    have hexpr := scan?_eq_some.1 hs
    rw [scan?_eq_some, (a.keeps_grownGraph g).expr_eq scan
      (lt_size_of_expr (by rw [hexpr]; simp)) trivial, hexpr]
  have hsize : (a.accessGraph g t scan).size = (a.grownGraph g).size := by
    rw [accessGraph, (sameExprs_setAccess ..).size_eq, modifyScan, modifyExpr,
      size_modify]
  rw [grown_congr hsize, hsize]
  refine ⟨hgrown.setAccess hs' a t fun c hc => ?_, hsize₁.trans hsize₂⟩
  simp only [Expr.children, TableScan.accessed, mem_append, Option.mem_toList] at hc
  rcases hc with (hc | hc) | hc
  · exact (hkeys c hc).imp_right fun hnew => ⟨hnew.1, hnew.2.trans_le hsize₂⟩
  · cases hr : a.bounds.range with
    | none =>
      rw [hr] at hc
      cases hc
    | some r =>
      rw [hr] at hc
      exact .inl (mem_of_comparesAt hw hS ((hfound.range_comes_from hr).2 c hc))
  · exact hfilter c hc

/-- The WHERE clause of the block gets the conjuncts that remain. -/
theorem wellTyped_remaining (hb : g.block? site.block = some b) (hs : g.scan? scan = some s) :
    (a.remainingGraph g t site scan).WellTyped (grown S g (a.remainingGraph g t site scan)) ∧
      g.size ≤ (a.remainingGraph g t site scan).size := by
  obtain ⟨haccess, hsize⟩ := wellTyped_accessGraph (t := t) hfound hw hS hs
  have hclause := haccess.setConjuncts (a.block?_accessGraph t scan hb)
    (fun c (hc : c ∈ a.remaining (a.accessGraph g t scan) site) => (mem_filter.1 hc).1) (.inl hS)
  have hsize' := (Keeps.setConjuncts (a.accessGraph g t scan) site.block
    (a.remaining (a.accessGraph g t scan) site)).size_le
  rw [grown_grown hsize hsize'] at hclause
  exact ⟨hclause, hsize.trans hsize'⟩

theorem wellTyped_apply (hb : g.block? site.block = some b) (hs : g.scan? scan = some s) :
    (a.apply g t site scan).WellTyped (grown S g (a.apply g t site scan)) ∧
      g.size ≤ (a.apply g t site scan).size := by
  obtain ⟨hclause, hsize⟩ := wellTyped_remaining (t := t) hfound hw hS hb hs
  have hdrop := hclause.dropUnused (.inl hS) (a.block?_remainingGraph t scan hb) a.absorbed
  have hsame : (a.apply g t site scan).size = (a.remainingGraph g t site scan).size := by
    rw [apply, size_dropUnused]
  rw [grown_congr hsame, hsame, apply]
  exact ⟨hdrop, hsize⟩

end

end Analysis

/-! ## Decisions -/

namespace AccessPath

theorem eq_primary_of_mem_all (h : path ∈ all t) (hprimary : path.isPrimary) :
    path = .primary t := by
  rcases mem_cons.1 h with rfl | h
  · rfl
  · obtain ⟨i, -, rfl⟩ := mem_map.1 h
    cases hprimary

theorem ofIndex_mem_all (t : Table) (target : HintTarget) :
    ofIndex t (target.indexName?.bind t.index?) ∈ all t := by
  cases hi : target.indexName?.bind t.index? with
  | none => exact .head _
  | some i =>
    obtain ⟨name, -, hname⟩ := Option.bind_eq_some_iff.1 hi
    exact mem_cons_of_mem _ (mem_map_of_mem (mem_of_find?_eq_some hname))

end AccessPath

namespace Selection

variable {c : Catalog} {o : Options} {sort : SortUse} {sel : Selection}

theorem exists_run_of_analyseAll {ps : List AccessPath} {as : List Analysis}
    (h : analyseAll g t o site ps = .ok (some as)) (ha : a ∈ as) :
    ∃ path ∈ ps, run g t o.weights site path = .ok (some a) := by
  induction ps generalizing as with
  | nil =>
    cases h
    cases ha
  | cons p ps ih =>
    obtain ⟨found, hrun, h⟩ := ok_of_bind h
    cases found with
    | none => cases h
    | some first =>
      obtain ⟨rest, hrest, h⟩ := ok_of_bind h
      cases rest with
      | none => cases h
      | some rest =>
        cases h
        rcases mem_cons.1 ha with rfl | ha
        · exact ⟨p, .head _, hrun⟩
        · obtain ⟨path, hpath, hrun⟩ := ih hrest ha
          exact ⟨path, .tail _ hpath, hrun⟩

/-- The sort of a block is left to a scan only if the access path delivers the order. -/
def DeliversUse (g : Graph) (site : Site) (path : AccessPath) (sort : SortUse) : Prop :=
  ∀ reverse, sort = .byIndex reverse → deliversOrder? g site path = some reverse

/-- The block selects nothing, or its scan goes through an access path that was analysed. -/
def IsAnalysed (g : Graph) (t : Table) (o : Options) (site : Site) (scan : NodeId)
    (sel : Selection) : Prop :=
  sel = .empty ∨ ∃ path a sort, run g t o.weights site path = .ok (some a) ∧
    path ∈ AccessPath.all t ∧ DeliversUse g site path sort ∧ sel = .access t site scan a sort

theorem isAnalysed_of_through (hpath : path ∈ AccessPath.all t)
    (hsort : DeliversUse g site path sort) (h : through g t o site scan path sort = .ok sel) :
    IsAnalysed g t o site scan sel := by
  obtain ⟨found, hrun, h⟩ := ok_of_bind h
  cases found with
  | none =>
    cases h
    exact .inl rfl
  | some a =>
    cases h
    exact .inr ⟨path, a, sort, hrun, hpath, hsort, rfl⟩

theorem isAnalysed_of_decideAccess {hints : List Hint} {primary : Analysis}
    {ordered : Option (AccessPath × Bool)}
    (hordered : ∀ p reverse, ordered = some (p, reverse) →
      p ∈ AccessPath.all t ∧ deliversOrder? g site p = some reverse)
    (hprimary : run g t o.weights site (.primary t) = .ok (some primary))
    (h : decideAccess g t o site scan hints primary ordered = .ok sel) :
    IsAnalysed g t o site scan sel := by
  have hfirst {sort : SortUse} (hsort : DeliversUse g site (.primary t) sort) :
      IsAnalysed g t o site scan (.access t site scan primary sort) :=
    .inr ⟨_, _, _, hprimary, .head _, hsort, rfl⟩
  have hkeep (path : AccessPath) : DeliversUse g site path .keep := fun _ h => by cases h
  unfold decideAccess at h
  split at h
  · cases h
    exact hfirst fun _ h => by cases h
  · split at h
    · next forced _ =>
      have hforced := AccessPath.ofIndex_mem_all t forced.target
      dsimp only at h
      split at h
      · cases ok_of_locateFailure h
      · exact isAnalysed_of_through hforced (hkeep _) h
      · next reverse _ hdelivers =>
        exact isAnalysed_of_through hforced (fun _ h => by cases h; exact hdelivers) h
    · split at h
      · split at h
        · next path reverse =>
          cases h
          obtain ⟨hpath, hdelivers⟩ := hordered path reverse rfl
          refine hfirst ?_
          split
          · next hprim =>
            rw [AccessPath.eq_primary_of_mem_all hpath hprim] at hdelivers
            exact fun _ h => by cases h; exact hdelivers
          · exact hkeep _
        · cases h
          exact hfirst (hkeep _)
      · split at h
        · next path reverse =>
          obtain ⟨hpath, hdelivers⟩ := hordered path reverse rfl
          exact isAnalysed_of_through hpath (fun _ h => by cases h; exact hdelivers) h
        · obtain ⟨all, hall, h⟩ := ok_of_bind h
          cases all with
          | none =>
            cases h
            exact .inl rfl
          | some others =>
            cases h
            rcases mem_cons.1 (best_mem primary others) with hbest | hbest
            · rw [hbest]
              exact hfirst (hkeep _)
            · obtain ⟨path, hpath, hrun⟩ := exists_run_of_analyseAll hall hbest
              exact .inr ⟨path, _, _, hrun, .tail _ hpath, hkeep _, rfl⟩

/-- A block that scans no table is left alone. -/
theorem decide_cases (h : Selection.decide g c o block = .ok sel) :
    sel = .leave ∨ ∃ b e s t, g.block? block = some b ∧ b.entries.head? = some e ∧
      g.scan? e.domain = some s ∧ c.table s.table = .ok t ∧
      IsAnalysed g t o ⟨block, e.var⟩ e.domain sel := by
  unfold Selection.decide at h
  split at h
  · cases h
    exact .inl rfl
  · next e he =>
    obtain ⟨b, hb, he⟩ := Option.bind_eq_some_iff.1 he
    split at h
    · cases h
      exact .inl rfl
    · next s hs =>
      obtain ⟨t, ht, h⟩ := ok_of_bind h
      refine .inr ⟨b, e, s, t, hb, he, hs, ok_of_locateFailure ht, ?_⟩
      obtain ⟨-, -, h⟩ := ok_of_bind h
      obtain ⟨mismatch, -, h⟩ := ok_of_bind h
      cases mismatch with
      | true =>
        cases h
        exact .inl rfl
      | false =>
        obtain ⟨found, hrun, h⟩ := ok_of_bind h
        cases found with
        | none =>
          cases h
          exact .inl rfl
        | some primary =>
          refine isAnalysed_of_decideAccess (fun p reverse hp => ?_) hrun h
          obtain ⟨path, hpath, hdelivers⟩ := exists_of_findSome?_eq_some hp
          obtain ⟨r, hr, heq⟩ := Option.map_eq_some_iff.1 hdelivers
          cases heq
          exact ⟨hpath, hr⟩

/-! ## Carrying out -/

theorem sameExprs_dropSort (g : Graph) (block : NodeId) :
    SameExprs (g.modifyBlock block fun b => { b with sort := [], sortByIndex := false })
      (dropSort g block) :=
  SameExprs.foldl (fun k (x : SortKey) =>
    (SameExprs.unlink k block x.expr).trans (SameExprs.destroyIfUnused _ x.expr)) _ _

theorem block?_dropSort (hb : g.block? block = some b) :
    (dropSort g block).block? block = some { b with sort := [], sortByIndex := false } := by
  have hmodified := block?_modifyBlock hb
    fun b => { b with sort := [], sortByIndex := false }
  rw [block?_eq_some] at hmodified ⊢
  exact ((sameExprs_dropSort g block).expr_eq block).trans hmodified

theorem scan?_dropSort (hs : g.scan? scan = some s) (block : NodeId) :
    (dropSort g block).scan? scan = some s := by
  rw [scan?_eq_some] at hs ⊢
  have hkept := (Keeps.modifyBlock (C := fun e => e.isBlock = false) g block
    (fun b => { b with sort := [], sortByIndex := false }) fun _ h => h).expr_eq scan
    (lt_size_of_expr (by simp [hs])) (by rw [hs]; rfl)
  exact ((sameExprs_dropSort g block).expr_eq scan).trans (hkept.trans hs)

theorem block?_sortByIndex (hb : g.block? block = some b) (scan : NodeId) (reverse : Bool) :
    (sortByIndex g block scan reverse).block? block = some { b with sortByIndex := true } := by
  have hblock := block?_eq_some.1 (block?_modifyBlock hb fun b => { b with sortByIndex := true })
  have hkeep := (Keeps.modifyScan (C := fun e => e.isScan = false)
    (g.modifyBlock block fun b => { b with sortByIndex := true }) scan
    (fun s => { s with reverse := reverse }) fun _ h => h).expr_eq block
    (lt_size_of_expr (by simp [hblock])) (by rw [hblock]; rfl)
  rw [block?_eq_some, sortByIndex]
  exact hkeep.trans hblock

theorem scan?_sortByIndex (hb : g.block? block = some b)
    (hs : g.scan? scan = some s) (reverse : Bool) :
    (sortByIndex g block scan reverse).scan? scan = some { s with reverse := reverse } := by
  have hs' := (scan?_modifyBlock (f := fun b => { b with sortByIndex := true }) hb scan).trans hs
  have he := scan?_eq_some.1 hs'
  rw [scan?_eq_some, sortByIndex, modifyScan, expr_modifyExpr,
    if_pos ⟨rfl, lt_size_of_expr (by simp [he])⟩, he]

/-- What becomes of the order of a block leaves its FROM entries and, its direction apart, its scan
alone. -/
theorem carryOut_access {rowVar : NodeId}
    (hb : (a.apply g t ⟨block, rowVar⟩ scan).block? block = some b)
    (hs : (a.apply g t ⟨block, rowVar⟩ scan).scan? scan = some s) (sort : SortUse) :
    (∃ b', (carryOut g block (.access t ⟨block, rowVar⟩ scan a sort)).block? block = some b' ∧
        b'.entries = b.entries) ∧
      ∃ reverse, (carryOut g block (.access t ⟨block, rowVar⟩ scan a sort)).scan? scan =
        some { s with reverse := reverse } := by
  cases sort with
  | keep => exact ⟨⟨b, hb, rfl⟩, s.reverse, hs⟩
  | drop => exact ⟨⟨_, block?_dropSort hb, rfl⟩, s.reverse, scan?_dropSort hs block⟩
  | byIndex reverse =>
    exact ⟨⟨_, block?_sortByIndex hb scan reverse, rfl⟩, reverse, scan?_sortByIndex hb hs reverse⟩

/-- Where the empty sequence takes the place of a block, the slots that held the block hold it. -/
theorem expr_makeEmpty (hlt : block < g.size) (v : NodeId) : (makeEmpty g block).expr v =
    if v ∈ g.parents block then (g.expr v).mapChildren (redirect block g.size)
    else g.expr v := by
  have hmake : makeEmpty g block = (g.add (.literal .empty)).2.replace block g.size true := rfl
  have hparents : (g.add (.literal .empty)).2.parents block = g.parents block := by
    rw [parents_add_of_lt _ hlt]
    simp [Expr.children]
  have hadd : (g.add (.literal .empty)).2.expr v = g.expr v := by
    rw [expr_add_eq]
    split
    · next hv => rw [hv, expr_of_size_le le_rfl]
    · rfl
  rcases Nat.lt_or_ge v (g.add (.literal .empty)).2.size with hv | hv
  · rw [hmake, expr_replace hlt.ne true hv, hparents, hadd]
  · have hsize : (makeEmpty g block).size = (g.add (.literal .empty)).2.size :=
      (size_replace_addLiteral hlt).trans (g.size_add _).symm
    rw [expr_of_size_le (hsize ▸ hv), ← hadd, expr_of_size_le hv]
    split <;> rfl

theorem useInPlace_eq (hfound : a.IsFound g t w site path) (hb : g.block? site.block = some b)
    (hdomain : b.firstDomain? = some scan) (hs : g.scan? scan = some s) (sort : SortUse) :
    useInPlace t site scan a sort g =
      (carryOut g site.block (.access t site scan a sort), .ok ()) := by
  have happly := applyInPlace_eq hb hdomain hs hfound.isSome_mapKey t
  cases sort <;> simp only [useInPlace, bind, happly] <;> rfl

/-- No decision about a block fails to be carried out: access paths are analysed for blocks that scan
a table, and the analyses have the keys that they are to bound the scan with. -/
theorem select_eq (c : Catalog) (o : Options) (g : Graph) (block : NodeId) :
    select c o g block = (Selection.decide g c o block).map (carryOut g block) := by
  rw [select]
  cases hdecide : Selection.decide g c o block with
  | error err => rfl
  | ok sel =>
    rcases decide_cases hdecide with
      rfl | ⟨b, e, s, t, hb, he, hs, -, rfl | ⟨path, a, sort, hrun, -, -, rfl⟩⟩
    · rfl
    · rfl
    · have hsite : g.block? (Site.mk block e.var).block = some b := hb
      have hdomain : b.firstDomain? = some e.domain := by simp [Block.firstDomain?, he]
      have huse := useInPlace_eq (isFound_of_run hrun) hsite hdomain hs sort
      simp only [bind, Except.bind, Work.outcome, huse]
      rfl

theorem select_eq_ok : select c o g block = .ok h ↔
    ∃ sel, Selection.decide g c o block = .ok sel ∧ carryOut g block sel = h := by
  rw [select_eq]
  cases Selection.decide g c o block with
  | error err => exact ⟨fun h => (by cases h), fun ⟨_, h, _⟩ => (by cases h)⟩
  | ok sel =>
    exact ⟨fun h => ⟨sel, rfl, Except.ok.inj h⟩, fun ⟨_, h, heq⟩ => by cases h; rw [← heq]; rfl⟩

/-- Whatever is decided for a block, the graph stays well-typed. -/
theorem wellTyped_select (hw : g.WellTyped S) (hS : S block) (hlive : g.isLive block)
    (hselect : select c o g block = .ok h) : h.WellTyped (grown S g h) ∧ g.size ≤ h.size := by
  obtain ⟨sel, hdecide, rfl⟩ := select_eq_ok.1 hselect
  rcases decide_cases hdecide with
    rfl | ⟨b, e, s, t, hb, he, hs, -, rfl | ⟨path, a, sort, hrun, -, -, rfl⟩⟩
  · rw [carryOut, grown_self]
    exact ⟨hw, le_rfl⟩
  · have hscan : (g.expr block).isScan = false := by
      rw [block?_eq_some.1 hb]
      rfl
    have hsize := size_replace_addLiteral (lt_size_of_isLive hlive)
    exact ⟨WellTyped.replace hw hlive hscan, (Nat.lt_of_lt_of_eq
      (Nat.lt_succ_self _) hsize.symm).le⟩
  · have hfound := isFound_of_run hrun
    obtain ⟨happly, hsize⟩ := wellTyped_apply (t := t) hfound hw hS hb hs
    let site : Site := ⟨block, e.var⟩
    have hsite : g.block? site.block = some b := hb
    obtain ⟨entries, hb', -⟩ := a.block?_apply t e.domain hsite
    have hs' : (a.apply g t site e.domain).scan? e.domain = _ := a.scan?_apply t hs
    cases sort with
    | keep => exact ⟨happly, hsize⟩
    | drop =>
      have hsame : (dropSort (a.apply g t ⟨block, e.var⟩ e.domain) block).size =
          (a.apply g t ⟨block, e.var⟩ e.domain).size := by
        rw [(sameExprs_dropSort _ block).size_eq, modifyBlock, modifyExpr,
          size_modify]
      rw [carryOut, grown_congr hsame, hsame]
      exact ⟨happly.dropSort (.inl hS) hb', hsize⟩
    | byIndex reverse =>
      have hsame : (sortByIndex (a.apply g t ⟨block, e.var⟩ e.domain) block e.domain reverse).size =
          (a.apply g t ⟨block, e.var⟩ e.domain).size := by
        simp only [sortByIndex, modifyScan, modifyBlock, modifyExpr,
          size_modify]
      rw [carryOut, grown_congr hsame, hsame]
      exact ⟨happly.sortByIndex hb' hs' reverse, hsize⟩

end Selection

end ShardedQuery
