import ShardedQuery.Proofs.Pushdown.Partition
import ShardedQuery.Proofs.Split.Locality

/-!
# Refreshing types ends

A filter that was handed to a scan mentions the variable that ranges over the scan, and so a change of
type can be carried around in a circle of dependents. But the type of a scan is that of its rows,
whatever is in its slots. Putting indexes to work and splitting blocks leaves the rest of the
dependencies in order (`Graph.IsReworked.sound`), whatever types are kept, and so the stack of a refresh
runs empty (`Graph.refresh_ends`).
-/

namespace ShardedQuery

open ShardedQuery.Graph

variable {g h : Graph} {block scan : NodeId} {b : Block} {s : TableScan} {a : Analysis} {t : Table}
  {site : Site} {cs : List NodeId} {c : Catalog}

namespace Graph

/-! ## The steps of a rewrite -/

theorem Sound.conjunct_lt {c : NodeId} (hg : g.Sound) (hc : c ∈ g.conjuncts block) : c < g.size := by
  obtain ⟨rank, ho⟩ := hg.ordered
  exact (ho.rank_conjunct hc).2

theorem Sound.keyNodes {key : String} (ks : List KeySource) : ∀ {g : Graph}, g.Sound →
    (KeySource.nodes key g ks).2.Sound := by
  induction ks with
  | nil => exact fun hg => hg
  | cons k ks ih =>
    intro g hg
    cases k with
    | predicate p => exact ih hg
    | mapKey =>
      exact ih (hg.add ⟨fun c hc => (by cases hc), rfl, fun x hx => (by cases hx),
        fun b hb => (by cases hb)⟩)

theorem Sound.addCondition (hg : g.Sound) (hcs : ∀ c ∈ cs, c < g.size) :
    (g.addCondition cs).2.Sound := by
  rcases addCondition_cases g cs with ⟨-, h, -⟩ | ⟨-, h⟩
  · rwa [h]
  · rw [h]
    exact hg.add (isPlain_conjunction hcs)

theorem Sound.setAccess (hg : g.Sound) (hs : g.scan? scan = some s) (a : Analysis) (t : Table)
    (keys : List NodeId) (filter : Option NodeId) : (g.setAccess scan a t keys filter).Sound := by
  have hexpr := scan?_eq_some.1 hs
  have hretouch : Retouches g (g.modifyScan scan (·.accessed a t keys filter)) := by
    refine .modifyExpr ?_
    rw [hexpr]
    exact .scan rfl
  refine (List.foldlRecOn (motive := fun k : Graph => k.Sound ∧ k.scan? scan ≠ none) _ _
    ⟨hretouch.sound hg, ?_⟩ fun k hk c _ => ?_).1
  · rw [Graph.modifyScan, scan?, expr_modifyExpr, if_pos ⟨rfl, lt_size_of_scan? hs⟩, hexpr]
    simp
  · obtain ⟨hsound, hscan⟩ := hk
    obtain ⟨s', hs'⟩ := Option.ne_none_iff_exists'.1 hscan
    obtain ⟨rank, ho⟩ := hsound.ordered
    have hsame := SameExprs.link k scan c
    have hlinked := hsound.toLinked.link (c := c) (lt_size_of_scan? hs')
      (by rw [scan?_eq_some.1 hs']; rfl)
    exact ⟨{ hlinked, hsound.toScoped.sameExprs hsame fun v => isLive_link scan c with
      ordered := ⟨rank, hsame.ordered ho⟩ }, by rwa [scan?, hsame.expr_eq]⟩

theorem EditsClauses.sound {b' : Block} {gone : NodeId → Prop} (he : EditsClauses block gone g h b b')
    (hg : g.Sound) (hlinked : h.Linked) (hscoped : h.Scoped) : h.Sound :=
  { hlinked, hscoped with ordered := he.exists_ordered hg }

theorem Sound.setConjuncts (hg : g.Sound) (hb : g.block? block = some b)
    (hcs : ∀ c ∈ cs, c ∈ g.conjuncts block) : (g.setConjuncts block cs).Sound := by
  have hedit := (editsClauses_reconditioned hb hcs).sound hg (linked_reconditioned hg hb hcs)
    (scoped_reconditioned hg hb hcs)
  rw [Graph.setConjuncts]
  refine List.foldlRecOn (motive := Graph.Sound) _ _ hedit fun k hk c _ => ?_
  split
  · exact hk
  · exact (Removes.destroyIfUnused c).sound hk (hk.declaresBut.destroyIfUnused hk.declaresVars c)

theorem Sound.dropUnused (hg : g.Sound) (hb : g.block? block = some b) (absorbed : List NodeId) :
    (g.dropUnused block absorbed).Sound := by
  cases hentries : b.entries with
  | nil =>
    unfold Graph.dropUnused
    simpa [hb, hentries] using hg
  | cons first rest =>
    obtain ⟨kept, -, -, hsound⟩ := dropUnused_induct absorbed (P := fun k _ _ => k.Sound) hb hentries hg
      (fun hturn _ hk => (editsClauses_dropEntry hk hturn.block_eq rfl).sound hk
        (linked_dropEntry hk hturn.block_eq rfl) (scoped_dropEntry hk hturn.block_eq rfl))
      fun _ _ hk => hk
    exact hsound

end Graph

/-- Putting an index to work leaves links, declarations and ranks in order, whatever the types are. -/
theorem Analysis.sound_apply {w : Weights} {path : AccessPath} (hfound : a.IsFound g t w site path)
    (hg : g.Sound) (hb : g.block? site.block = some b) (hs : g.scan? scan = some s) :
    (a.apply g t site scan).Sound := by
  have hkeyed : (a.keyedGraph g).Sound := hg.keyNodes a.bounds.keys
  have hgrown : (a.grownGraph g).Sound := hkeyed.addCondition fun c hc =>
    Nat.lt_of_lt_of_le (hg.conjunct_lt (hfound.filterConjuncts_subset c hc))
      (a.keeps_keyedGraph g).size_le
  have hs' : (a.grownGraph g).scan? scan = some s := by
    rw [scan?_eq_some, (a.keeps_grownGraph g).expr_eq scan (lt_size_of_scan? hs) trivial]
    exact scan?_eq_some.1 hs
  have haccess : (a.accessGraph g t scan).Sound := hgrown.setAccess hs' ..
  rw [apply]
  exact (haccess.setConjuncts (a.block?_accessGraph t scan hb) fun c hc => (List.mem_filter.1 hc).1)
    |>.dropUnused (a.block?_remainingGraph t scan hb) a.absorbed

namespace Graph

/-! ## Graphs that are worked on -/

/-- A graph that a front end lays out, or that comes of one by putting indexes to work and splitting
blocks. Any types may be kept at any time. -/
inductive IsReworked (c : Catalog) : Graph → Prop
  | laid {l : Layout} (hl : l.IsReached c) : IsReworked c l.graph
  | retyped {g h : Graph} (hg : IsReworked c g) (hs : SameShape g h) : IsReworked c h
  | indexed {g : Graph} {t : Table} {w : Weights} {site : Site} {path : AccessPath} {a : Analysis}
      {scan : NodeId} {b : Block} {s : TableScan} (hg : IsReworked c g)
      (hrun : Analysis.run g t w site path = .ok (some a)) (hb : g.block? site.block = some b)
      (hs : g.scan? scan = some s) : IsReworked c (a.apply g t site scan)
  | split {g h : Graph} {block : NodeId} (hg : IsReworked c g) (hlive : g.isLive block)
      (hsplit : Split.splitOne c g block = .ok h) : IsReworked c h

theorem IsReworked.sound (hg : g.IsReworked c) : g.Sound := by
  induction hg with
  | laid hl => exact hl.sound
  | retyped _ hs ih => exact hs.sound ih
  | indexed _ hrun hb hs ih => exact Analysis.sound_apply (Analysis.isFound_of_run hrun) ih hb hs
  | split _ hlive hsplit ih =>
    rcases Split.splitOne_cases ih hlive hsplit with rfl | ⟨x, t, hx, -, -, -, rfl⟩
    · exact ih
    · split
      · exact hx.sound_result ih
      · exact hx.sound_bounded ih

/-! ## The stack -/

/-- One step of a refresh on its stack and graph. With an empty stack nothing is left to do. -/
def refreshStep : List NodeId × Graph → List NodeId × Graph
  | ([], g) => ([], g)
  | (id :: work, g) =>
    if g.isOpen id then ((g.dependents id).reverse ++ work, g.retype id)
    else (work, g)

/-- The stack runs empty, and what is there then is the refreshed graph. -/
theorem refresh_ends {c : Catalog} {g : Graph} (hg : g.IsReworked c) (id : NodeId) :
    ∃ n, refreshStep^[n] ([id], g) = ([], g.refresh id) := by
  obtain ⟨rank, ho⟩ := hg.sound.ordered
  refine propagate_induction rank (P := fun work k => ∃ n, refreshStep^[n] ([id], g) = (work, k))
    (fun k v work hk hopen => ?_) (fun k v work hk hopen => ?_) ho hg.sound.linksInside ⟨0, rfl⟩
    (workLeft_le_propagationBound g rank id)
  · obtain ⟨n, hn⟩ := hk
    refine ⟨n + 1, ?_⟩
    rw [Function.iterate_succ_apply', hn, refreshStep, if_neg (by rw [hopen]; exact Bool.false_ne_true)]
  · obtain ⟨n, hn⟩ := hk
    refine ⟨n + 1, ?_⟩
    rw [Function.iterate_succ_apply', hn, refreshStep, if_pos hopen]

/-- The filter `id > a` of the scan is on the way around: a change of the row is carried to `id`, to the
filter, to the scan and to the row again. -/
theorem refresh_ends_range :
    ∃ a, Analysis.run rangeLayout.graph rangeTable {} ⟨19, 1⟩ (.secondary rangeIndex) =
        .ok (some a) ∧
      let g := a.apply rangeLayout.graph rangeTable ⟨19, 1⟩ 0
      Relation.TransGen (fun u v => v ∈ g.dependents u) 1 1 ∧ g.IsReworked ⟨[rangeTable]⟩ ∧
        ∃ n, refreshStep^[n] ([1], g) = ([], g.refresh 1) := by
  have hl : rangeLayout.IsReached _ := Layout.isReached_script _ _
  have hblock : (rangeLayout.graph.block? 19).isSome := by decide +kernel
  have hscan : (rangeLayout.graph.scan? 0).isSome := by decide +kernel
  obtain ⟨b, hb⟩ := Option.isSome_iff_exists.1 hblock
  obtain ⟨s, hs⟩ := Option.isSome_iff_exists.1 hscan
  obtain ⟨a, hrun, htest⟩ := Analysis.exists_of_foundWith
    (Analysis.run rangeLayout.graph rangeTable {} ⟨19, 1⟩ (.secondary rangeIndex))
    (fun a =>
      let g := a.apply rangeLayout.graph rangeTable ⟨19, 1⟩ 0
      2 ∈ g.parents 1 ∧ 15 ∈ g.parents 2 ∧ 0 ∈ g.parents 15 ∧ 19 ∈ g.parents 0 ∧
        1 ∈ g.declaredOver 0 19)
    (by decide +kernel)
  obtain ⟨hfield, hfilter, hslot, hdomain, hrow⟩ := of_decide_eq_true htest
  have hreworked : (a.apply rangeLayout.graph rangeTable ⟨19, 1⟩ 0).IsReworked ⟨[rangeTable]⟩ :=
    .indexed (.laid hl) hrun hb hs
  refine ⟨a, hrun, ?_, hreworked, refresh_ends hreworked 1⟩
  exact .tail (.tail (.tail (.single (mem_dependents.2 (.inl hfield)))
    (mem_dependents.2 (.inl hfilter))) (mem_dependents.2 (.inl hslot)))
    (mem_dependents.2 (.inr ⟨19, hdomain, hrow⟩))

end Graph

end ShardedQuery
