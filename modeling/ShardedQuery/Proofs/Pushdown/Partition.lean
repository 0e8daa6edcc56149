import ShardedQuery.Proofs.Access.Evaluable
import ShardedQuery.Proofs.Access.Implied

/-!
# Every conjunct in one place

A block over one table is rewritten to a scan through an access path without fan-out. Each conjunct
of its WHERE clause bounds the scan, or filters index entries, or is implied by another one, or
stays where it was; and it is in one of these classes only (`Analysis.IsFound.perm_conjuncts`).

What stays in the WHERE clause cannot be evaluated on index entries, with one exception. A path of
the row is evaluated as a whole, so that a conjunct stays if one of its paths leads on from what an
index entry holds (`Graph.LeadsOn`), as `a[] =any 5` does from a column `a` in the index
(`apply_leaves_elements`).
-/

namespace ShardedQuery

open Relation List

variable {c scan : NodeId} {a : Analysis} {g : Graph} {path : AccessPath} {p : Predicate}
  {site : Site} {t : Table} {w : Weights} {ks : List KeySource} {cs : List NodeId}

/-! ## Conditions -/

namespace Graph

/-- The condition is the conjunction of the given ones. A single one stands for itself. -/
def IsConjunctionOf (g : Graph) (condition : Option NodeId) : List NodeId → Prop
  | [] => condition = none
  | [c] => condition = some c
  | cs => ∃ id, condition = some id ∧ g.expr id = .call .and cs

theorem expr_of_parts {id d : NodeId} (h : g.parts id = c :: d :: cs) :
    g.expr id = .call .and (c :: d :: cs) := by
  unfold parts at h
  split at h
  · next he => rw [he, h]
  · cases h

theorem isConjunctionOf_addCondition (g : Graph) {h : Graph}
    (hmany : 2 ≤ cs.length → (g.addCondition cs).1.elim [] h.parts = cs) :
    h.IsConjunctionOf (g.addCondition cs).1 cs := by
  rcases cs with _ | ⟨c, _ | ⟨d, cs⟩⟩
  · rfl
  · rfl
  · exact ⟨_, rfl, expr_of_parts (hmany (by simp))⟩

end Graph

/-! ## Bounds -/

theorem nodes_eq_operands {key : String} (h : ∀ k ∈ ks, ∃ p, k = .predicate p) (g : Graph) :
    (KeySource.nodes key g ks).1 = (ks.filterMap (·.predicate?)).map (·.operand) := by
  induction ks with
  | nil => rfl
  | cons k ks ih =>
    obtain ⟨p, rfl⟩ := h k (.head _)
    exact congrArg (p.operand :: ·) (ih fun k hk => h k (.tail _ hk))

namespace Bounds

variable {b : Bounds} {ps : List Predicate} {pos : Nat}

/-- Equality keys that come from predicates are on the fields in turn. -/
theorem positions_of_keyFits (h : ∀ i k, ks[i]? = some k → KeyFits none none ps (pos + i) k) :
    (ks.filterMap (·.predicate?)).map (·.position) = List.range' pos ks.length := by
  induction ks generalizing pos with
  | nil => rfl
  | cons k ks ih =>
    have hrest : (ks.filterMap (·.predicate?)).map (·.position) =
        List.range' (pos + 1) ks.length := by
      refine ih fun i k hk => ?_
      rw [show pos + 1 + i = pos + (i + 1) by omega]
      exact h (i + 1) k hk
    cases k with
    | mapKey => cases (h 0 _ rfl).1
    | predicate p =>
      have hpos : p.position = pos := (Predicate.boundsAt_iff.1 (h 0 _ rfl).2.1).2.1
      rw [length_cons, List.range'_succ, ← hrest]
      exact congrArg (· :: _) hpos

/-- No predicate bounds a scan twice. -/
theorem Fits.nodup (h : b.Fits none none ps pos) : b.predicates.Nodup := by
  have hpositions := positions_of_keyFits h.keys
  refine nodup_append.2 ⟨.of_map (·.position) ?_, ?_, ?_⟩
  · rw [hpositions]
    exact nodup_range'
  · cases hr : b.range with
    | none => exact .nil
    | some r =>
      refine nodup_append.2 ⟨r.lower.toList_nodup, r.upper.toList_nodup, ?_⟩
      rintro p hp q hq rfl
      have hlower := (h.lower r p hr (Option.mem_toList.1 hp)).2.2
      have hupper := (h.upper r p hr (Option.mem_toList.1 hq)).2.2
      cases hop : p.op <;> simp [hop, Comparison.isLower, Comparison.isUpper] at hlower hupper
  · intro p hp q hq
    have hlt : p.position < pos + b.keys.length := by
      have hmem := mem_map_of_mem (f := (·.position)) hp
      rw [hpositions, mem_range'_1] at hmem
      exact hmem.2
    cases hr : b.range with
    | none => simp [hr] at hq
    | some r =>
      rw [hr] at hq
      have hat : q.boundsAt r.position := by
        rcases mem_append.1 hq with hq | hq
        · exact (h.lower r q hr (Option.mem_toList.1 hq)).2.1
        · exact (h.upper r q hr (Option.mem_toList.1 hq)).2.1
      have hposition := h.position r hr
      rintro rfl
      rw [(Predicate.boundsAt_iff.1 hat).2.1] at hlt
      omega

/-- The keys and the ends of the range are the operands of the predicates. -/
theorem Fits.operands {key : String} (h : b.Fits none none ps pos) (g : Graph) :
    (KeySource.nodes key g b.keys).1 ++ ((b.range.map (·.toFieldRange)).map (·.ends)).getD [] =
      b.predicates.map (·.operand) := by
  rw [predicates, map_append, nodes_eq_operands]
  · congr 1
    cases b.range with
    | none => rfl
    | some r => simp [RangeBounds.toFieldRange, FieldRange.ends, Option.toList_map]
  · intro k hk
    obtain ⟨i, hi⟩ := getElem?_of_mem hk
    cases k with
    | mapKey => cases (h.keys i _ hi).1
    | predicate p => exact ⟨p, rfl⟩

end Bounds

/-! ## Classes of conjuncts -/

theorem eraseDups_of_nodup {ids : List NodeId} (h : ids.Nodup) : ids.eraseDups = ids := by
  induction ids with
  | nil => rfl
  | cons id ids ih =>
    obtain ⟨hnot, hrest⟩ := nodup_cons.1 h
    have hkept : ids.filter (fun c => !c == id) = ids := by
      refine filter_eq_self.2 fun c hc => ?_
      simpa using ne_of_mem_of_not_mem hc hnot
    rw [eraseDups_cons, hkept, ih hrest]

/-- The conjunct compares the value of an index field with the operand. -/
def Site.BoundsBy (site : Site) (g : Graph) (path : AccessPath) (c operand : NodeId) : Prop :=
  ∃ op any left, (g.expr c = .call (.compare op any) [left, operand] ∨
      g.expr c = .call (.compare op any) [operand, left]) ∧
    g.IsIndexed path site.rowVar left

namespace Analysis

/-- The conjuncts that bound the scan. -/
def boundConjuncts (a : Analysis) : List NodeId := a.bounds.predicates.map (·.conjunct)

/-- The conjuncts that others imply. -/
def impliedConjuncts (a : Analysis) : List NodeId :=
  (a.predicates.filter (·.status = .implied)).map (·.conjunct)

/-- The conjunct follows from another one, which is not given up itself. -/
def IsImplied (a : Analysis) (c : NodeId) : Prop :=
  ∃ p ∈ a.predicates, p.conjunct = c ∧ ∃ q ∈ a.predicates, q.conjunct ≠ c ∧
    q.status ≠ .implied ∧ TransGen Predicate.Entails q p

section
variable (h : a.IsFound g t w site path) (hpath : path ∈ AccessPath.all t)
  (hsingle : path.isMultiKey = false) (hsite : site.ScansOnly g scan)
include h hpath hsingle hsite

/-- Without fan-out the analysis settles the conflicts between the predicates, and that is all. -/
theorem IsFound.settled :
    ∃ ps, readPredicates g path site = .ok ps ∧
      ReflTransGen (Settles path.fansOutAt) ps a.predicates ∧
      a.bounds.Fits none none a.predicates 0 := by
  have hkeys := AccessPath.mapKeys?_eq_none hpath hsingle
  obtain ⟨ps, hps, hresolved, hfits⟩ := h.exists_resolved hkeys fun ps hps =>
    ⟨contenders_eq_self hkeys (AccessPath.fansOutAt_eq_false hsingle) w ps, fun p hp => by
      obtain ⟨-, left, hread⟩ := isReadAt_of_mem hps hp
      exact (hread.isIndexed hpath hsingle hsite).1⟩
  exact ⟨ps, hps, resolveConflicts_run hresolved, hfits⟩

/-- What is known of a predicate: it compares the value of an index field, and nothing but its
status decides whether its conjunct leaves the WHERE clause. -/
theorem IsFound.of_mem (hp : p ∈ a.predicates) :
    site.BoundsBy g path p.conjunct p.operand ∧ (a.takes p ↔ p.status ≠ .skip) ∧
      (a.bounds.uses p → p.status = .keep) := by
  obtain ⟨ps, hps, hrun, hfits⟩ := h.settled hpath hsingle hsite
  obtain ⟨p₀, hp₀, hpp⟩ := exists_of_forall₂ (restates_of_run hrun) hp
  obtain ⟨-, left, hread⟩ := isReadAt_of_mem hps hp₀
  obtain ⟨hwidened, hunnested, hindexed⟩ := hread.isIndexed hpath hsingle hsite
  have huses : a.bounds.uses p → p.status = .keep := fun huses =>
    (hfits.of_mem (h.mem_bounds hfits hp huses)).2.1
  refine ⟨?_, ?_, huses⟩
  · obtain ⟨op, hcall⟩ := hread.conjunct
    rw [hpp.conjunct_eq, hpp.operand_eq]
    exact ⟨op, p₀.any, left, hcall.imp And.left And.left, hindexed⟩
  · have hretains : a.retains p = false := by
      simp [retains, hpp.widened_eq, hpp.unnested_eq, hwidened, hunnested]
    rw [takes, Bool.and_eq_true, pushes_iff, hretains]
    cases hs : p.status <;> simp [hs] at huses ⊢
    exact huses

theorem IsFound.evaluable_of_mem (hp : p ∈ a.predicates) (hacyclic : g.AcyclicBelow p.conjunct) :
    g.Evaluable path t site.rowVar p.conjunct := by
  obtain ⟨ps, hps, hrun, -⟩ := h.settled hpath hsingle hsite
  obtain ⟨p₀, hp₀, hpp⟩ := exists_of_forall₂ (restates_of_run hrun) hp
  obtain ⟨-, left, hread⟩ := isReadAt_of_mem hps hp₀
  rw [hpp.conjunct_eq] at hacyclic ⊢
  exact hread.evaluable (hread.isIndexed hpath hsingle hsite).2.2 hacyclic

theorem IsFound.mem_boundConjuncts : c ∈ a.boundConjuncts ↔
    ∃ p ∈ a.predicates, p.conjunct = c ∧ p.status = .keep ∧ a.bounds.uses p := by
  obtain ⟨-, -, -, hfits⟩ := h.settled hpath hsingle hsite
  refine mem_map.trans ⟨?_, ?_⟩
  · rintro ⟨p, hp, rfl⟩
    obtain ⟨hmem, hkeep, -⟩ := hfits.of_mem hp
    exact ⟨p, hmem, rfl, hkeep, (a.bounds.uses_iff p).2 ⟨p, hp, rfl⟩⟩
  · rintro ⟨p, hp, rfl, -, huses⟩
    exact ⟨p, h.mem_bounds hfits hp huses, rfl⟩

/-- What stays in the WHERE clause is no conjunct of a predicate that is not skipped, and is not
checked on index entries. -/
theorem IsFound.mem_remaining_iff : c ∈ a.remaining g site ↔
    c ∈ g.conjuncts site.block ∧ (∀ p ∈ a.predicates, p.conjunct = c → p.status = .skip) ∧
      c ∉ a.indexFilters := by
  rw [mem_remaining, mem_consumed, not_or]
  refine and_congr_right fun _ => and_congr_left fun _ => ⟨fun hnot p hp hc => ?_, ?_⟩
  · by_contra hskip
    exact hnot ⟨p, hp, (h.of_mem hpath hsingle hsite hp).2.1.2 hskip, hc⟩
  · rintro hskip ⟨p, hp, htakes, hc⟩
    exact (h.of_mem hpath hsingle hsite hp).2.1.1 htakes (hskip p hp hc)

end

theorem mem_impliedConjuncts : c ∈ a.impliedConjuncts ↔
    ∃ p ∈ a.predicates, p.conjunct = c ∧ p.status = .implied := by
  simp [impliedConjuncts, and_assoc, and_comm]

section
variable (h : a.IsFound g t w site path) (hnodup : (g.conjuncts site.block).Nodup)
include h hnodup

/-- No conjunct filters index entries twice. -/
theorem IsFound.nodup_filterConjuncts : a.filterConjuncts.Nodup := by
  refine nodup_append.2 ⟨?_, ?_, ?_⟩
  · exact (h.nodup_conjuncts hnodup).sublist (filter_sublist.map _)
  · rw [h.indexFilters_eq]
    simp only [addIndexFilters, eraseDups_of_nodup hnodup]
    exact (hnodup.filter _).filter _
  · rintro c hc _ hf rfl
    obtain ⟨p, hp, rfl⟩ := mem_map.1 hc
    obtain ⟨hp, hfilters⟩ := mem_filter.1 hp
    cases (filters_iff.1 hfilters).1.symm.trans ((h.mem_indexFilters.1 hf).2.1 p hp rfl)

theorem IsFound.status_of_mem_filterConjuncts (hp : p ∈ a.predicates)
    (hc : p.conjunct ∈ a.filterConjuncts) :
    p.status = .skip ∨ (p.status = .keep ∧ a.bounds.uses p = false) := by
  rcases mem_filterConjuncts.1 hc with ⟨q, hq, hfilters, hpq⟩ | hc
  · cases h.eq_of_conjunct_eq hnodup hq hp hpq
    exact .inr (filters_iff.1 hfilters)
  · exact .inl ((h.mem_indexFilters.1 hc).2.1 p hp rfl)

variable (hpath : path ∈ AccessPath.all t) (hsingle : path.isMultiKey = false)
  (hsite : site.ScansOnly g scan)
include hpath hsingle hsite

theorem IsFound.nodup_boundConjuncts : a.boundConjuncts.Nodup := by
  obtain ⟨-, -, -, hfits⟩ := h.settled hpath hsingle hsite
  refine Nodup.map_on (fun p hp q hq hpq => ?_) hfits.nodup
  exact h.eq_of_conjunct_eq hnodup (hfits.of_mem hp).1 (hfits.of_mem hq).1 hpq

/-- The four classes have no conjunct in common: the predicate of a conjunct has one status, and
bounds the scan or does not. -/
theorem IsFound.nodup_classes :
    (a.boundConjuncts ++ a.filterConjuncts ++ a.impliedConjuncts ++ a.remaining g site).Nodup := by
  have hbound {c : NodeId} := h.mem_boundConjuncts hpath hsingle hsite (c := c)
  have hremaining {c : NodeId} := h.mem_remaining_iff hpath hsingle hsite (c := c)
  refine nodup_append.2 ⟨nodup_append.2 ⟨nodup_append.2
    ⟨h.nodup_boundConjuncts hnodup hpath hsingle hsite, h.nodup_filterConjuncts hnodup, ?_⟩,
    (h.nodup_conjuncts hnodup).sublist (filter_sublist.map _), ?_⟩, hnodup.filter _, ?_⟩
  · rintro c hc _ hf rfl
    obtain ⟨p, hp, rfl, hkeep, huses⟩ := hbound.1 hc
    rcases h.status_of_mem_filterConjuncts hnodup hp hf with hskip | ⟨-, hnot⟩
    · cases hkeep.symm.trans hskip
    · cases huses.symm.trans hnot
  · rintro c hc _ hi rfl
    obtain ⟨p, hp, rfl, himplied⟩ := mem_impliedConjuncts.1 hi
    rcases mem_append.1 hc with hc | hc
    · obtain ⟨q, hq, hpq, hkeep, -⟩ := hbound.1 hc
      cases h.eq_of_conjunct_eq hnodup hq hp hpq
      cases hkeep.symm.trans himplied
    · rcases h.status_of_mem_filterConjuncts hnodup hp hc with hskip | ⟨hkeep, -⟩
      · cases himplied.symm.trans hskip
      · cases himplied.symm.trans hkeep
  · rintro c hc _ hr rfl
    obtain ⟨-, hskip, hfilter⟩ := hremaining.1 hr
    rcases mem_append.1 hc with hc | hc
    · rcases mem_append.1 hc with hc | hc
      · obtain ⟨p, hp, hpc, hkeep, -⟩ := hbound.1 hc
        cases hkeep.symm.trans (hskip p hp hpc)
      · rcases mem_filterConjuncts.1 hc with ⟨p, hp, hfilters, hpc⟩ | hc
        · cases (filters_iff.1 hfilters).1.symm.trans (hskip p hp hpc)
        · exact hfilter hc
    · obtain ⟨p, hp, hpc, himplied⟩ := mem_impliedConjuncts.1 hc
      cases himplied.symm.trans (hskip p hp hpc)

/-- Every conjunct is in one of the four classes, and in no other. -/
theorem IsFound.perm_conjuncts :
    (a.boundConjuncts ++ a.filterConjuncts ++ a.impliedConjuncts ++ a.remaining g site).Perm
      (g.conjuncts site.block) := by
  refine (perm_ext_iff_of_nodup (h.nodup_classes hnodup hpath hsingle hsite) hnodup).2
    fun c => ?_
  simp only [mem_append, or_assoc]
  constructor
  · rintro (hc | hc | hc | hc)
    · obtain ⟨p, hp, rfl, -⟩ := (h.mem_boundConjuncts hpath hsingle hsite).1 hc
      exact h.conjunct_mem hp
    · exact h.filterConjuncts_subset c hc
    · obtain ⟨p, hp, rfl, -⟩ := mem_impliedConjuncts.1 hc
      exact h.conjunct_mem hp
    · exact (mem_remaining.1 hc).1
  · intro hc
    by_cases hskip : ∀ p ∈ a.predicates, p.conjunct = c → p.status = .skip
    · by_cases hf : c ∈ a.indexFilters
      · exact .inr (.inl (mem_filterConjuncts.2 (.inr hf)))
      · exact .inr (.inr (.inr ((h.mem_remaining_iff hpath hsingle hsite).2 ⟨hc, hskip, hf⟩)))
    · push Not at hskip
      obtain ⟨p, hp, rfl, hne⟩ := hskip
      cases hs : p.status with
      | skip => exact absurd hs hne
      | implied => exact .inr (.inr (.inl (mem_impliedConjuncts.2 ⟨p, hp, rfl, hs⟩)))
      | keep =>
        by_cases huses : a.bounds.uses p
        · exact .inl ((h.mem_boundConjuncts hpath hsingle hsite).2 ⟨p, hp, rfl, hs, huses⟩)
        · exact .inr (.inl (mem_filterConjuncts.2
            (.inl ⟨p, hp, filters_iff.2 ⟨hs, by simpa using huses⟩, rfl⟩)))

/-- A conjunct is implied only by another one. -/
theorem IsFound.isImplied (hc : c ∈ a.impliedConjuncts) : a.IsImplied c := by
  obtain ⟨ps, hps, hrun, -⟩ := h.settled hpath hsingle hsite
  have hentailed := allEntailed_of_run (AccessPath.fansOutAt_eq_false hsingle) hrun fun p hp => by
    obtain ⟨-, left, hread⟩ := isReadAt_of_mem hps hp
    exact hread.kept
  obtain ⟨p, hp, rfl, himplied⟩ := mem_impliedConjuncts.1 hc
  obtain ⟨q, hq, hne, hqp⟩ := hentailed p hp himplied
  refine ⟨p, hp, rfl, q, hq, fun hpq => hne ?_, hne, hqp⟩
  rw [h.eq_of_conjunct_eq hnodup hq hp hpq]
  exact himplied

end

/-! ## The rewritten block -/

/-- What became of the conjuncts of the block in the graph `g`, where `h` is the rewritten graph. -/
structure Accounts (a : Analysis) (g : Graph) (t : Table) (site : Site) (scan : NodeId) (h : Graph)
    (bounds filters implied remaining : List NodeId) : Prop where
  /-- Every conjunct is in one of the four classes, and in no other. -/
  once : (bounds ++ filters ++ implied ++ remaining).Perm (g.conjuncts site.block)
  /-- The scan has the operands of the bounds as its keys and as the ends of its range, and checks
  the filters. -/
  access : ∃ s, h.scan? scan = some s ∧
    Forall₂ (site.BoundsBy g a.path) bounds (s.keys ++ (s.range.map (·.ends)).getD []) ∧
    h.IsConjunctionOf s.filter filters
  entailed : ∀ c ∈ implied, a.IsImplied c
  /-- The WHERE clause has the remaining conjuncts, in the order they had. -/
  clause : ∃ b, h.block? site.block = some b ∧ h.IsConjunctionOf b.condition remaining
  order : remaining.Sublist (g.conjuncts site.block)
  /-- What leaves the WHERE clause can be evaluated on index entries. -/
  evaluable : ∀ c ∈ bounds ++ filters ++ implied, g.Evaluable a.path t site.rowVar c
  /-- What stays there mentions no row or cannot be evaluated on them, unless a path of the row
  leads on from what they hold. -/
  leadsOn : ∀ c ∈ remaining, ReflTransGen g.IsChild c site.rowVar →
    g.Evaluable a.path t site.rowVar c →
    ∃ v, ReflTransGen g.IsChild c v ∧ g.LeadsOn a.path t site.rowVar v

section
theorem isConjunctionOf_filter (hsite : site.Scans g scan) :
    (a.apply g t site scan).IsConjunctionOf
      ((a.keyedGraph g).addCondition a.filterConjuncts).1 a.filterConjuncts := by
  obtain ⟨s, hs⟩ := Option.isSome_iff_exists.1 hsite.isScan
  refine Graph.isConjunctionOf_addCondition _ fun hmany => ?_
  have hfilter := a.filterConjuncts_apply t hsite fun c hc => by simp [hc] at hmany
  rwa [Graph.filterConjuncts, a.scan?_apply t hs] at hfilter

/-- The WHERE clause has what remains. -/
theorem exists_block_apply (hsite : site.Scans g scan) :
    ∃ b, (a.apply g t site scan).block? site.block = some b ∧
      (a.apply g t site scan).IsConjunctionOf b.condition (a.remaining g site) := by
  obtain ⟨b, hb⟩ := Option.isSome_iff_exists.1 hsite.isBlock
  obtain ⟨entries, hblock, -⟩ := a.block?_apply t scan hb
  refine ⟨_, hblock, ?_⟩
  rw [a.remaining_accessGraph t hsite] at hblock ⊢
  refine Graph.isConjunctionOf_addCondition _ fun hmany => ?_
  have hconjuncts := a.conjuncts_apply t hsite fun c hc => by simp [hc] at hmany
  rwa [Graph.conjuncts_eq_parts, hblock] at hconjuncts

variable (hacyclic : ∀ c ∈ g.conjuncts site.block, g.AcyclicBelow c)
  (h : a.IsFound g t w site path) (hpath : path ∈ AccessPath.all t)
  (hsingle : path.isMultiKey = false) (hsite : site.ScansOnly g scan)
include hacyclic h hpath hsingle hsite

/-- What leaves the WHERE clause can be evaluated on index entries. -/
theorem IsFound.evaluable (hc : c ∈ a.boundConjuncts ++ a.filterConjuncts ++ a.impliedConjuncts) :
    g.Evaluable path t site.rowVar c := by
  have hmem {p : Predicate} (hp : p ∈ a.predicates) (hpc : p.conjunct = c) :
      g.Evaluable path t site.rowVar c := by
    subst hpc
    exact h.evaluable_of_mem hpath hsingle hsite hp (hacyclic _ (h.conjunct_mem hp))
  rcases mem_append.1 hc with hc | hc
  · rcases mem_append.1 hc with hc | hc
    · obtain ⟨p, hp, hpc, -⟩ := (h.mem_boundConjuncts hpath hsingle hsite).1 hc
      exact hmem hp hpc
    · rcases mem_filterConjuncts.1 hc with ⟨p, hp, -, hpc⟩ | hc
      · exact hmem hp hpc
      · exact evaluable_of_isEvaluable hpath (h.mem_indexFilters.1 hc).2.2.2
  · obtain ⟨p, hp, hpc, -⟩ := mem_impliedConjuncts.1 hc
    exact hmem hp hpc

/-- What mentions the row and can be evaluated on index entries leaves the WHERE clause, unless a
path in it leads on from what they hold. -/
theorem IsFound.exists_leadsOn (hc : c ∈ a.remaining g site)
    (hrow : ReflTransGen g.IsChild c site.rowVar)
    (heval : g.Evaluable path t site.rowVar c) :
    ∃ v, ReflTransGen g.IsChild c v ∧ g.LeadsOn path t site.rowVar v := by
  obtain ⟨hmem, hskip, hfilter⟩ := (h.mem_remaining_iff hpath hsingle hsite).1 hc
  by_contra hwhole
  push Not at hwhole
  refine hfilter (h.mem_indexFilters.2 ⟨hmem, hskip, ?_, ?_⟩)
  · by_contra hbelow
    have hnot := (hacyclic c hmem).of_not_anyBelow (by simpa using hbelow) hrow
    simp at hnot
  · exact isEvaluable_of_evaluable hsite hsingle (hacyclic c hmem) heval hwhole

end

/-- A block over one table is rewritten to a scan through an access path without fan-out. Each
conjunct of its WHERE clause then bounds the scan, filters index entries, follows from another one,
or stays, in the old order; and it does one of these only. What stays and mentions the row cannot be
evaluated on index entries, unless a path in it leads on from what they hold. -/
theorem apply_accounts {a : Analysis} {g : Graph} {t : Table} {w : Weights} {site : Site}
    {path : AccessPath} {scan : NodeId} (hpath : path ∈ AccessPath.all t)
    (hsingle : path.isMultiKey = false) (hsite : site.ScansOnly g scan)
    (hacyclic : ∀ c ∈ g.conjuncts site.block, g.AcyclicBelow c)
    (hnodup : (g.conjuncts site.block).Nodup) (hrun : run g t w site path = .ok (some a)) :
    a.Accounts g t site scan (a.apply g t site scan) a.boundConjuncts a.filterConjuncts
      a.impliedConjuncts (a.remaining g site) := by
  have h := isFound_of_run hrun
  obtain ⟨-, -, -, hfits⟩ := h.settled hpath hsingle hsite
  obtain ⟨s, hs⟩ := Option.isSome_iff_exists.1 hsite.isScan
  have hbounds : Forall₂ (site.BoundsBy g path) a.boundConjuncts
      (a.bounds.predicates.map (·.operand)) := by
    rw [boundConjuncts, forall₂_map_left_iff, forall₂_map_right_iff, forall₂_same]
    exact fun p hp => (h.of_mem hpath hsingle hsite (hfits.of_mem hp).1).1
  cases h.path_eq
  exact
    { once := h.perm_conjuncts hnodup hpath hsingle hsite
      access := ⟨_, a.scan?_apply t hs, (hfits.operands g).symm ▸ hbounds,
        isConjunctionOf_filter hsite.toScans⟩
      entailed := fun c hc => h.isImplied hnodup hpath hsingle hsite hc
      clause := exists_block_apply hsite.toScans
      order := filter_sublist
      evaluable := fun c hc => h.evaluable hacyclic hpath hsingle hsite hc
      leadsOn := fun c hc => h.exists_leadsOn hacyclic hpath hsingle hsite hc }

end Analysis

/-! ## Samples -/

/-- An index on two columns. -/
def rangeIndex : Index := integerIndex "ab" ["a", "b"]

def rangeTable : Table := idTable [("a", .integer), ("b", .integer), ("d", .integer)] [rangeIndex]

/-- `a = 1 AND b > 2 AND b > 1 AND b < 9 AND id > a AND d = 5 AND a[] =any 5`. -/
def rangeLayout : Layout :=
  Layout.script ⟨[rangeTable]⟩
    [.draft, .scanTable "t" "t" [], .value (.field 1 "id"), .value (.field 1 "a"),
      .value (.field 1 "b"), .value (.field 1 "d"), .pathStep (.filter 3 none []),
      .value (.literal (.integer 1)), .value (.literal (.integer 2)),
      .value (.literal (.integer 5)), .value (.literal (.integer 9)),
      .value (.call (.compare .eq false) [3, 7]), .value (.call (.compare .gt false) [4, 8]),
      .value (.call (.compare .gt false) [4, 7]), .value (.call (.compare .lt false) [4, 10]),
      .value (.call (.compare .gt false) [2, 3]), .value (.call (.compare .eq false) [5, 9]),
      .value (.call (.compare .eq true) [6, 9]), .restrict 11, .restrict 12, .restrict 13,
      .restrict 14, .restrict 15, .restrict 16, .restrict 17, .select "id" 2, .build]

/-- There are conjuncts of each class: a key, the two ends of a range, a filter, one that is implied
and two that stay, the second of which leads on from the column `a`. -/
theorem apply_accounts_range :
    AccessPath.secondary rangeIndex ∈ AccessPath.all rangeTable ∧
    (AccessPath.secondary rangeIndex).isMultiKey = false ∧
    (⟨19, 1⟩ : Site).ScansOnly rangeLayout.graph 0 ∧
    (∀ c ∈ rangeLayout.graph.conjuncts 19, rangeLayout.graph.AcyclicBelow c) ∧
    (rangeLayout.graph.conjuncts 19).Nodup ∧
    ∃ a, Analysis.run rangeLayout.graph rangeTable {} ⟨19, 1⟩ (.secondary rangeIndex) =
        .ok (some a) ∧
      a.Accounts rangeLayout.graph rangeTable ⟨19, 1⟩ 0
        (a.apply rangeLayout.graph rangeTable ⟨19, 1⟩ 0) [11, 12, 14] [15] [13] [16, 17] := by
  have hl : rangeLayout.IsReached _ := Layout.isReached_script _ _
  have hblock : rangeLayout.graph.block? 19 = some
      { entries := [⟨0, 1⟩], condition := some 18, select := [⟨"id", 2⟩] } := by decide +kernel
  have hscan : rangeLayout.graph.scan? 0 = some
      { table := "t", hints := [], rowType := rangeTable.rowType } := by decide +kernel
  have hpath : AccessPath.secondary rangeIndex ∈ AccessPath.all rangeTable := by decide +kernel
  have hsite := hl.sound.scansOnly hblock rfl hscan
  have hacyclic : ∀ c ∈ rangeLayout.graph.conjuncts 19, rangeLayout.graph.AcyclicBelow c :=
    fun c _ => hl.scansLocally.acyclicBelow hl.sound c
  have hnodup : (rangeLayout.graph.conjuncts 19).Nodup := by decide +kernel
  obtain ⟨a, hrun, htest⟩ := Analysis.exists_of_foundWith
    (Analysis.run rangeLayout.graph rangeTable {} ⟨19, 1⟩ (.secondary rangeIndex))
    (fun a => (a.boundConjuncts, a.filterConjuncts, a.impliedConjuncts,
      a.remaining rangeLayout.graph ⟨19, 1⟩) = ([11, 12, 14], [15], [13], [16, 17]))
    (by decide +kernel)
  have haccounts := Analysis.apply_accounts hpath rfl hsite hacyclic hnodup hrun
  simp only [decide_eq_true_eq, Prod.mk.injEq] at htest
  rw [htest.1, htest.2.1, htest.2.2.1, htest.2.2.2] at haccounts
  exact ⟨hpath, rfl, hsite, hacyclic, hnodup, a, hrun, haccounts⟩

/-- An index on a column. -/
def columnIndex : Index := integerIndex "ia" ["a"]

def columnTable : Table := idTable [("a", .integer)] [columnIndex]

/-- `a[] =any 5`. -/
def elementsLayout : Layout :=
  Layout.script ⟨[columnTable]⟩
    [.draft, .scanTable "t" "t" [.force (.index "ia")], .value (.field 1 "a"),
      .pathStep (.filter 2 none []), .value (.literal (.integer 5)),
      .value (.call (.compare .eq true) [3, 4]), .restrict 5, .value (.field 1 "id"),
      .select "id" 6, .build]

/-- The conjunct mentions the row and needs the column in the index only, but it stays. -/
theorem apply_leaves_elements :
    AccessPath.secondary columnIndex ∈ AccessPath.all columnTable ∧
    (AccessPath.secondary columnIndex).isMultiKey = false ∧
    (⟨7, 1⟩ : Site).ScansOnly elementsLayout.graph 0 ∧
    ∃ a, Analysis.run elementsLayout.graph columnTable {} ⟨7, 1⟩ (.secondary columnIndex) =
        .ok (some a) ∧
      elementsLayout.graph.conjuncts 7 = [5] ∧
      (a.apply elementsLayout.graph columnTable ⟨7, 1⟩ 0).conjuncts 7 = [5] ∧
      Relation.ReflTransGen elementsLayout.graph.IsChild 5 1 ∧
      elementsLayout.graph.Evaluable (.secondary columnIndex) columnTable 1 5 := by
  have hl : elementsLayout.IsReached _ := Layout.isReached_script _ _
  have hblock : elementsLayout.graph.block? 7 = some
      { entries := [⟨0, 1⟩], condition := some 5, select := [⟨"id", 6⟩] } := by decide +kernel
  have hscan : elementsLayout.graph.scan? 0 = some
      { table := "t", hints := [.force (.index "ia")], rowType := columnTable.rowType } := by
    decide +kernel
  obtain ⟨a, hrun, htest⟩ := Analysis.exists_of_foundWith
    (Analysis.run elementsLayout.graph columnTable {} ⟨7, 1⟩ (.secondary columnIndex))
    (fun a => (a.apply elementsLayout.graph columnTable ⟨7, 1⟩ 0).conjuncts 7 = [5])
    (by decide +kernel)
  have hfive : elementsLayout.graph.children 5 = [3, 4] := by decide +kernel
  have hthree : elementsLayout.graph.children 3 = [2] := by decide +kernel
  have htwo : elementsLayout.graph.navigation? 2 = some (.field "a", 1) := by decide +kernel
  have hcolumn : elementsLayout.graph.IsHeld (.secondary columnIndex) columnTable 1 2 :=
    ⟨["a"], .field (Graph.field_of_navigation? htwo) .base,
      .inl ⟨_, mem_singleton_self _, rfl⟩⟩
  refine ⟨by decide +kernel, rfl, hl.sound.scansOnly hblock rfl hscan, a, hrun, by decide +kernel,
    of_decide_eq_true htest, ?_, ?_⟩
  · refine .head (b := 3) (by rw [Graph.IsChild, hfive]; simp) ?_
    refine .head (b := 2) (by rw [Graph.IsChild, hthree]; simp) (.single ?_)
    exact Graph.mem_children_of_navigation? htwo
  · refine .computed (by decide +kernel) fun c hc => ?_
    rw [hfive, mem_pair] at hc
    rcases hc with rfl | rfl
    · refine .computed (by decide +kernel) fun c hc => ?_
      rw [hthree, mem_singleton] at hc
      exact hc ▸ .held hcolumn
    · exact .computed (by decide +kernel) fun c hc => by
        rw [show elementsLayout.graph.children 4 = [] by decide +kernel] at hc
        cases hc

end ShardedQuery
