import ShardedQuery.Proofs.Graph.Rows
import ShardedQuery.Proofs.Layout

/-!
# Every block scans a table of its own

A front end adds the scan of a block together with its first FROM entry, so that no two blocks start
with the same scan (`Layout.IsReached.firstDomain_inj`). What is done for the scan of one block is
then done for that block only.
-/

namespace ShardedQuery

open List

variable {e : Expr} {g h : Graph} {domain var : NodeId} {name : String}

/-- The domain of the first FROM entry. -/
def BlockDraft.firstDomain? (d : BlockDraft) : Option NodeId :=
  d.sources.head?.map (·.entry.domain)

namespace Graph

theorem firstDomain?_add (p : NodeId) : ((g.add e).2.expr p).firstDomain? =
    if p = g.size then e.firstDomain? else (g.expr p).firstDomain? := by
  rw [expr_add_eq]
  split <;> rfl

theorem firstDomain?_addDeclaring {l : Option Location} (p : NodeId) :
    ((g.addDeclaring e l).2.expr p).firstDomain? =
      if p = g.size then e.firstDomain? else (g.expr p).firstDomain? := by
  obtain ⟨l', hnode⟩ := node_addDeclaring (g := g) (v := p) e l
  rw [← firstDomain?_add, expr, hnode]
  dsimp only
  split
  · cases (g.add e).2.expr p <;> rfl
  · rfl

theorem SameExprs.firstDomain?_eq (hs : SameExprs g h) (p : NodeId) :
    (h.expr p).firstDomain? = (g.expr p).firstDomain? := by rw [hs.expr_eq]

end Graph

namespace Layout

open ShardedQuery.Graph

variable {c : Catalog} {d d' : BlockDraft} {ds ds' : List BlockDraft}

/-- No two blocks start with the same domain, and the drafts start with others. -/
structure OwnsScans (g : Graph) (ds : List BlockDraft) : Prop where
  inj : ∀ p q v, (g.expr p).firstDomain? = some v → (g.expr q).firstDomain? = some v → p = q
  drafts_nodup : (ds.filterMap BlockDraft.firstDomain?).Nodup
  drafts_ne : ∀ v ∈ ds.filterMap BlockDraft.firstDomain?,
    v < g.size ∧ ∀ p, (g.expr p).firstDomain? ≠ some v

theorem OwnsScans.of_same (hl : OwnsScans g ds) (hsize : g.size ≤ h.size)
    (hexpr : ∀ p, (h.expr p).firstDomain? = (g.expr p).firstDomain?)
    (hdrafts : (ds'.filterMap BlockDraft.firstDomain?).Perm
      (ds.filterMap BlockDraft.firstDomain?)) : OwnsScans h ds' where
  inj p q v hp hq := hl.inj p q v ((hexpr p).symm.trans hp) ((hexpr q).symm.trans hq)
  drafts_nodup := hdrafts.nodup_iff.2 hl.drafts_nodup
  drafts_ne v hv := by
    obtain ⟨hlt, hne⟩ := hl.drafts_ne v (hdrafts.mem_iff.1 hv)
    exact ⟨hlt.trans_le hsize, fun p => by rw [hexpr p]; exact hne p⟩

/-- The graph gets a node that is no block. -/
theorem OwnsScans.grow (hl : OwnsScans g ds) (he : e.firstDomain? = none)
    (hsize : h.size = g.size + 1) (hexpr : ∀ p, (h.expr p).firstDomain? =
      if p = g.size then e.firstDomain? else (g.expr p).firstDomain?) : OwnsScans h ds := by
  refine hl.of_same (hsize ▸ Nat.le_succ _) (fun p => ?_) (Perm.refl _)
  rw [hexpr]
  split
  · next hp =>
    rw [he, hp, expr_of_size_le le_rfl]
    rfl
  · rfl

theorem OwnsScans.add (hl : OwnsScans g ds) (he : e.firstDomain? = none) :
    OwnsScans (g.add e).2 ds :=
  hl.grow he (size_add ..) firstDomain?_add

theorem OwnsScans.write (hl : OwnsScans g (d :: ds)) (hfirst : d'.firstDomain? = d.firstDomain?) :
    OwnsScans g (d' :: ds) := by
  refine hl.of_same le_rfl (fun _ => rfl) (Perm.of_eq ?_)
  rw [filterMap_cons, filterMap_cons, hfirst]

theorem OwnsScans.addCondition (hl : OwnsScans g ds) (cs : List NodeId) :
    OwnsScans (g.addCondition cs).2 ds := by
  unfold Graph.addCondition
  split
  · exact hl
  · exact hl
  · exact hl.add rfl

section
variable (hl : OwnsScans g (d :: ds))
include hl

theorem OwnsScans.restrict (condition : NodeId) :
    OwnsScans (d.restrict g condition).2 ((d.restrict g condition).1 :: ds) := by
  rcases restrict_cases d g condition with ⟨args, hcall, heq⟩ | heq
  · rw [heq]
    refine hl.of_same (Nat.le_of_eq (size_dissolve ..).symm) (fun p => ?_) (Perm.of_eq rfl)
    rw [expr_dissolve hcall]
    split
    · next hp =>
      rw [hp, hcall]
      rfl
    · rfl
  · rw [heq]
    exact hl.write rfl

/-- A draft that starts with a domain of its own has a FROM entry more. -/
theorem OwnsScans.addSource {table : Option String} (hlt : domain < g.size)
    (hnew : d.sources = [] → (∀ p, (g.expr p).firstDomain? ≠ some domain) ∧
      domain ∉ ds.filterMap BlockDraft.firstDomain?) :
    OwnsScans (d.addSource g domain name table).2.2 ((d.addSource g domain name table).2.1 :: ds) := by
  refine OwnsScans.add (e := .var { name := "$" ++ name, kind := .row }) ?_ rfl
  cases hsources : d.sources with
  | nil =>
    have hfirst : (d.addSource g domain name table).2.1.firstDomain? = some domain := by
      simp [BlockDraft.addSource, BlockDraft.firstDomain?, hsources]
    have hnone : d.firstDomain? = none := by simp [BlockDraft.firstDomain?, hsources]
    obtain ⟨hblocks, hdrafts⟩ := hnew hsources
    have hnodup := hl.drafts_nodup
    have hne := hl.drafts_ne
    rw [filterMap_cons_none hnone] at hnodup hne
    refine ⟨hl.inj, ?_, ?_⟩
    · rw [filterMap_cons_some hfirst]
      exact nodup_cons.2 ⟨hdrafts, hnodup⟩
    · rw [filterMap_cons_some hfirst]
      intro v hv
      rcases mem_cons.1 hv with rfl | hv
      · exact ⟨hlt, hblocks⟩
      · exact hne v hv
  | cons first rest =>
    exact hl.write (by simp [BlockDraft.addSource, BlockDraft.firstDomain?, hsources])

theorem OwnsScans.rangeOver (hlt : domain < g.size)
    (hrange : d.rangeOver g domain name = .ok (var, d', h)) : OwnsScans h (d' :: ds) := by
  obtain ⟨hne, heq⟩ := rangeOver_eq_ok hrange
  cases heq
  exact hl.addSource hlt fun hnil => absurd hnil hne

/-- A draft starts with a scan that is new. -/
theorem OwnsScans.scanTable {table : String} {hints : List Hint} (hlaid : g.IsLaid)
    (hscan : d.scanTable g c table name hints = .ok (var, d', h)) : OwnsScans h (d' :: ds) := by
  obtain ⟨t, -, heq⟩ := scanTable_eq_ok hscan
  have hd' := congrArg (·.2.1) heq
  have hh := congrArg (·.2.2) heq
  dsimp only at hd' hh
  rw [hd', hh]
  refine (hl.add rfl).addSource (by rw [size_add]; exact Nat.lt_succ_self _) fun hnil => ?_
  have hold (p : NodeId) : (g.expr p).firstDomain? ≠ some g.size := fun hp => by
    obtain ⟨b, e, hb, he, hdomain⟩ := firstDomain?_eq_some.1 hp
    have hmem := domain_mem_children hb (mem_of_head? he)
    rw [hdomain] at hmem
    exact Nat.lt_asymm (hlaid.children_lt p _ hmem) (lt_size_of_block? hb)
  refine ⟨fun p => ?_, fun hmem => ?_⟩
  · rw [firstDomain?_add]
    split
    · exact fun h => by cases h
    · exact hold p
  · refine Nat.lt_irrefl _ (hl.drafts_ne g.size ?_).1
    obtain ⟨k, hk, hfirst⟩ := mem_filterMap.1 hmem
    exact mem_filterMap.2 ⟨k, .tail _ hk, hfirst⟩

/-- The block starts with what the draft started with. -/
theorem OwnsScans.build {id : NodeId} (hbuild : d.build g = .ok (id, h)) : OwnsScans h ds := by
  obtain ⟨hne, heq⟩ := BlockDraft.build_eq_ok.1 hbuild
  have hk := hl.addCondition d.conjuncts
  obtain rfl : h = _ := congrArg Prod.snd heq
  generalize (g.addCondition d.conjuncts).1 = condition
  generalize (g.addCondition d.conjuncts).2 = k at hk
  obtain ⟨first, rest, hcons⟩ := exists_cons_of_ne_nil hne
  have hdraft : d.firstDomain? = some first.entry.domain := by
    simp [BlockDraft.firstDomain?, hcons]
  have hblock : (Expr.block (d.block condition)).firstDomain? = some first.entry.domain := by
    simp [Expr.firstDomain?, Block.firstDomain?, BlockDraft.block, hcons]
  have hnodup := hk.drafts_nodup
  have hother := hk.drafts_ne
  rw [filterMap_cons_some hdraft] at hnodup hother
  obtain ⟨hfresh, hnodup⟩ := nodup_cons.1 hnodup
  have hown := (hother _ (.head _)).2
  refine ⟨fun p q v hp hq => ?_, hnodup, fun v hv => ?_⟩
  · rw [firstDomain?_addDeclaring] at hp hq
    split at hp <;> split at hq
    · next h₁ h₂ => exact h₁.trans h₂.symm
    · rw [hblock] at hp
      exact absurd (hq.trans hp.symm) (hown q)
    · rw [hblock] at hq
      exact absurd (hp.trans hq.symm) (hown p)
    · exact hk.inj p q v hp hq
  · obtain ⟨hlt, hv'⟩ := hother v (.tail _ hv)
    refine ⟨by rw [size_addDeclaring]; exact Nat.lt_succ_of_lt hlt, fun p => ?_⟩
    rw [firstDomain?_addDeclaring]
    split
    · rw [hblock]
      rintro ⟨⟩
      exact hfresh hv
    · exact hv' p

end

theorem OwnsScans.step {l l' : Layout} (hl : OwnsScans l.graph l.drafts) (hlaid : l.graph.IsLaid)
    (hs : Step c l l') : OwnsScans l'.graph l'.drafts := by
  cases hs with
  | @value _ _ _ e hvalue _ => exact hl.add (by cases e <;> first | rfl | cases hvalue)
  | external name t =>
    exact (hl.add (e := .var { name := name, kind := .external _ t }) rfl).of_same le_rfl
      (fun _ => rfl) (Perm.refl _)
  | contextVar name kind hlt => exact hl.add rfl
  | @pathStep _ _ _ _ e hstep hlt hctx =>
    exact hl.grow (e := e) (by cases e <;> first | rfl | cases hstep) (size_addDeclaring ..)
      firstDomain?_addDeclaring
  | root hlt => exact hl.of_same le_rfl (fun _ => rfl) (Perm.refl _)
  | @locate g _ _ id l =>
    have hs : SameLinks g (g.setLocation id l) := .setLocation id l
    exact hl.of_same hs.size_eq.symm.le hs.firstDomain?_eq (Perm.refl _)
  | draft => exact hl.of_same le_rfl (fun _ => rfl) (Perm.refl _)
  | reorder hperm =>
    exact hl.of_same le_rfl (fun _ => rfl) (hperm.symm.filterMap _)
  | scanTable hscan => exact hl.scanTable hlaid hscan
  | rangeOver hlt hrange => exact hl.rangeOver hlt hrange
  | column hlt hcolumn =>
    cases column_eq_ok hcolumn
    exact hl.add rfl
  | restrict hlt => exact hl.restrict _
  | select hlt hselect =>
    unfold BlockDraft.addSelect at hselect
    split at hselect
    · cases ok_of_locateFailure hselect
    · cases hselect
      exact hl.write rfl
  | star => exact hl.write rfl
  | sort spec hlt => exact hl.write rfl
  | offset hlt => exact hl.write rfl
  | limit hlt => exact hl.write rfl
  | locateDraft l => exact hl.write rfl
  | build hbuild => exact hl.build hbuild

theorem IsReached.ownsScans {l : Layout} (hl : IsReached c l) : OwnsScans l.graph l.drafts := by
  induction hl with
  | refl =>
    have hnone (p : NodeId) : (({} : Graph).expr p).firstDomain? = none := by
      rw [expr_of_size_le (Nat.zero_le p)]
      rfl
    refine ⟨fun p q v hp _ => ?_, nodup_nil, fun v hv => by cases hv⟩
    rw [hnone] at hp
    cases hp
  | tail hl hs ih => exact ih.step (IsReached.isSound hl).laid hs

/-- No two blocks start with the same scan. -/
theorem IsReached.firstDomain_inj {l : Layout} (hl : IsReached c l) {p q v : NodeId}
    (hp : (l.graph.expr p).firstDomain? = some v) (hq : (l.graph.expr q).firstDomain? = some v) :
    p = q :=
  hl.ownsScans.inj p q v hp hq

end Layout

end ShardedQuery
