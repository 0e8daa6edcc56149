import ShardedQuery.Proofs.Access.Dropped
import ShardedQuery.Proofs.Access.Order
import ShardedQuery.Proofs.Layout.Scans
import ShardedQuery.Proofs.Passes
import ShardedQuery.Proofs.Split.Step
import ShardedQuery.Proofs.Split.Types

/-!
# What a boundary takes for duplicates

A boundary that knows key columns keeps one record of each key. It has them because the scan of the
block below it goes through an index that may bring up a row more than once. That block can give
several records of one row in its own right, though, if a further FROM entry ranges over many items.
`Pass.keyed_boundary` says when it does not: every such entry went with the access path, which takes a
variable that nothing but pushed conditions uses.
-/

namespace ShardedQuery

open ShardedQuery.Graph List

variable {g : Graph} {path : AccessPath} {a : Analysis} {c : Catalog} {todo : List NodeId}
  {block : NodeId} {S : NodeId → Prop} {o : Options} {t : Table}

/-! ## Choosing an access path -/

namespace Selection

theorem rowsFrom_makeEmpty (hlt : block < g.size) :
    RowsFrom block (fun _ => False) g (makeEmpty g block) := by
  intro v _ hrows
  rw [expr_makeEmpty hlt]
  split
  · exact ⟨_, .redirect (.inl rfl) le_rfl, rfl⟩
  · exact ⟨_, .id, (g.expr v).mapChildren_id.symm⟩

end Selection

namespace Analysis

variable {w : Weights} {site : Site}

/-- An analysis marks what may bring up a row more than once. -/
theorem dedup_of_run (hrun : run g t w site path = .ok (some a)) : a.dedup = a.needsDedup := by
  obtain ⟨ps, -, hrun⟩ := ok_of_bind hrun
  split at hrun
  · cases hrun
  · cases hrun
    rfl

/-- An index that has one entry for each row brings up no row twice. -/
theorem isMultiKey_of_needsDedup (h : a.needsDedup) : a.path.isMultiKey := by
  unfold needsDedup at h
  split at h
  · cases h
  · next hnot => simpa using hnot

/-- A variable that is still used is not absorbed. -/
theorem IsFound.not_absorbed {v : NodeId} (hfound : a.IsFound g t w site path)
    (hv : v ∈ a.retained) : v ∉ a.absorbed := by
  rw [hfound.retained_eq] at hv
  rw [hfound.absorbed_eq]
  intro hv'
  have hused := (mem_filter.1 hv).2
  have hfree := (mem_filter.1 hv').2
  dsimp only at hfree
  rw [hused] at hfree
  cases hfree

end Analysis

/-! ## Passes -/

namespace Pass

/-- When its access path was chosen in `g`, by the analysis `a`, the block could bring up a row more
than once, and it was left with `kept` of its further FROM entries `rest`. -/
structure IsThinned (c : Catalog) (o : Options) (start : Graph) (block : NodeId) (a : Analysis)
    (g : Graph) (first : FromEntry) (rest kept : List FromEntry) : Prop where
  reached : ∃ todo, Reaches c o .indexSelection start .indexSelection (block :: todo) g
  decided : ∃ t sort,
    Selection.decide g c o block = .ok (.access t ⟨block, first.var⟩ first.domain a sort)
  repeats : a.needsDedup
  entries_eq : ∃ b, g.block? block = some b ∧ b.entries = first :: rest
  kept_sublist : kept.Sublist rest
  dropped : ∀ e ∈ rest, e ∉ kept →
    (g.exprType e.domain).quantifier = .one ∨ e.var ∈ a.absorbed
  not_absorbed : ∀ e ∈ rest, e.var ∈ a.retained → e.var ∉ a.absorbed

/-- The block has the FROM variables `vars` since its access path was chosen. -/
def Thinned (c : Catalog) (o : Options) (start : Graph) (block : NodeId) (vars : List NodeId) : Prop :=
  ∃ a g first rest kept, IsThinned c o start block a g first rest kept ∧
    vars = (first :: kept).map (·.var)

/-- A scan is the first one of a single block, and a scan is marked only if that was decided for its
block. -/
structure IsMarked (c : Catalog) (o : Options) (start g : Graph) : Prop where
  inj : ∀ p q v s, (g.expr p).firstDomain? = some v → (g.expr q).firstDomain? = some v →
    g.scan? v = some s → p = q
  marked : ∀ p v s, (g.expr p).firstDomain? = some v → g.scan? v = some s → s.dedup →
    Thinned c o start p (g.expr p).declared

/-- A boundary that knows key columns is over a block that was handled and whose scan is marked. -/
def IsKeyed (c : Catalog) (o : Options) (start : Graph) (todo : List NodeId) (g : Graph) : Prop :=
  ∀ p r, g.expr p = .receive r → r.keyPositions ≠ [] → r.input ∉ todo ∧
    ∃ b, g.block? r.input = some b ∧ Thinned c o start r.input (b.entries.map (·.var))

section
variable {start h : Graph} {E : NodeId → Prop}

/-- Marks are kept where a block is handled, if they are right at the block. -/
theorem IsMarked.step (hg : IsMarked c o start g) (hrows : RowsFrom block E g h)
    (hself : ∀ v, E v → E block)
    (hblocks : ∀ p v s, E p → (h.expr p).firstDomain? = some v → h.scan? v = some s →
      (g.expr p).firstDomain? = some v ∧ (s.dedup → Thinned c o start p (h.expr p).declared))
    (hscans : ∀ v s, E v → h.scan? v = some s →
      (g.expr block).firstDomain? = some v ∧ ∃ s₀, g.scan? v = some s₀) : IsMarked c o start h := by
  have hscan (v : NodeId) (s : TableScan) (hs : h.scan? v = some s) : ∃ s₀, g.scan? v = some s₀ := by
    by_cases hE : E v
    · exact (hscans v s hE hs).2
    · exact (hrows.scan hE hs).imp fun _ hs => hs.1
  have hfirst (p v : NodeId) (s : TableScan) (hp : (h.expr p).firstDomain? = some v)
      (hs : h.scan? v = some s) : (g.expr p).firstDomain? = some v := by
    by_cases hE : E p
    · exact (hblocks p v s hE hp hs).1
    · obtain ⟨s₀, hs₀⟩ := hscan v s hs
      exact (hrows.firstDomain? hE hp (lt_size_of_scan? hs₀)).1
  refine ⟨fun p q v s hp hq hs => ?_, fun p v s hp hs hdedup => ?_⟩
  · obtain ⟨s₀, hs₀⟩ := hscan v s hs
    exact hg.inj p q v s₀ (hfirst p v s hp hs) (hfirst q v s hq hs) hs₀
  · by_cases hEp : E p
    · exact (hblocks p v s hEp hp hs).2 hdedup
    · have hEv : ¬ E v := fun hEv => by
        obtain ⟨hblock, s₀, hs₀⟩ := hscans v s hEv hs
        exact hEp (hg.inj p block v s₀ (hfirst p v s hp hs) hblock hs₀ ▸ hself v hEv)
      obtain ⟨s₀, hs₀, heq⟩ := hrows.scan hEv hs
      obtain ⟨hp', hdeclared⟩ :=
        hrows.firstDomain? hEp hp (lt_size_of_scan? hs₀)
      rw [hdeclared]
      exact hg.marked p v s₀ hp' hs₀ (heq ▸ hdedup)

/-- The decision for a block marks its scan if the block may bring up a row more than once. -/
theorem exists_thinned {b : Block} {first : FromEntry} {s : TableScan} {sort : SortUse}
    (hreach : Reaches c o .indexSelection start .indexSelection (block :: todo) g)
    (hs : IsSelecting c S (block :: todo) g) (hdecide : Selection.decide g c o block =
      .ok (.access t ⟨block, first.var⟩ first.domain a sort))
    (hrun : Analysis.run g t o.weights ⟨block, first.var⟩ path = .ok (some a))
    (hb : g.block? block = some b) (hhead : b.entries.head? = some first)
    (hscan : g.scan? first.domain = some s)
    (hh : h = Selection.carryOut g block (.access t ⟨block, first.var⟩ first.domain a sort)) :
    ∃ b' s', h.block? block = some b' ∧ b'.entries.head? = some first ∧
      h.scan? first.domain = some s' ∧
      (s'.dedup → Thinned c o start block (b'.entries.map (·.var))) := by
  obtain ⟨rest, hentries⟩ := head?_eq_some_iff.1 hhead
  have hfound := Analysis.isFound_of_run hrun
  have hS := hs.todo_mem block (.head _)
  obtain ⟨kept, b₁, hb₁, hentries₁, hsub, hdropped⟩ := Analysis.block?_apply_kept (t := t)
    hfound hs.toWellTyped hS hb hscan hentries
  obtain ⟨⟨b', hb', heq⟩, reverse, hs'⟩ :=
    Selection.carryOut_access hb₁ (a.scan?_apply t hscan) sort
  rw [hentries₁] at heq
  rw [hh]
  refine ⟨b', _, hb', by rw [heq]; rfl, hs', fun hmark => ?_⟩
  have hrepeats : a.needsDedup := by
    rw [← Analysis.dedup_of_run hrun]
    exact hmark
  rw [heq]
  exact ⟨a, g, first, rest, kept, ⟨⟨todo, hreach⟩, ⟨t, sort, hdecide⟩, hrepeats, ⟨b, hb, hentries⟩,
    hsub, hdropped, fun e _ he => hfound.not_absorbed he⟩, rfl⟩

/-- A scan is marked when its access path is chosen. -/
theorem IsMarked.select (hg : IsMarked c o start g)
    (hreach : Reaches c o .indexSelection start .indexSelection (block :: todo) g)
    (hs : IsSelecting c S (block :: todo) g) (hnone : ∀ p r, g.expr p ≠ .receive r)
    (hselect : Selection.select c o g block = .ok h) :
    IsMarked c o start h ∧ ∀ p r, h.expr p ≠ .receive r := by
  obtain ⟨sel, hdecide, hh⟩ := Selection.select_eq_ok.1 hselect
  rcases Selection.decide_cases hdecide with
    rfl | ⟨b, first, s, t, hb, hhead, hscan, -, rfl | ⟨path, a, sort, hrun, -, -, rfl⟩⟩
  · cases hh
    exact ⟨hg, hnone⟩
  · have hrows : RowsFrom block (fun _ => False) g h :=
      hh ▸ Selection.rowsFrom_makeEmpty (lt_size_of_block? hb)
    refine ⟨hg.step hrows (fun _ h => h) (fun _ _ _ h => h.elim) fun _ _ h => h.elim, ?_⟩
    intro p r hp
    obtain ⟨r', hr', -⟩ := hrows.receive id hp
    exact hnone p r' hr'
  · obtain ⟨b', s', hb', hhead', hs', hthinned⟩ :=
      exists_thinned hreach hs hdecide hrun hb hhead hscan hh.symm
    have hexpr := block?_eq_some.1 hb'
    have hexpr' := scan?_eq_some.1 hs'
    have hrows : RowsFrom block (fun v => v = block ∨ v = first.domain) g h :=
      hh ▸ ((a.rewrites_grownGraph g).trans (Selection.rewrites_carryOut first.var a t sort)).rowsFrom
    have hfirst : (g.expr block).firstDomain? = some first.domain :=
      firstDomain?_eq_some.2 ⟨b, first, hb, hhead, rfl⟩
    refine ⟨hg.step hrows (fun _ _ => .inl rfl) ?_ ?_, fun p r hp => ?_⟩
    · rintro p v u (rfl | rfl) hp hu
      · rw [hexpr, Expr.firstDomain?, Block.firstDomain?, hhead'] at hp
        cases hp
        cases hs'.symm.trans hu
        rw [hexpr]
        exact ⟨hfirst, hthinned⟩
      · rw [hexpr'] at hp
        cases hp
    · rintro v u (rfl | rfl) hu
      · rw [scan?, hexpr] at hu
        cases hu
      · exact ⟨hfirst, s, hscan⟩
    · by_cases hE : p = block ∨ p = first.domain
      · rcases hE with rfl | rfl
        · rw [hexpr] at hp
          cases hp
        · rw [hexpr'] at hp
          cases hp
      · obtain ⟨r', hr', -⟩ := hrows.receive hE hp
        exact hnone p r' hr'

section
variable {x : SplitSite} (hg : IsMarked c o start g) (hx : x.IsScanned g) (hk : x.KeepsRows g h)
include hg hx hk

/-- Splitting a block leaves its FROM entries and its scan alone. -/
theorem IsMarked.split : IsMarked c o start h := by
  obtain ⟨b, hb, hentries⟩ := hk.block_eq
  obtain ⟨first, hhead, -, hscan⟩ := hx.entry
  have hexpr := block?_eq_some.1 hb
  have hfirst : (g.expr x.block).firstDomain? = some first.domain :=
    firstDomain?_eq_some.2 ⟨x.b, first, hx.block_eq, hhead, rfl⟩
  refine hg.step hk.rowsFrom (fun _ _ => .inl rfl) ?_ fun v s hE hs =>
    absurd hE (hk.old_of_scan? hs)
  rintro p v s (rfl | hge) hp hs
  · rw [hexpr, Expr.firstDomain?, Block.firstDomain?, hentries, hhead] at hp
    cases hp
    obtain ⟨s₀, hs₀, hdedup⟩ := hk.rowsFrom.scan (hk.old_of_scan? hs) hs
    refine ⟨hfirst, fun hmark => ?_⟩
    have hthinned := hg.marked x.block first.domain s₀ hfirst hs₀ (hdedup ▸ hmark)
    rwa [block?_eq_some.1 hx.block_eq, Expr.declared, ← hentries, ← Expr.declared, ← hexpr] at hthinned
  · exact absurd (.inr (Nat.le_of_eq (hk.eq_of_firstDomain? hge hp).symm)) (hk.old_of_scan? hs)

/-- A boundary gets key columns if the scan of its block is marked. -/
theorem IsMarked.keyed_split (hkeyed : IsKeyed c o start (x.block :: todo) g)
    (hfresh : x.block ∉ todo) : IsKeyed c o start todo h := by
  intro p r hp hkeys
  by_cases hE : p = x.block ∨ g.size ≤ p
  · obtain ⟨b, hb, hentries⟩ := hk.block_eq
    rcases hE with rfl | hge
    · rw [block?_eq_some.1 hb] at hp
      cases hp
    · obtain ⟨r₀, hboundary, hinput, hmark⟩ := hk.boundary
      rw [hk.eq_boundary hge hp, hboundary, Expr.receive.injEq] at hp
      rw [← hp] at hkeys ⊢
      obtain ⟨first, hhead, -, hscan⟩ := hx.entry
      have hthinned := hg.marked x.block first.domain x.scan
        (firstDomain?_eq_some.2 ⟨x.b, first, hx.block_eq, hhead, rfl⟩) hscan (hmark hkeys)
      rw [block?_eq_some.1 hx.block_eq, Expr.declared, ← hentries] at hthinned
      rw [hinput]
      exact ⟨hfresh, b, hb, hthinned⟩
  · -- Another block is below the boundary, and stays there.
    obtain ⟨r₁, hr₁, hkeys₁, hinput₁⟩ := hk.rowsFrom.receive hE hp
    obtain ⟨hnot, b₁, hb₁, hthinned⟩ := hkeyed p r₁ hr₁ (hkeys₁ ▸ hkeys)
    rw [mem_cons, not_or] at hnot
    have hlt := lt_size_of_block? hb₁
    rw [hinput₁ hlt hnot.1]
    obtain ⟨f, -, hf⟩ := hk.old r₁.input hlt hnot.1
    rw [block?_eq_some.1 hb₁, Expr.mapChildren_block] at hf
    refine ⟨hnot.2, _, block?_eq_some.2 hf, ?_⟩
    rwa [Block.mapSlots, map_map]

end

theorem IsKeyed.skip (hkeyed : IsKeyed c o start (block :: todo) g) : IsKeyed c o start todo g :=
  fun p r hp hkeys => (hkeyed p r hp hkeys).imp_left fun hnot hmem =>
    hnot (.tail _ hmem)

end

/-- What holds of marks and key columns wherever passes come to. -/
def Accounts (c : Catalog) (o : Options) (start : Graph) : Pass → List NodeId → Graph → Prop
  | .indexSelection, _, g => IsMarked c o start g ∧ ∀ p r, g.expr p ≠ .receive r
  | .distribution, todo, g => IsMarked c o start g ∧ IsKeyed c o start todo g

theorem Reaches.accounts {p : Pass} {l : Layout} {root : NodeId} (hl : l.IsReached c)
    (hroot : l.graph.root = some root) (hg : Reaches c o .indexSelection l.graph p todo g) :
    Accounts c o l.graph p todo g := by
  induction hg with
  | start =>
    have hshape := (hl.isSound.laid.infers_inferTypes hroot).shape
    have hadmits (v : NodeId) : c.Admits (l.graph.inferTypes.expr v) :=
      hshape.expr_eq v ▸ hl.isSound.admits v
    refine ⟨⟨fun p q v s hp hq _ => ?_, fun p v s _ hs hdedup => ?_⟩, fun p r hp => ?_⟩
    · rw [hshape.expr_eq] at hp hq
      exact hl.firstDomain_inj hp hq
    · have hlists := hadmits v
      rw [scan?_eq_some.1 hs] at hlists
      obtain ⟨t, -, heq⟩ := hlists
      rw [heq] at hdedup
      cases hdedup
    · have hnone := hadmits p
      rwa [hp] at hnone
  | @skip p _ _ _ _ _ ih =>
    cases p with
    | indexSelection => exact ih
    | distribution => exact ⟨ih.1, ih.2.skip⟩
  | @edit p _ _ _ _ hg hlive hedit ih =>
    have hsteady := hg.isSteady hl hroot
    cases p with
    | indexSelection =>
      obtain ⟨S, hS⟩ := hsteady
      exact ih.1.select hg hS ih.2 hedit
    | distribution =>
      obtain ⟨S, hS⟩ := hsteady
      rcases Split.splitOne_cases hS.toSound hlive hedit with rfl | ⟨x, t, hx, rfl, -, -, rfl⟩
      · exact ⟨ih.1, ih.2.skip⟩
      · have hk := hx.keepsRows_splitOne hS.toSound
        exact ⟨ih.1.split hx hk, ih.1.keyed_split hx hk ih.2 (nodup_cons.1 hS.todo_nodup).1⟩
  | next _ ih => exact ⟨ih.1, fun p r hp => absurd hp (ih.2 p r)⟩

/-- A boundary with key columns is over a block whose access path may bring up a row more than once,
by an index that has many entries for a row. The FROM entries of the block are its scan and those
that were kept then; a variable that was retained stays if it ranges over many items. So the block
gives at most one record for each row just if every entry that ranges over many items was absorbed
and dropped. -/
theorem keyed_boundary {c : Catalog} {o : Options} {l : Layout} {root : NodeId} {h : Graph}
    {boundary : NodeId} {r : Receive} (hl : l.IsReached c) (hroot : l.graph.root = some root)
    (hh : optimize c o all l.graph = (h, .ok ()))
    (hr : h.expr boundary = .receive r) (hkeys : r.keyPositions ≠ []) :
    ∃ a g first rest kept b, IsThinned c o l.graph r.input a g first rest kept ∧
      a.path.isMultiKey ∧ h.block? r.input = some b ∧
      b.entries.map (·.var) = (first :: kept).map (·.var) ∧
      (∀ e ∈ rest, e.var ∈ a.retained → (g.exprType e.domain).isScalar = false → e ∈ kept) ∧
      ((∀ e ∈ kept, (g.exprType e.domain).isScalar) ↔ ∀ e ∈ rest,
        (g.exprType e.domain).isScalar = false → e.var ∈ a.absorbed ∧ e ∉ kept) := by
  obtain ⟨-, hkeyed⟩ := (Reaches.of_optimize hh).accounts hl hroot
  obtain ⟨-, b, hb, a, g, first, rest, kept, hthin, hvars⟩ := hkeyed boundary r hr hkeys
  -- What ranges over many items goes only if it is absorbed.
  have hgone : ∀ e ∈ rest, (g.exprType e.domain).isScalar = false → e ∉ kept →
      e.var ∈ a.absorbed := by
    intro e he hmany hnot
    refine (hthin.dropped e he hnot).resolve_left fun hone => ?_
    rw [SeqType.isScalar, hone] at hmany
    cases hmany
  refine ⟨a, g, first, rest, kept, b, hthin, Analysis.isMultiKey_of_needsDedup hthin.repeats, hb,
    hvars, fun e he hretained hmany => ?_, fun hscalar e he hmany => ?_, fun hmany e he => ?_⟩
  · by_contra hnot
    exact hthin.not_absorbed e he hretained (hgone e he hmany hnot)
  · have hnot : e ∉ kept := fun hkept => by
      rw [hscalar e hkept] at hmany
      cases hmany
    exact ⟨hgone e he hmany hnot, hnot⟩
  · refine Bool.of_not_eq_false fun hnot => ?_
    exact (hmany e (hthin.kept_sublist.subset he) hnot).2 he

/-! ### A query that unnests what it selects -/

theorem isBuilt_arrayTable : arrayTable.IsBuilt :=
  ⟨"t", [.field "id" .integer, .field "arr" (.array .integer), .primaryKey ["id"],
    .index "arr" ["arr[]"]], _, rfl, by decide +kernel⟩

/-- `SELECT id, u FROM t, t.arr[] AS u WHERE u > 5 LIMIT 10`. -/
def largeElements : Layout :=
  Layout.script ⟨[arrayTable]⟩
    [.draft, .scanTable "t" "t" [], .value (.field 1 "arr"), .pathStep (.filter 2 none []),
      .rangeOver 3 "u", .value (.literal (.integer 5)), .value (.call (.compare .gt false) [4, 5]),
      .restrict 6, .value (.field 1 "id"), .select "id" 7, .select "u" 4,
      .value (.literal (.integer 10)), .limit 8, .build, .root 9]

/-- The block of the query when its access path is chosen: the scan goes through the index. -/
def largeElementsSite : SplitSite where
  block := 9
  rowVar := 1
  b :=
    { entries := [⟨0, 1⟩, ⟨3, 4⟩], condition := some 6, select := [⟨"id", 7⟩, ⟨"u", 4⟩],
      limit := some 8 }
  scan :=
    { table := "t", rowType := arrayTable.rowType, index := some "arr",
      range := some ⟨0, some 5, false, none, false⟩, dedup := true }
  key := ["id"]

theorem exists_reaches_largeElements : ∃ g,
    Reaches ⟨[arrayTable]⟩ {} .indexSelection largeElements.graph .distribution [9] g ∧
      g.size = 10 ∧ largeElementsSite.IsScanned g ∧ g.type? 3 = some (.star .integer) := by
  obtain ⟨k, hk⟩ : ∃ k, selectIndexes ⟨[arrayTable]⟩ {} largeElements.graph.inferTypes = k :=
    ⟨_, rfl⟩
  have hok : k.2.isOk := hk ▸ by decide +kernel
  have htodo : k.1.queryBlocks = [9] := hk ▸ by decide +kernel
  have hsize : k.1.size = 10 := hk ▸ by decide +kernel
  have hlive : k.1.isLive 9 := hk ▸ by decide +kernel
  have hblock : k.1.block? 9 = some largeElementsSite.b := hk ▸ by decide +kernel
  have hscan : k.1.scan? 0 = some largeElementsSite.scan := hk ▸ by decide +kernel
  have htype : k.1.type? 3 = some (.star .integer) := hk ▸ by decide +kernel
  rcases k with ⟨g, _ | ⟨⟩⟩
  · cases hok
  · have hstart : Reaches ⟨[arrayTable]⟩ {} .indexSelection largeElements.graph _ _ _ := .start
    have hnext := (hstart.of_editBlocks hk).next
    rw [htodo] at hnext
    exact ⟨g, hnext, hsize, ⟨hblock, hlive, _, rfl, rfl, hscan⟩, htype⟩

/-- The boundary gets the key column, since the index brings up a row for each of its elements, but
the variable over the elements stays, since it is selected. -/
theorem exists_optimize_largeElements : ∃ h r b,
    optimize ⟨[arrayTable]⟩ {} all largeElements.graph = (h, .ok ()) ∧
      h.expr 10 = .receive r ∧ r.keyPositions ≠ [] ∧ h.block? r.input = some b ∧
      b.entries = [⟨0, 1⟩, ⟨3, 4⟩] ∧ (h.exprType 3).isScalar = false := by
  obtain ⟨g, hreach, hsize, hx, htype⟩ := exists_reaches_largeElements
  obtain ⟨S, hS⟩ := hreach.isSteady (Layout.isReached_script _ _) (by decide +kernel : _ = some 9)
  have hin := hx.isIn hS.toSound
  obtain ⟨expanded, server, hp⟩ := hin.exists_server
  obtain ⟨b, hb, hentries⟩ := (hx.keepsRows_result hS.toSound).block_eq
  obtain ⟨_, he, -, hscan⟩ := hx.entry
  cases he
  have hsplit : Split.splitOne ⟨[arrayTable]⟩ g 9 = .ok (largeElementsSite.result g) :=
    Split.splitOne_eq hin rfl hscan rfl rfl rfl rfl
  have hboundary := SplitSite.expr_result_boundary hin hp
  rw [hsize] at hboundary
  refine ⟨_, _, b, ?_, hboundary, fun hnil => ?_, hb, hentries, ?_⟩
  · rw [(hreach.edit hx.live hsplit).optimize_eq]
    rfl
  · have hlength := hp.keys.length_eq
    have hnil : (largeElementsSite.server g).keyPositions = [] := hnil
    rw [hnil] at hlength
    cases hlength
  · obtain ⟨rank, ho⟩ := hS.ordered
    have hblock : S 9 := hS.todo_mem 9 (.head _)
    have hexpr : g.expr 9 = .block largeElementsSite.b := block?_eq_some.1 hx.block_eq
    have hchild : 3 ∈ g.children 9 := by
      rw [children, hexpr]
      decide
    have hrank : rank 3 < rank 9 := ho.rank_lt 9 3 (mem_uses_of_child (by rw [hexpr]; rfl) hchild)
    rw [hx.exprType_result (hx.withRowVar hS.toMaintained hblock) (.inl hblock) hS.scans ho
      (.inr rfl) (.inl (hS.closed 9 hblock 3 (.inl hchild))) hrank, exprType_of_kept htype]
    rfl

/-- The boundary over the query of large elements has a key column. -/
theorem keyed_boundary_largeElements : ∃ h r a g first rest kept,
    optimize ⟨[arrayTable]⟩ {} all largeElements.graph = (h, .ok ()) ∧ h.expr 10 = .receive r ∧
      r.keyPositions ≠ [] ∧
      IsThinned ⟨[arrayTable]⟩ {} largeElements.graph r.input a g first rest kept ∧
      ((∀ e ∈ kept, (g.exprType e.domain).isScalar) ↔ ∀ e ∈ rest,
        (g.exprType e.domain).isScalar = false → e.var ∈ a.absorbed ∧ e ∉ kept) := by
  obtain ⟨h, r, -, hrun, hr, hkeys, -⟩ := exists_optimize_largeElements
  obtain ⟨a, g, first, rest, kept, -, hthin, -, -, -, -, hiff⟩ := keyed_boundary
    (Layout.isReached_script _ _) (by decide +kernel : largeElements.graph.root = some 9) hrun hr hkeys
  exact ⟨h, r, a, g, first, rest, kept, hrun, hr, hkeys, hthin, hiff⟩

/-- A row with the array `[6, 7]` gives two records of one key there. The boundary keeps one of
them, although the block ranges over the elements. -/
theorem keyed_boundary_over_many : arrayTable.IsBuilt ∧
    largeElements.IsReached ⟨[arrayTable]⟩ ∧ ∃ h r b e,
      optimize ⟨[arrayTable]⟩ {} all largeElements.graph = (h, .ok ()) ∧
      h.expr 10 = .receive r ∧ r.keyPositions ≠ [] ∧ h.block? r.input = some b ∧
      e ∈ b.entries.tail ∧ (h.exprType e.domain).isScalar = false := by
  obtain ⟨h, r, b, hrun, hr, hkeys, hb, hentries, hmany⟩ := exists_optimize_largeElements
  refine ⟨isBuilt_arrayTable, Layout.isReached_script _ _, h, r, b, ⟨3, 4⟩, hrun, hr, hkeys, hb, ?_,
    hmany⟩
  rw [hentries]
  exact mem_singleton_self _

end Pass

end ShardedQuery
