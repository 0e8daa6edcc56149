import ShardedQuery.Compiler
import ShardedQuery.Proofs.Graph.Inference
import ShardedQuery.Proofs.Layout
import ShardedQuery.Proofs.Split.Locality

/-!
# Passes over a query

A pass handles the blocks of a query one after another. `Pass.Reaches` says where passes come to, and
`Pass.Reaches.isSteady` says what holds there: types are settled, scans are of tables of the catalog
and use what is local, and the blocks that are still to be handled select fields of different names.
-/

namespace ShardedQuery

open ShardedQuery.Graph List

variable {g h : Graph} {c : Catalog} {todo : List NodeId} {o : Options} {root : NodeId} {p : Pass}

/-! ## Runs -/

namespace Pass

/-- What a pass does with one block. -/
def edit (c : Catalog) (o : Options) : Pass → Graph → NodeId → Except CompileError Graph
  | indexSelection => Selection.select c o
  | distribution => Split.splitOne c

theorem run_eq (c : Catalog) (o : Options) (g : Graph) (p : Pass) :
    p.run c o g = editBlocks (p.edit c o) g.queryBlocks g := by
  cases p <;> rfl

/-- From the query `start` on, without a failure, pass `p` comes to the graph `g` with the blocks of
`todo` still to be handled. The pass `first` is the first one. -/
inductive Reaches (c : Catalog) (o : Options) (first : Pass) (start : Graph) :
    Pass → List NodeId → Graph → Prop
  | start : Reaches c o first start first start.inferTypes.queryBlocks start.inferTypes
  | skip {p : Pass} {block : NodeId} {todo : List NodeId} {g : Graph}
      (hg : Reaches c o first start p (block :: todo) g) (hdead : g.isLive block = false) :
    Reaches c o first start p todo g
  | edit {p : Pass} {block : NodeId} {todo : List NodeId} {g h : Graph}
      (hg : Reaches c o first start p (block :: todo) g) (hlive : g.isLive block)
      (hedit : p.edit c o g block = .ok h) :
    Reaches c o first start p todo h
  | next {g : Graph} (hg : Reaches c o first start .indexSelection [] g) :
    Reaches c o first start .distribution g.queryBlocks g

section
variable {first : Pass} {start : Graph} {e : CompileError}

/-- A pass that goes through has handled all blocks. -/
theorem Reaches.of_editBlocks (hg : Reaches c o first start p todo g)
    (hrun : editBlocks (p.edit c o) todo g = (h, .ok ())) : Reaches c o first start p [] h := by
  induction todo generalizing g with
  | nil =>
    cases hrun
    exact hg
  | cons block todo ih =>
    rw [editBlocks] at hrun
    split at hrun
    · next hlive =>
      split at hrun
      · next k hk => exact ih (hg.edit hlive hk) hrun
      · cases hrun
    · next hdead => exact ih (hg.skip (by simpa using hdead)) hrun

/-- The error that a block raises after all that came before it went well. -/
def RaisesFirst (c : Catalog) (o : Options) (start : Graph) (h : Graph) (e : CompileError) : Prop :=
  ∃ p block todo, Reaches c o .indexSelection start p (block :: todo) h ∧ h.isLive block ∧
    p.edit c o h block = .error e

/-- A pass that fails does so at the first block that raises an error. -/
theorem Reaches.raisesFirst (hg : Reaches c o .indexSelection start p todo g)
    (hrun : editBlocks (p.edit c o) todo g = (h, .error e)) : RaisesFirst c o start h e := by
  induction todo generalizing g with
  | nil => cases hrun
  | cons block todo ih =>
    rw [editBlocks] at hrun
    split at hrun
    · next hlive =>
      split at hrun
      · next k hk => exact ih (hg.edit hlive hk) hrun
      · next e' he' =>
        cases hrun
        exact ⟨p, block, todo, hg, hlive, he'⟩
    · next hdead => exact ih (hg.skip (by simpa using hdead)) hrun

/-- What follows when a pass is through. -/
def followUp (c : Catalog) (o : Options) :
    Pass → Graph × Except CompileError Unit → Graph × Except CompileError Unit
  | indexSelection, (g, .ok ()) => distribution.run c o g
  | _, r => r

/-- What is left to do at some point of a run through all passes. -/
def resume (c : Catalog) (o : Options) (p : Pass) (todo : List NodeId) (g : Graph) :
    Graph × Except CompileError Unit :=
  p.followUp c o (editBlocks (p.edit c o) todo g)

/-- Wherever a run has come to, it ends as what is left to do ends. -/
theorem Reaches.optimize_eq (hg : Reaches c o .indexSelection start p todo g) :
    optimize c o all start = resume c o p todo g := by
  induction hg with
  | start =>
    rw [optimize, all, runAll, run_eq, resume]
    rcases editBlocks (indexSelection.edit c o) start.inferTypes.queryBlocks start.inferTypes with
      ⟨k, _ | ⟨⟩⟩
    · rfl
    · simp only [runAll, followUp]
      rcases distribution.run c o k with ⟨k', _ | ⟨⟩⟩ <;> rfl
  | skip _ hdead ih => rw [ih, resume, editBlocks, if_neg (by simp [hdead]), resume]
  | edit _ hlive hedit ih => rw [ih, resume, editBlocks, if_pos hlive, hedit, resume]
  | next _ ih =>
    rw [ih, resume, editBlocks, followUp, run_eq, resume]
    rcases editBlocks (distribution.edit c o) _ _ with ⟨k, _ | ⟨⟩⟩ <;> rfl

theorem RaisesFirst.optimize_eq (h₁ : RaisesFirst c o start h e) :
    optimize c o all start = (h, .error e) := by
  obtain ⟨p, block, todo, hg, hlive, hedit⟩ := h₁
  rw [hg.optimize_eq, resume, editBlocks, if_pos hlive, hedit]
  cases p <;> rfl

/-- A query goes through all passes, or one of its blocks raises the first error. -/
theorem optimize_cases (c : Catalog) (o : Options) (start : Graph) :
    (∃ h, optimize c o all start = (h, .ok ()) ∧
        Reaches c o .indexSelection start .distribution [] h) ∨
      ∃ h e, optimize c o all start = (h, .error e) ∧ RaisesFirst c o start h e := by
  have hstart : Reaches c o .indexSelection start _ _ _ := .start
  rw [optimize, all, runAll, run_eq]
  rcases hselect : editBlocks (indexSelection.edit c o) start.inferTypes.queryBlocks
    start.inferTypes with ⟨k, _ | ⟨⟩⟩
  · exact .inr ⟨k, _, rfl, hstart.raisesFirst hselect⟩
  · have hk := (hstart.of_editBlocks hselect).next
    simp only [runAll, run_eq]
    rcases hsplit : editBlocks (distribution.edit c o) k.queryBlocks k with ⟨k', _ | ⟨⟩⟩
    · exact .inr ⟨k', _, rfl, hk.raisesFirst hsplit⟩
    · exact .inl ⟨k', rfl, hk.of_editBlocks hsplit⟩

theorem Reaches.of_optimize (hrun : optimize c o all start = (h, .ok ())) :
    Reaches c o .indexSelection start .distribution [] h := by
  rcases optimize_cases c o start with ⟨h', hrun', hreach⟩ | ⟨h', e, hrun', -⟩
  · cases hrun.symm.trans hrun'
    exact hreach
  · cases hrun.symm.trans hrun'

end

end Pass

/-! ## What runs keep -/

/-- Scans are of tables of the catalog. -/
def Catalog.Covers (c : Catalog) (g : Graph) : Prop :=
  ∀ v s, g.scan? v = some s → ∃ t, c.table s.table = .ok t ∧ s.rowType = t.rowType

theorem Catalog.Covers.of_keepsNames {E : NodeId → Prop} (hg : c.Covers g) (hk : KeepsNames E g h) :
    c.Covers h := by
  intro v s hs
  have htable := (hk.table_eq v).symm
  rw [scan?_eq_some.1 hs] at htable
  obtain ⟨s', hs', hname, htype⟩ := Expr.table?_eq_some.1 htable
  rw [← hname, ← htype]
  exact hg v s' (scan?_eq_some.2 hs')

namespace Pass

/-- What holds while access paths are chosen. -/
structure IsSelecting (c : Catalog) (S : NodeId → Prop) (todo : List NodeId) (g : Graph) : Prop
    extends g.WellTyped S where
  todo_mem : ∀ v ∈ todo, S v
  todo_nodup : todo.Nodup
  root_mem : ∃ r, g.root = some r ∧ S r
  scans : g.ScansLocally
  covers : c.Covers g
  names : ∀ v, (g.expr v).fieldNames.Nodup

/-- What holds while blocks are split. -/
structure IsSplitting (c : Catalog) (S : NodeId → Prop) (todo : List NodeId) (g : Graph) : Prop
    extends g.Maintained S [] where
  todo_mem : ∀ v ∈ todo, S v
  todo_nodup : todo.Nodup
  root_mem : ∃ r, g.root = some r ∧ S r
  scans : g.ScansLocally
  covers : c.Covers g
  names : ∀ v ∈ todo, (g.expr v).fieldNames.Nodup

section
variable {block : NodeId} {S : NodeId → Prop}

theorem mem_queryBlocks {v : NodeId} (hm : g.Maintained S []) (hroot : ∃ r, g.root = some r ∧ S r)
    (hv : v ∈ g.queryBlocks) : S v := by
  obtain ⟨r, hr, hS⟩ := hroot
  unfold queryBlocks at hv
  rw [hr] at hv
  exact mem_postorder_of_closed (fun v hv c hc => hm.closed v hv c (.inl hc)) hS
    (mem_filter.1 hv).1

theorem isSelecting_start {l : Layout} (hl : l.IsReached c) (hroot : l.graph.root = some root) :
    IsSelecting c l.graph.inferTypes.IsTyped l.graph.inferTypes.queryBlocks l.graph.inferTypes := by
  have hsound := hl.isSound
  have hlt := hsound.root_lt root hroot
  have hshape := (hsound.laid.infers_inferTypes hroot).shape
  have hw := hsound.laid.wellTyped hroot hlt
  have hmem : ∃ r, l.graph.inferTypes.root = some r ∧ l.graph.inferTypes.IsTyped r :=
    ⟨root, hshape.root_eq.trans hroot, .inl (hsound.laid.keepsBelow_inferTypes hroot hlt).2⟩
  have hlists (v : NodeId) (s : TableScan) (hs : l.graph.inferTypes.scan? v = some s) :
      c.Lists s := by
    have hadmits := hsound.admits v
    rwa [← hshape.expr_eq, scan?_eq_some.1 hs] at hadmits
  have hscans := hl.scansLocally.of_sameExprs hshape.toSameExprs
  refine { hw with
    todo_mem := fun v hv => mem_queryBlocks hw.toMaintained hmem hv
    todo_nodup := nodup_queryBlocks (hscans.acyclicBelow hw.toSound)
    root_mem := hmem
    scans := hscans
    covers := fun v s hs => ?_
    names := fun v => ?_ }
  · obtain ⟨t, ht, heq⟩ := hlists v s hs
    exact ⟨t, ht, by rw [heq]⟩
  · have hadmits := hsound.admits v
    rw [← hshape.expr_eq] at hadmits
    cases hexpr : l.graph.inferTypes.expr v <;> rw [hexpr] at hadmits <;>
      first | exact hadmits.1 | exact nodup_nil

theorem IsSelecting.skip (hg : IsSelecting c S (block :: todo) g) : IsSelecting c S todo g :=
  { hg with
    todo_mem := fun v hv => hg.todo_mem v (.tail _ hv)
    todo_nodup := (nodup_cons.1 hg.todo_nodup).2 }

theorem IsSelecting.select (hg : IsSelecting c S (block :: todo) g) (hlive : g.isLive block)
    (hselect : Selection.select c o g block = .ok h) : IsSelecting c (grown S g h) todo h := by
  have hlt := lt_size_of_isLive hlive
  obtain ⟨hw, hsize⟩ :=
    Selection.wellTyped_select hg.toWellTyped (hg.todo_mem block (.head _)) hlive hselect
  have hk : KeepsNames (fun _ => False) g h := .select hselect
  refine { hw with
    todo_mem := fun v hv => .inl (hg.todo_mem v (.tail _ hv))
    todo_nodup := (nodup_cons.1 hg.todo_nodup).2
    root_mem := ?_
    scans := Selection.scansLocally_select hg.toSound hg.scans hselect
    covers := hg.covers.of_keepsNames hk
    names := fun v => ?_ }
  · obtain ⟨r, hr, hS⟩ := hg.root_mem
    rcases Selection.root_select hlt hselect with hsame | ⟨hnew, hmap⟩
    · exact ⟨r, hsame.trans hr, .inl hS⟩
    · refine ⟨redirect block g.size r, by rw [hmap, hr]; rfl, ?_⟩
      rw [redirect]
      split
      · exact .inr ⟨le_rfl, hnew⟩
      · exact .inl hS
  · rw [hk.names_eq v fun h => h]
    exact hg.names v

theorem IsSelecting.next (hg : IsSelecting c S todo g) : IsSplitting c S g.queryBlocks g :=
  { hg.toMaintained with
    todo_mem := fun _ hv => mem_queryBlocks hg.toMaintained hg.root_mem hv
    todo_nodup := nodup_queryBlocks (hg.scans.acyclicBelow hg.toSound)
    root_mem := hg.root_mem
    scans := hg.scans
    covers := hg.covers
    names := fun v _ => hg.names v }

theorem IsSplitting.skip (hg : IsSplitting c S (block :: todo) g) : IsSplitting c S todo g :=
  { hg with
    todo_mem := fun v hv => hg.todo_mem v (.tail _ hv)
    todo_nodup := (nodup_cons.1 hg.todo_nodup).2
    names := fun v hv => hg.names v (.tail _ hv) }

section
variable (hg : IsSplitting c S (block :: todo) g) (hlive : g.isLive block)
  (hsplit : Split.splitOne c g block = .ok h)
include hg hlive hsplit

theorem IsSplitting.maintained_splitOne : ∃ S', h.Maintained S' [] ∧ ∀ v, grown S g h v → S' v := by
  have hS := hg.todo_mem block (.head _)
  rcases Split.splitOne_cases hg.toSound hlive hsplit with rfl | ⟨x, t, hx, rfl, -, -, rfl⟩
  · exact ⟨S, hg.toMaintained, fun v hv => hv.elim id fun h => absurd h.2 (not_lt.2 h.1)⟩
  · split
    · have hrow := hx.withRowVar hg.toMaintained hS
      exact ⟨_, hx.maintained_result hrow (.inl hS) (.inr rfl), fun v hv => hv.imp .inl id⟩
    · exact ⟨_, hx.maintained_bounded hg.toMaintained hS, fun _ hv => hv⟩

theorem IsSplitting.split : ∃ S', IsSplitting c S' todo h := by
  obtain ⟨S', hm, hgrown⟩ := hg.maintained_splitOne hlive hsplit
  obtain ⟨hfresh, hnodup⟩ := nodup_cons.1 hg.todo_nodup
  have hk := Split.keepsNames_splitOne hg.toSound hlive hsplit
  refine ⟨S', { hm with
    todo_mem := fun v hv => hgrown v (.inl (hg.todo_mem v (.tail _ hv)))
    todo_nodup := hnodup
    root_mem := ?_
    scans := Split.scansLocally_splitOne hg.toSound hg.scans hlive hsplit
    covers := hg.covers.of_keepsNames hk
    names := fun v hv => ?_ }⟩
  · obtain ⟨r, hr, hS⟩ := hg.root_mem
    obtain ⟨r', hr', hcase⟩ := Split.root_splitOne hg.toSound hlive hsplit hr
    refine ⟨r', hr', hgrown r' ?_⟩
    rcases hcase with rfl | hnew
    · exact .inl hS
    · exact .inr hnew
  · rw [hk.names_eq v]
    · exact hg.names v (.tail _ hv)
    · rintro (rfl | hge)
      · exact hfresh hv
      · exact Nat.lt_irrefl _ (Nat.lt_of_lt_of_le
          (hg.inside v (hg.todo_mem v (.tail _ hv))) hge)

end

end

/-- What holds wherever a pass comes to. -/
def IsSteady (c : Catalog) : Pass → List NodeId → Graph → Prop
  | .indexSelection, todo, g => ∃ S, IsSelecting c S todo g
  | .distribution, todo, g => ∃ S, IsSplitting c S todo g

/-- Whatever the first pass is, this holds of every query that a front end lays out. -/
theorem Reaches.isSteady {first : Pass} {l : Layout} (hl : l.IsReached c)
    (hroot : l.graph.root = some root) (hg : Reaches c o first l.graph p todo g) :
    IsSteady c p todo g := by
  induction hg with
  | start =>
    have hstart := isSelecting_start hl hroot
    cases first with
    | indexSelection => exact ⟨_, hstart⟩
    | distribution => exact ⟨_, hstart.next⟩
  | @skip p _ _ _ _ hdead ih =>
    cases p with
    | indexSelection => exact ih.imp fun _ h => h.skip
    | distribution => exact ih.imp fun _ h => h.skip
  | @edit p _ _ _ _ _ hlive hedit ih =>
    cases p with
    | indexSelection =>
      obtain ⟨S, hS⟩ := ih
      exact ⟨_, hS.select hlive hedit⟩
    | distribution =>
      obtain ⟨S, hS⟩ := ih
      exact hS.split hlive hedit
  | next _ ih =>
    obtain ⟨S, hS⟩ := ih
    exact ⟨_, hS.next⟩

end Pass

end ShardedQuery
