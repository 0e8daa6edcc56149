import ShardedQuery.Proofs.Access.CompleteKey
import ShardedQuery.Proofs.Passes

/-!
# Passes in place

The functions that edit a block return a new graph or an error. Here the same work is spelled out in
place, as a sequence of questions and changes to one graph, where a failure leaves the graph as the
changes so far have made it. `Pass.settles_inPlace` says that both agree: every question that can fail
is asked before the first change. So a failure on a block leaves the graph alone, and when a pass fails,
only the blocks before the failing one have been handled (`Pass.run_eq_error`).
-/

namespace ShardedQuery

open ShardedQuery.Graph Analysis

variable {g : Graph} {b : Block} {scan : NodeId} {site : Site} {s : TableScan} {a : Analysis}

/-! ## Work on one graph -/

namespace Work

/-- The work asks all that can fail before it changes anything: if `decision` succeeds, it makes of
the graph `g` what `result` says, and if `decision` fails, it fails alike and leaves `g` alone. -/
def Settles {α : Type} (w : Work Unit) (g : Graph) (decision : Except CompileError α)
    (result : α → Graph) : Prop :=
  w g = match decision with
    | .ok a => (result a, .ok ())
    | .error e => (g, .error e)

section
variable {α β : Type}

theorem Settles.read {f : Graph → α} {k : α → Work Unit} {decision : Except CompileError β}
    {result : β → Graph} (h : (k (f g)).Settles g decision result) :
    (Work.read f >>= k).Settles g decision result := h

/-- A question that the decision asks as well. -/
theorem Settles.ask {f : Graph → Except CompileError α} {k : α → Work Unit}
    {decide : α → Except CompileError β} {result : β → Graph}
    (h : ∀ a, f g = .ok a → (k a).Settles g (decide a) result) :
    (Work.ask f >>= k).Settles g (f g >>= decide) result := by
  cases hf : f g with
  | error e =>
    simp only [Settles, bind, Work.ask, hf]
    rfl
  | ok a => exact (ask_bind hf k).trans (h a hf)

end

end Work

/-! ## Access paths -/

namespace Selection

def throughInPlace (t : Table) (o : Options) (site : Site) (scan : NodeId) (path : AccessPath)
    (sort : SortUse) : Work Unit := do
  match ← Work.ask (run · t o.weights site path) with
  | none => Work.change (makeEmpty · site.block)
  | some a => useInPlace t site scan a sort

def accessInPlace (t : Table) (o : Options) (site : Site) (scan : NodeId) (hints : List Hint)
    (primary : Analysis) (ordered : Option (AccessPath × Bool)) : Work Unit := do
  if primary.isCompleteKey then useInPlace t site scan primary .drop
  else
    match hints.find? (·.isForce) with
    | some forced =>
      let path := AccessPath.ofIndex t (forced.target.indexName?.bind t.index?)
      match ← Work.read (deliversOrder? · site path), ordered with
      | none, some (other, _) =>
        Work.ask fun g => locateFailure (g.location scan)
          (CompileError.raise (.forcedIndexConflict path.label other.label))
      | none, none => throughInPlace t o site scan path .keep
      | some reverse, _ => throughInPlace t o site scan path (.byIndex reverse)
    | none =>
      if primary.isCompleteShardKey t then
        match ordered with
        | some (path, reverse) =>
          useInPlace t site scan primary (if path.isPrimary then .byIndex reverse else .keep)
        | none => useInPlace t site scan primary .keep
      else
        match ordered with
        | some (path, reverse) => throughInPlace t o site scan path (.byIndex reverse)
        | none =>
          match ← Work.ask (analyseAll · t o site (t.indexes.map AccessPath.secondary)) with
          | none => Work.change (makeEmpty · site.block)
          | some others =>
            let preferred (p : AccessPath) : Bool :=
              hints.any fun h => !h.isForce && hintNames h p
            useInPlace t site scan (best preferred primary others) .keep

def selectInPlace (c : Catalog) (o : Options) (block : NodeId) : Work Unit := do
  match ← Work.read fun g => (g.block? block).bind (·.entries.head?) with
  | none => pure ()
  | some entry =>
    match ← Work.read (·.scan? entry.domain) with
    | none => pure ()
    | some s =>
      let site : Site := ⟨block, entry.var⟩
      let t ← Work.ask fun g => locateFailure (g.location entry.domain) (c.table s.table)
      Work.ask fun g => locateFailure (g.location entry.domain) (checkHints t s.hints)
      if ← Work.ask (hasMismatch · site o.strict) then Work.change (makeEmpty · block)
      else
        let ordered ← Work.read fun g => (AccessPath.all t).findSome? fun p =>
          (deliversOrder? g site p).map fun reverse => (p, reverse)
        match ← Work.ask (run · t o.weights site (.primary t)) with
        | none => Work.change (makeEmpty · block)
        | some primary => accessInPlace t o site entry.domain s.hints primary ordered

section
variable {t : Table} {o : Options} (hb : g.block? site.block = some b)
  (hdomain : b.firstDomain? = some scan) (hs : g.scan? scan = some s)
include hb hdomain hs

theorem settles_useInPlace {path : AccessPath}
    (hrun : run g t o.weights site path = .ok (some a)) (sort : SortUse) :
    (useInPlace t site scan a sort).Settles g (.ok (.access t site scan a sort))
      (carryOut g site.block) :=
  useInPlace_eq (isFound_of_run hrun) hb hdomain hs sort

theorem settles_throughInPlace (path : AccessPath) (sort : SortUse) :
    (throughInPlace t o site scan path sort).Settles g (through g t o site scan path sort)
      (carryOut g site.block) := by
  refine .ask fun found hrun => ?_
  cases found with
  | none => rfl
  | some a => exact settles_useInPlace hb hdomain hs hrun sort

theorem settles_accessInPlace {primary : Analysis}
    (hprimary : run g t o.weights site (.primary t) = .ok (some primary))
    (hints : List Hint) (ordered : Option (AccessPath × Bool)) :
    (accessInPlace t o site scan hints primary ordered).Settles g
      (decideAccess g t o site scan hints primary ordered) (carryOut g site.block) := by
  have huse := settles_useInPlace hb hdomain hs hprimary
  have hthrough := settles_throughInPlace (t := t) (o := o) hb hdomain hs
  unfold accessInPlace decideAccess
  split
  · exact huse .drop
  · cases hints.find? (·.isForce) with
    | some forced =>
      refine .read ?_
      dsimp only
      cases deliversOrder? g site _ with
      | none =>
        rcases ordered with _ | ⟨other, _⟩
        · exact hthrough _ .keep
        · rfl
      | some reverse => exact hthrough _ _
    | none =>
      dsimp only
      split
      · rcases ordered with _ | ⟨path, reverse⟩
        · exact huse .keep
        · exact huse _
      · rcases ordered with _ | ⟨path, reverse⟩
        · refine .ask fun found hall => ?_
          cases found with
          | none => rfl
          | some others =>
            obtain ⟨path, hrun⟩ : ∃ path, run g t o.weights site path =
                .ok (some (best (prefers hints) primary others)) := by
              rcases List.mem_cons.1 (best_mem primary others) with hbest | hbest
              · exact ⟨_, hbest ▸ hprimary⟩
              · obtain ⟨path, -, hrun⟩ := exists_run_of_analyseAll hall hbest
                exact ⟨path, hrun⟩
            exact settles_useInPlace hb hdomain hs hrun .keep
        · exact hthrough _ _

end

theorem settles_selectInPlace (c : Catalog) (o : Options) (g : Graph) (block : NodeId) :
    (selectInPlace c o block).Settles g (Selection.decide g c o block) (carryOut g block) := by
  refine .read ?_
  rw [Selection.decide]
  cases hentry : (g.block? block).bind (·.entries.head?) with
  | none => rfl
  | some entry =>
    obtain ⟨b, hb, hhead⟩ := Option.bind_eq_some_iff.1 hentry
    have hdomain : b.firstDomain? = some entry.domain := by simp [Block.firstDomain?, hhead]
    refine .read ?_
    dsimp only
    cases hs : g.scan? entry.domain with
    | none => rfl
    | some s =>
      refine .ask fun t _ => .ask fun _ _ => .ask fun mismatch _ => ?_
      cases mismatch with
      | true => rfl
      | false =>
        refine .read (.ask fun found hrun => ?_)
        cases found with
        | none => rfl
        | some primary =>
          have hsite : g.block? (Site.mk block entry.var).block = some b := hb
          exact settles_accessInPlace hsite hdomain hs hrun _ _

end Selection

/-! ## The boundary -/

namespace Split

/-- Puts the boundary above a block that scans a table, and splits the block if need be. -/
def distributeInPlace (c : Catalog) (block : NodeId) (s : TableScan) : Work Unit := do
  let t ← Work.ask fun _ => c.table s.table
  let boundary ← Work.grow (·.insertAbove block fun input =>
    .receive { input := input, distribution := s.distribution })
  if s.distribution = .singlePartition then pure ()
  else
    match ← Work.read (·.block? block) with
    | none => pure ()
    | some b =>
      if b.hasSort || b.offset.isSome || b.limit.isSome || s.dedup then
        match b.firstVar? with
        | none => pure ()
        | some rowVar => Work.change (·.splitBlock block boundary rowVar b s.dedup t.primaryKey)
      else pure ()

def splitInPlace (c : Catalog) (block : NodeId) : Work Unit := do
  match ← Work.read fun g => (g.block? block).bind (·.firstDomain?) with
  | none => pure ()
  | some scan =>
    match ← Work.read (·.scan? scan) with
    | none => pure ()
    | some s => distributeInPlace c block s

theorem settles_splitInPlace (c : Catalog) (g : Graph) (block : NodeId) :
    (splitInPlace c block).Settles g (splitOne c g block) id := by
  refine .read ?_
  rw [splitOne]
  cases (g.block? block).bind (·.firstDomain?) with
  | none => rfl
  | some scan =>
    refine .read ?_
    dsimp only
    cases g.scan? scan with
    | none => rfl
    | some s =>
      refine .ask fun t _ => ?_
      rcases hboundary : g.insertAbove block fun input =>
        .receive { input := input, distribution := s.distribution } with ⟨boundary, h⟩
      simp only [Work.Settles, Work.grow, Work.read, bind, hboundary]
      by_cases hsingle : s.distribution = .singlePartition
      · simp only [if_pos hsingle]
        rfl
      · simp only [if_neg hsingle]
        cases h.block? block with
        | none => rfl
        | some b =>
          dsimp only
          cases b.hasSort || b.offset.isSome || b.limit.isSome || s.dedup with
          | false => rfl
          | true =>
            cases b.firstVar? with
            | none => rfl
            | some rowVar => simp only [if_true, Work.change, pure, Except.pure, id]

end Split

/-! ## Passes -/

namespace Pass

/-- What a pass does with one block, in place. -/
def inPlace (c : Catalog) (o : Options) : Pass → NodeId → Work Unit
  | indexSelection => Selection.selectInPlace c o
  | distribution => Split.splitInPlace c

/-- A block is edited all at once or not at all. -/
theorem settles_inPlace (c : Catalog) (o : Options) (p : Pass) (g : Graph) (block : NodeId) :
    (p.inPlace c o block).Settles g (p.edit c o g block) id := by
  cases p with
  | indexSelection =>
    refine (Selection.settles_selectInPlace c o g block).trans ?_
    rw [edit, Selection.select_eq]
    cases Selection.decide g c o block <;> rfl
  | distribution => exact Split.settles_splitInPlace c g block

/-- Work on blocks in turn that ends with an error has come to a block that raises it. -/
theorem exists_of_editBlocks {edit : Graph → NodeId → Except CompileError Graph}
    {blocks : List NodeId} {h : Graph} {e : CompileError}
    (hrun : editBlocks edit blocks g = (h, .error e)) :
    ∃ before block after, blocks = before ++ block :: after ∧
      editBlocks edit before g = (h, .ok ()) ∧ h.isLive block ∧ edit h block = .error e := by
  induction blocks generalizing g with
  | nil => cases hrun
  | cons b bs ih =>
    rw [editBlocks] at hrun
    split at hrun
    · next hlive =>
      split at hrun
      · next k hk =>
        obtain ⟨before, block, after, rfl, hbefore, hblock⟩ := ih hrun
        exact ⟨b :: before, block, after, rfl, by simp only [editBlocks, if_pos hlive, hk, hbefore],
          hblock⟩
      · next e' he' =>
        cases hrun
        exact ⟨[], b, bs, rfl, rfl, hlive, he'⟩
    · next hdead =>
      obtain ⟨before, block, after, rfl, hbefore, hblock⟩ := ih hrun
      exact ⟨b :: before, block, after, rfl, by rw [editBlocks, if_neg hdead, hbefore], hblock⟩

/-- What a pass does with a block in place comes to the result of its edit or, where the edit fails,
leaves the graph alone. A pass that fails has handled the blocks before the failing one and nothing
else. -/
theorem run_eq_error (c : Catalog) (o : Options) (p : Pass) (g : Graph) :
    (∀ block, p.inPlace c o block g = match p.edit c o g block with
      | .ok h => (h, .ok ())
      | .error e => (g, .error e)) ∧
    ∀ {h e}, p.run c o g = (h, .error e) → ∃ before block after,
      g.queryBlocks = before ++ block :: after ∧ editBlocks (p.edit c o) before g = (h, .ok ()) ∧
        h.isLive block ∧ p.inPlace c o block h = (h, .error e) := by
  have hsettles (g : Graph) (block : NodeId) : p.inPlace c o block g = match p.edit c o g block with
      | .ok h => (h, .ok ())
      | .error e => (g, .error e) := by
    refine (settles_inPlace c o p g block).trans ?_
    cases p.edit c o g block <;> rfl
  refine ⟨hsettles g, fun {h e} hrun => ?_⟩
  rw [run_eq] at hrun
  obtain ⟨before, block, after, hblocks, hbefore, hlive, hedit⟩ := exists_of_editBlocks hrun
  exact ⟨before, block, after, hblocks, hbefore, hlive, by rw [hsettles, hedit]⟩

/-- A block that selects the rows of another one and compares the integer `a` with a text. -/
def mismatchAbove : Graph :=
  (Layout.script ⟨[pairTable]⟩
    [.draft, .scanTable "t" "u" [], .build, .draft, .scanTable "t" "t" [], .value (.field 4 "a"),
      .value (.literal (.string "x")), .value (.call (.compare .eq false) [5, 6]), .restrict 7,
      .select "rows" 2, .build, .root 8]).graph

/-- In strict mode the outer block fails when the inner one has been handled. -/
theorem run_eq_error_mismatch :
    mismatchAbove.queryBlocks = [2, 8] ∧
    ∃ h e, indexSelection.run ⟨[pairTable]⟩ { strict := true } mismatchAbove = (h, .error e) ∧
      ∃ before block after, mismatchAbove.queryBlocks = before ++ block :: after ∧
        editBlocks (indexSelection.edit ⟨[pairTable]⟩ { strict := true }) before mismatchAbove =
          (h, .ok ()) ∧
        h.isLive block ∧
        indexSelection.inPlace ⟨[pairTable]⟩ { strict := true } block h = (h, .error e) := by
  have herror : (indexSelection.run ⟨[pairTable]⟩ { strict := true } mismatchAbove).2 =
      .error ⟨.incomparableTypes "INTEGER" "STRING", none⟩ := by decide +kernel
  have hrun := Prod.ext_iff.2 ⟨rfl, herror⟩
  exact ⟨by decide +kernel, _, _, hrun, (run_eq_error _ _ _ _).2 hrun⟩

end Pass

end ShardedQuery
