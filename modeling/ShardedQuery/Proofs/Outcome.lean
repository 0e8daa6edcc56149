import ShardedQuery.Proofs.Access.CompleteKey
import ShardedQuery.Proofs.Passes
import ShardedQuery.Proofs.Plan.Unfolding

/-!
# How a compilation ends

After every call a compiler has a plan, a schema statement or an error, and only one of them. What it
shows does not depend on earlier calls. The error is the first one that is raised, and the passes
raise errors for faults of the query only (`Pass.failsSemantically_edit`). No other stage fails: when
the passes are through, the graph has a root and no cycles, so that there is a plan for it
(`Pass.Reaches.exists_generate`).
-/

namespace ShardedQuery

open List

variable {c : Catalog} {o : Options} {e : CompileError} {g : Graph}

/-! ## Faults of the query -/

/-- A failure is a fault of the query. -/
structure FailsSemantically {α : Type} (r : Except CompileError α) : Prop where
  category_eq : ∀ e, r = .error e → e.category = .semantic

namespace FailsSemantically

variable {α β : Type}

theorem ok (a : α) : FailsSemantically (.ok a) := ⟨fun e he => by cases he⟩

theorem raise {cause : Cause} (h : cause.category = .semantic) :
    FailsSemantically (CompileError.raise cause : Except CompileError α) := by
  refine ⟨fun e he => ?_⟩
  cases he
  exact h

section
variable {x : Except CompileError α} (hx : FailsSemantically x)
include hx

theorem bind {f : α → Except CompileError β} (hf : ∀ a, FailsSemantically (f a)) :
    FailsSemantically (x >>= f) := by
  refine ⟨fun e he => ?_⟩
  cases x with
  | error e' =>
    cases he
    exact hx.category_eq e rfl
  | ok a => exact (hf a).category_eq e he

theorem map {f : α → β} : FailsSemantically (x.map f) := by
  refine ⟨fun e he => ?_⟩
  cases x with
  | error e' =>
    cases he
    exact hx.category_eq e rfl
  | ok a => cases he

/-- A failure stays what it is when it gets a place. -/
theorem locate (l : Option Location) : FailsSemantically (locateFailure l x) := by
  refine ⟨fun e he => ?_⟩
  cases x with
  | error e' =>
    cases he
    have hcause : (e'.locate l).cause = e'.cause := by
      rw [CompileError.locate]
      split <;> rfl
    rw [CompileError.category, hcause]
    exact hx.category_eq e' rfl
  | ok a => cases he

end

theorem mapM {f : α → Except CompileError β} (hf : ∀ a, FailsSemantically (f a)) :
    ∀ xs : List α, FailsSemantically (xs.mapM f)
  | [] => ok []
  | x :: xs => by
    rw [mapM_cons]
    exact (hf x).bind fun _ => (mapM hf xs).bind fun _ => ok _

end FailsSemantically

namespace Catalog

theorem failsSemantically_table (c : Catalog) (name : String) :
    FailsSemantically (c.table name) := by
  unfold table
  split
  · exact .ok _
  · exact .raise rfl

end Catalog

theorem failsSemantically_checkHints (t : Table) (hints : List Hint) :
    FailsSemantically (checkHints t hints) := by
  have hlist (hints seen : List Hint) : FailsSemantically (checkHintList t seen hints) := by
    induction hints generalizing seen with
    | nil => exact .ok ()
    | cons hint hints ih =>
      rw [checkHintList]
      split
      · exact .raise rfl
      · split
        · split
          · exact ih _
          · exact .raise rfl
        · exact ih _
  refine (hlist hints []).bind fun _ => ?_
  split
  · exact .raise rfl
  · exact .ok ()

theorem failsSemantically_hasMismatch (g : Graph) (site : Site) (strict : Bool) :
    FailsSemantically (hasMismatch g site strict) := by
  unfold hasMismatch
  dsimp only
  split
  · exact .ok _
  · split
    · exact .locate (.raise rfl) _
    · exact .ok _

theorem failsSemantically_readPredicate (g : Graph) (path : AccessPath) (rowVar c : NodeId) :
    FailsSemantically (readPredicate g path rowVar c) := by
  have hread {left right : NodeId} {op : Comparison} {any : Bool}
      {r : Except CompileError (Option Predicate)}
      (h : readOriented g path rowVar c left right op any = some r) : FailsSemantically r := by
    unfold readOriented at h
    split at h
    · cases h
    · split at h
      · cases h
      · split at h
        · cases h
        · split at h
          · cases h
            exact .locate (.raise rfl) _
          · split at h
            · cases h
              exact .ok _
            · split at h
              · cases h
                exact .ok _
              · dsimp only at h
                split at h
                · split at h <;> cases h <;> exact .ok _
                · cases h
                  exact .ok _
  unfold readPredicate
  split
  · next op any a b _ =>
    split
    · next r hr => exact hread hr
    · cases hr : readOriented g path rowVar c b a op.swap any with
      | none => exact .ok _
      | some r => exact hread hr
  · exact .ok _

theorem Analysis.failsSemantically_run (g : Graph) (t : Table) (w : Weights) (site : Site)
    (path : AccessPath) : FailsSemantically (run g t w site path) := by
  refine .bind ?_ fun ps => ?_
  · exact (FailsSemantically.mapM (failsSemantically_readPredicate g path site.rowVar) _).bind
      fun _ => .ok _
  · split
    · exact .ok _
    · exact .ok _

namespace Selection

section
variable (g : Graph) (t : Table) (c : Catalog) (o : Options) (site : Site) (scan block : NodeId)

theorem failsSemantically_through (path : AccessPath) (sort : SortUse) :
    FailsSemantically (through g t o site scan path sort) := by
  refine (Analysis.failsSemantically_run ..).bind fun found => ?_
  cases found with
  | none => exact .ok _
  | some a => exact .ok _

theorem failsSemantically_analyseAll : ∀ paths : List AccessPath,
    FailsSemantically (analyseAll g t o site paths)
  | [] => .ok _
  | path :: paths => by
    refine (Analysis.failsSemantically_run g t o.weights site path).bind fun found => ?_
    cases found with
    | none => exact .ok _
    | some a => exact (failsSemantically_analyseAll paths).bind fun _ => .ok _

theorem failsSemantically_decideAccess (hints : List Hint) (primary : Analysis)
    (ordered : Option (AccessPath × Bool)) :
    FailsSemantically (decideAccess g t o site scan hints primary ordered) := by
  unfold decideAccess
  split
  · exact .ok _
  · split
    · dsimp only
      split
      · exact .locate (.raise rfl) _
      · exact failsSemantically_through ..
      · exact failsSemantically_through ..
    · split
      · split <;> exact .ok _
      · split
        · exact failsSemantically_through ..
        · refine (failsSemantically_analyseAll ..).bind fun others => ?_
          cases others with
          | none => exact .ok _
          | some others => exact .ok _

/-- That a block scans a table and that a key of a map is chosen where it is to bound the scan is
checked when an access path is put to use, but neither check fails (`select_eq`). -/
theorem failsSemantically_select : FailsSemantically (select c o g block) := by
  rw [select_eq]
  refine .map ?_
  unfold Selection.decide
  split
  · exact .ok _
  · split
    · exact .ok _
    · refine .bind (.locate (c.failsSemantically_table _) _) fun t => ?_
      refine .bind (.locate (failsSemantically_checkHints ..) _) fun _ => ?_
      refine (failsSemantically_hasMismatch ..).bind fun mismatch => ?_
      cases mismatch with
      | true => exact .ok _
      | false =>
        refine (Analysis.failsSemantically_run ..).bind fun found => ?_
        cases found with
        | none => exact .ok _
        | some primary => exact failsSemantically_decideAccess ..

end

end Selection

theorem Split.failsSemantically_splitOne (c : Catalog) (g : Graph) (block : NodeId) :
    FailsSemantically (splitOne c g block) := by
  unfold splitOne
  split
  · exact .ok g
  · split
    · exact .ok g
    · refine (c.failsSemantically_table _).bind fun t => ?_
      dsimp only
      split
      · exact .ok _
      · split
        · exact .ok _
        · split
          · split <;> exact .ok _
          · exact .ok _

/-- Passes raise errors for faults of the query only. -/
theorem Pass.failsSemantically_edit (c : Catalog) (o : Options) (g : Graph) (block : NodeId) :
    ∀ p : Pass, FailsSemantically (p.edit c o g block)
  | .indexSelection => Selection.failsSemantically_select g c o block
  | .distribution => Split.failsSemantically_splitOne c g block

/-! ## Plans -/

/-- When the passes are through, there is a plan. -/
theorem Pass.Reaches.exists_generate {first : Pass} {l : Layout} {root : NodeId}
    (hl : l.IsReached c) (hroot : l.graph.root = some root)
    (hg : Reaches c o first l.graph .distribution [] g) : ∃ q, g.generate = .ok q := by
  obtain ⟨S, hg⟩ := hg.isSteady hl hroot
  obtain ⟨r, hr, -⟩ := hg.root_mem
  obtain ⟨p, s, hlayOut, -⟩ := (hg.scans.acyclicBelow hg.toSound r).exists_layOut
  exact ⟨_, Graph.generate_of_ok hr hlayOut⟩

/-! ## Calls -/

/-- A call of a compiler. -/
inductive Call : Type 1 where
  | text {Tree : Type} (f : Frontend Tree) (text : String)
  | graph (g : Graph)

namespace Call

/-- What is asked for, as far as a front end can tell. -/
def request (c : Catalog) : Call → Except CompileError Request
  | text f s => f.parse s >>= fun tree => f.layOut tree c
  | graph g => .ok (.query g)

/-- If the call is a query, its graph was laid out step by step and has a root. -/
def LaysOut (c : Catalog) (k : Call) : Prop :=
  ∀ g, k.request c = .ok (.query g) →
    ∃ l : Layout, l.IsReached c ∧ l.graph = g ∧ ∃ root, g.root = some root

/-- The error is the first one that the call meets: the text cannot be read, what was read cannot be
laid out, or a block of the query fails. -/
inductive RaisesFirst (c : Catalog) (o : Options) : Call → CompileError → Prop
  | parse {Tree : Type} {f : Frontend Tree} {s : String} {e : CompileError}
      (hparse : f.parse s = .error e) : RaisesFirst c o (.text f s) e
  | layOut {Tree : Type} {f : Frontend Tree} {s : String} {tree : Tree} {e : CompileError}
      (hparse : f.parse s = .ok tree) (hlayOut : f.layOut tree c = .error e) :
      RaisesFirst c o (.text f s) e
  | pass {k : Call} {g h : Graph} {e : CompileError} (hrequest : k.request c = .ok (.query g))
      (hraise : Pass.RaisesFirst c o g h e) : RaisesFirst c o k e

theorem RaisesFirst.of_request {k : Call} (h : k.request c = .error e) : k.RaisesFirst c o e := by
  cases k with
  | graph g => cases h
  | text f s =>
    rw [request] at h
    cases hparse : f.parse s with
    | error e' =>
      rw [hparse] at h
      cases h
      exact .parse hparse
    | ok tree =>
      rw [hparse] at h
      exact .layOut hparse h

/-- The error comes from the front end, or from a block of the query that it laid out. -/
theorem RaisesFirst.cases_request {k : Call} (h : k.RaisesFirst c o e) : k.request c = .error e ∨
      ∃ g h, k.request c = .ok (.query g) ∧ Pass.RaisesFirst c o g h e := by
  cases h with
  | parse hparse =>
    left
    rw [request, hparse]
    rfl
  | layOut hparse hlayOut =>
    left
    rw [request, hparse]
    exact hlayOut
  | pass hrequest hraise => exact .inr ⟨_, _, hrequest, hraise⟩

theorem RaisesFirst.unique {k : Call} {e' : CompileError} (h : k.RaisesFirst c o e)
    (h' : k.RaisesFirst c o e') : e = e' := by
  rcases h.cases_request with h | ⟨g, s, hg, h⟩ <;>
    rcases h'.cases_request with h' | ⟨g', s', hg', h'⟩
  · cases h.symm.trans h'
    rfl
  · cases h.symm.trans hg'
  · cases hg.symm.trans h'
  · cases hg.symm.trans hg'
    cases h.optimize_eq.symm.trans h'.optimize_eq
    rfl

/-- The stages after the front end have no internal errors. -/
theorem RaisesFirst.request_of_internal {k : Call} (h : k.RaisesFirst c o e)
    (hinternal : e.category = .internal) : k.request c = .error e := by
  rcases h.cases_request with h | ⟨g, s, -, p, block, todo, -, -, hedit⟩
  · exact h
  · rw [(Pass.failsSemantically_edit c o s block p).category_eq e hedit] at hinternal
    cases hinternal

end Call

namespace Compiler

/-- A compiler that was never called. -/
def fresh (c : Catalog) (o : Options) : Compiler := { catalog := c, options := o }

/-- One call. -/
def perform (s : Compiler) : Call → Compiler
  | .text f text => s.compile f text
  | .graph g => s.compileGraph g

/-- The number of outcomes that a compiler shows. -/
def outcomeCount (s : Compiler) : Nat :=
  s.error.toList.length + s.compiled.toList.length + s.statement.toList.length

section
variable {k : Call}

section
variable (s : Compiler)
include s

theorem perform_of_error (h : k.request s.catalog = .error e) :
    s.perform k = { s.reset with error := some e } := by
  cases k with
  | graph g => cases h
  | text f text =>
    rw [Call.request] at h
    rw [perform, compile, h]

theorem perform_of_statement {d : SchemaStatement} (h : k.request s.catalog = .ok (.statement d)) :
    s.perform k = { s.reset with statement := some d } := by
  cases k with
  | graph g => cases h
  | text f text =>
    rw [Call.request] at h
    rw [perform, compile, h]

theorem perform_of_query (h : k.request s.catalog = .ok (.query g)) :
    s.perform k = s.compileGraph g := by
  cases k with
  | graph g' =>
    cases h
    rfl
  | text f text =>
    rw [Call.request] at h
    rw [perform, compile, h]

theorem compileGraph_reset (g : Graph) : s.reset.compileGraph g = s.compileGraph g :=
  rfl

/-- What was there before a call does not matter, the catalog and the options apart. -/
theorem perform_reset (k : Call) : s.reset.perform k = s.perform k := by
  match h : k.request s.catalog with
  | .error e => rw [perform_of_error s h, perform_of_error s.reset h]; rfl
  | .ok (.statement d) => rw [perform_of_statement s h, perform_of_statement s.reset h]; rfl
  | .ok (.query g) => rw [perform_of_query s h, perform_of_query s.reset h, compileGraph_reset]

theorem reset_compileGraph (g : Graph) : (s.compileGraph g).reset = s.reset := by
  rw [compileGraph]
  split
  · rfl
  · split <;> rfl

theorem reset_perform (k : Call) : (s.perform k).reset = s.reset := by
  match h : k.request s.catalog with
  | .error e => rw [perform_of_error s h]; rfl
  | .ok (.statement d) => rw [perform_of_statement s h]; rfl
  | .ok (.query g) => rw [perform_of_query s h, reset_compileGraph]

end

theorem reset_foldl_perform (ks : List Call) (s : Compiler) :
    (ks.foldl perform s).reset = s.reset := by
  induction ks generalizing s with
  | nil => rfl
  | cons k ks ih => rw [foldl_cons, ih, reset_perform]

/-- A compiler shows nothing of earlier calls. -/
theorem foldl_perform_append (ks : List Call) (k : Call) :
    (ks ++ [k]).foldl perform (fresh c o) = (fresh c o).perform k := by
  rw [foldl_append, foldl_cons, foldl_nil, ← perform_reset, reset_foldl_perform,
    perform_reset]

/-- How a call ends: with the first error, or with a statement, or with a plan. -/
theorem perform_fresh_cases (hk : k.LaysOut c) :
    (∃ g e, (fresh c o).perform k = { fresh c o with graph := g, error := some e } ∧
        k.RaisesFirst c o e) ∨
      (∀ e, ¬ k.RaisesFirst c o e) ∧
        ((∃ d, (fresh c o).perform k = { fresh c o with statement := some d }) ∨
          ∃ g q, (fresh c o).perform k = { fresh c o with graph := some g, compiled := some q }) := by
  match h : k.request c with
  | .error e => exact .inl ⟨none, e, perform_of_error _ h, .of_request h⟩
  | .ok (.statement d) =>
    refine .inr ⟨fun e he => ?_, .inl ⟨d, perform_of_statement _ h⟩⟩
    rcases he.cases_request with he | ⟨g, k, hg, -⟩
    · rw [he] at h
      cases h
    · rw [hg] at h
      cases h
  | .ok (.query g) =>
    obtain ⟨l, hl, rfl, root, hroot⟩ := hk g h
    rw [perform_of_query (fresh c o) h, compileGraph]
    rcases Pass.optimize_cases c o l.graph with ⟨g, hrun, hg⟩ | ⟨g, e, hrun, hg⟩
    · obtain ⟨q, hq⟩ := hg.exists_generate hl hroot
      refine .inr ⟨fun e he => ?_, .inr ⟨g, q, ?_⟩⟩
      · rcases he.cases_request with he | ⟨g', k', hg', hraise⟩
        · rw [he] at h
          cases h
        · rw [hg'] at h
          cases h
          cases hraise.optimize_eq.symm.trans hrun
      · simp only [reset, fresh, hrun, hq]
    · refine .inl ⟨some g, e, ?_, .pass h hg⟩
      simp only [reset, fresh, hrun]

/-- After every call there is one outcome. An error is the first one that the call meets, and it is
not an internal one unless it comes from the front end. What a compiler shows, and so whether it
succeeded, is what a new compiler with the same catalog and options shows after this call alone. -/
theorem perform_outcome (before : List Call) (hk : k.LaysOut c) {s : Compiler}
    (hs : (before ++ [k]).foldl perform (fresh c o) = s) :
    s = (fresh c o).perform k ∧ s.outcomeCount = 1 ∧ (s.succeeded ↔ s.error = none) ∧
      (∀ e, s.error = some e ↔ k.RaisesFirst c o e) ∧
      ∀ e, s.error = some e → e.category = .internal → k.request c = .error e := by
  rw [foldl_perform_append] at hs
  subst hs
  refine ⟨rfl, ?_⟩
  rcases perform_fresh_cases (o := o) hk with ⟨g, e, hs, he⟩ | ⟨hnone, ⟨d, hs⟩ | ⟨g, q, hs⟩⟩
  · rw [hs]
    refine ⟨rfl, by simp [succeeded], fun e' => ?_, fun e' he' hinternal => ?_⟩
    · rw [Option.some_inj]
      exact ⟨fun h => h ▸ he, fun h => he.unique h⟩
    · cases he'
      exact he.request_of_internal hinternal
  · rw [hs]
    exact ⟨rfl, by simp [succeeded, fresh], by simp [fresh, hnone], by simp [fresh]⟩
  · rw [hs]
    exact ⟨rfl, by simp [succeeded, fresh], by simp [fresh, hnone], by simp [fresh]⟩

end

end Compiler

/-! ## A sample -/

/-- `SELECT * FROM t WHERE b = 2 ORDER BY b`, with an index of the table forced. -/
def sampleLayout (c : Catalog) : Layout :=
  Layout.script c
    [.draft, .scanTable "t" "t" [.force (.index "ib")], .value (.field 1 "b"),
      .value (.literal (.integer 2)), .value (.call (.compare .eq false) [2, 3]), .restrict 4,
      .sort 2 .asc, .build, .root 5]

/-- Reads a schema statement and a query, and nothing else. -/
def sampleFrontend : Frontend (Option SchemaStatement) where
  parse
    | "DROP TABLE u" => .ok (some ⟨.dropTable, "u"⟩)
    | "SELECT * FROM t WHERE b = 2 ORDER BY b" => .ok none
    | s => CompileError.raise (.unsupported s)
  layOut
    | some d, _ => .ok (.statement d)
    | none, c => .ok (.query (sampleLayout c).graph)

/-- A text that cannot be read, and a schema statement. -/
def sampleHistory : List Call := [.text sampleFrontend "SELECT", .text sampleFrontend "DROP TABLE u"]

def sampleQuery : Call := .text sampleFrontend "SELECT * FROM t WHERE b = 2 ORDER BY b"

theorem laysOut_sampleQuery (c : Catalog) (hroot : ∃ root, (sampleLayout c).graph.root = some root) :
    sampleQuery.LaysOut c := by
  intro g hg
  have hquery : sampleQuery.request c = .ok (.query (sampleLayout c).graph) := rfl
  rw [hquery] at hg
  cases hg
  exact ⟨sampleLayout c, Layout.isReached_script c _, rfl, hroot⟩

theorem Compiler.perform_outcome_third :
    ∃ s : Compiler, s = (sampleHistory ++ [sampleQuery]).foldl perform (fresh ⟨[pairTable]⟩ {}) ∧
      sampleQuery.LaysOut ⟨[pairTable]⟩ ∧
      s = (fresh ⟨[pairTable]⟩ {}).perform sampleQuery ∧ s.outcomeCount = 1 ∧
      (s.succeeded ↔ s.error = none) ∧
      (∀ e, s.error = some e ↔ sampleQuery.RaisesFirst ⟨[pairTable]⟩ {} e) ∧
      ∀ e, s.error = some e → e.category = .internal →
        sampleQuery.request ⟨[pairTable]⟩ = .error e := by
  have hroot : (sampleLayout ⟨[pairTable]⟩).graph.root = some 5 := by decide +kernel
  have hk : sampleQuery.LaysOut ⟨[pairTable]⟩ := laysOut_sampleQuery _ ⟨5, hroot⟩
  exact ⟨_, rfl, hk, perform_outcome _ hk rfl⟩

end ShardedQuery
