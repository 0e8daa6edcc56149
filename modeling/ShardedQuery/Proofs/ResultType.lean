import ShardedQuery.Proofs.Graph.Retyping
import ShardedQuery.Proofs.Outcome

/-!
# The type of the result

A compiled query carries the type that is kept for the root when the passes are through. It is the
type from scratch unless the root depends on a variable over the empty sequence: when a block turns
out to be empty, a constant takes its place, and the kept types of the variables over it stay what
they were.
-/

namespace ShardedQuery

open ShardedQuery.Graph List

variable {g h : Graph} {q : CompiledQuery}

/-- When types are inferred, they are those from scratch. -/
theorem Graph.IsLaid.rightlyTyped_inferTypes (hg : g.IsLaid) {root : NodeId}
    (hroot : g.root = some root) : g.inferTypes.RightlyTyped := by
  have hi := hg.infers_inferTypes hroot
  have hsound : g.inferTypes.Sound := hi.shape.sound hg.sound
  refine { hsound with decl := hsound.declaresBut, right := fun v t ht => ?_ }
  rw [← exprType_of_kept ht, hi.exprType_eq, hi.shape.toSameExprs.scratchType_eq hg.ordered]
  refine hg.ordered.exprType_eq_scratchType (A := fun _ => True) (fun _ _ _ _ => trivial)
    (fun v _ t ht => ?_) trivial
  rw [hg.untyped v] at ht
  cases ht

theorem Selection.makeEmpty_eq (g : Graph) (block : NodeId) :
    makeEmpty g block = (g.addLiteral .empty).2.replace block g.size true := rfl

namespace Compiler

variable {s : Compiler}

/-- A compiled query comes from a graph that went through all passes. -/
theorem reaches_of_compiled (hgraph : (s.compileGraph g).graph = some h)
    (hq : (s.compileGraph g).compiled = some q) :
    Pass.Reaches s.catalog s.options .indexSelection g .distribution [] h ∧ h.generate = .ok q := by
  rw [compileGraph] at hgraph hq
  have hoptions : s.reset.catalog = s.catalog ∧ s.reset.options = s.options := ⟨rfl, rfl⟩
  simp only [hoptions] at hgraph hq
  rcases Pass.optimize_cases s.catalog s.options g with ⟨k, hrun, hk⟩ | ⟨k, e, hrun, -⟩
  · rw [hrun] at hgraph hq
    cases hgen : k.generate with
    | ok q' =>
      simp only [hgen, Option.some.injEq] at hgraph hq
      subst hgraph hq
      exact ⟨hk, hgen⟩
    | error e =>
      simp only [hgen] at hq
      cases hq
  · rw [hrun] at hq
    cases hq

theorem compileGraph_of_optimize
    (hrun : Pass.optimize s.catalog s.options Pass.all g = (h, .ok ())) (hq : h.generate = .ok q) :
    (s.compileGraph g).graph = some h ∧ (s.compileGraph g).compiled = some q := by
  rw [compileGraph]
  simp only [reset, hrun, hq, and_self]

/-- Whether a graph has a plan and a root that pass the test. -/
def yields (p : Graph → CompiledQuery → NodeId → Bool) (h : Graph) : Bool :=
  match h.generate, h.root with
  | .ok q, some r => p h q r
  | .ok _, none => false
  | .error _, _ => false

theorem exists_of_yields {p : Graph → CompiledQuery → NodeId → Bool}
    (h : (Pass.optimize s.catalog s.options Pass.all g).2.isOk ∧
      yields p (Pass.optimize s.catalog s.options Pass.all g).1) :
    ∃ h q r, (s.compileGraph g).graph = some h ∧ (s.compileGraph g).compiled = some q ∧
      h.root = some r ∧ p h q r := by
  rcases hrun : Pass.optimize s.catalog s.options Pass.all g with ⟨k, e | u⟩
  · rw [hrun] at h
    cases h.1
  · rw [hrun] at h
    have htest := h.2
    rw [yields] at htest
    split at htest
    · next q r hq hr =>
      obtain ⟨hgraph, hcompiled⟩ := compileGraph_of_optimize hrun hq
      exact ⟨k, q, r, hgraph, hcompiled, hr, htest⟩
    all_goals cases htest

end Compiler

theorem Graph.resultType_of_generate (hq : h.generate = .ok q) :
    ∃ r, h.root = some r ∧ q.resultType = h.exprType r := by
  rw [generate] at hq
  split at hq
  · cases hq
  · next r hr =>
    split at hq
    · cases hq
    · cases hq
      exact ⟨r, hr, rfl⟩

/-- After a replacement in a graph of right types, the kept types are right at every node that
depends on none of the nodes a refresh passes over (dead nodes, variables over the old node, and
blocks that select all of their first variable), as far as the replacement moves their types. If the
two nodes have the same type, all kept types are right. A variable over the old node keeps the type
it had, so that its type is right just if it does not change.

The type of a compiled query is right if the root depends neither on a dead node nor on a variable
over the empty sequence. -/
theorem Graph.replace_retypes {g : Graph} {old new : NodeId} {dispose : Bool} {rank : NodeId → Nat}
    (hg : g.RightlyTyped) (hold : g.isLive old) (hnew : g.isLive new)
    (ho : (g.replace old new dispose).Ordered rank) :
    (∀ v, Avoids g (g.replace old new dispose) (PassedOver g (g.replace old new dispose) old) v →
      ∀ t ∈ (g.replace old new dispose).type? v, t = (g.replace old new dispose).scratchType v) ∧
    (g.scratchType old = g.scratchType new → ∀ v, ∀ t ∈ (g.replace old new dispose).type? v,
      t = (g.replace old new dispose).scratchType v) ∧
    (∀ w, g.varSource? w = some old → (g.replace old new dispose).isLive w → g.type? w ≠ none →
      (g.type? new ≠ none ∨ ∃ a, g.expr new = .literal a) →
      ((∀ t ∈ (g.replace old new dispose).type? w, t = (g.replace old new dispose).scratchType w) ↔
        (g.replace old new dispose).scratchType w = g.scratchType w)) ∧
    ∀ (s : Compiler) (l : Layout) (root : NodeId) (h : Graph) (q : CompiledQuery),
      l.IsReached s.catalog → l.graph.root = some root → (s.compileGraph l.graph).graph = some h →
      (s.compileGraph l.graph).compiled = some q →
      ∃ r, h.root = some r ∧
        ((∀ w, h.DependsOn r w → h.isLive w ∧ ¬ h.IsStale w) → q.resultType = h.scratchType r) := by
  refine ⟨fun v hv => ?_, fun htype v => ?_, fun w hsource hw hkept hknown => ?_,
    fun s l root h q hl hroot hgraph hq => ?_⟩
  · exact hg.type_replace hnew ho hv
  · exact hg.type_replace_of_eq hnew ho htype
  · exact hg.type_replace_var_iff hold hnew ho hw hsource hkept hknown
  · obtain ⟨hreach, hgen⟩ := Compiler.reaches_of_compiled hgraph hq
    obtain ⟨r, hr, hresult⟩ := resultType_of_generate hgen
    obtain ⟨S, hS⟩ := hreach.isSteady hl hroot
    obtain ⟨r', hr', hmem⟩ := hS.root_mem
    obtain rfl := Option.some.inj (hr.symm.trans hr')
    exact ⟨r, hr, fun h => hresult.trans (hS.toMaintained.exprType_eq_scratchType hmem h)⟩

/-- Nodes whose numbers are greater than those of the nodes they use. -/
theorem Graph.Ordered.of_lt (h : ∀ v < g.size, ∀ u ∈ g.uses v, u < v) : g.Ordered fun v => v := by
  have hlt {v u : NodeId} (hu : u ∈ g.uses v) : u < v ∧ v < g.size := by
    rcases Nat.lt_or_ge v g.size with hv | hv
    · exact ⟨h v hv u hu, hv⟩
    · rw [uses_of_size_le hv] at hu
      cases hu
  exact ⟨fun v u hu => (hlt hu).1, fun v u hu => Nat.lt_trans (hlt hu).1 (hlt hu).2⟩

theorem Graph.DependsOn.mem {A : NodeId → Prop} {v w : NodeId} (h : g.DependsOn v w)
    (hA : ∀ v, A v → ∀ u ∈ g.reads v, A u) (hv : A v) : A w := by
  induction h with
  | refl => exact hv
  | tail _ hu ih => exact hA _ ih _ hu

/-- `SELECT a AS x FROM t`, and a literal that nothing uses. -/
def literalColumn : Layout :=
  Layout.script ⟨[pairTable]⟩
    [.draft, .scanTable "t" "t" [], .value (.field 1 "a"), .value (.literal (.string "s")),
      .select "x" 2, .build, .root 4]

/-- The literal takes the place of the column. -/
theorem Graph.replace_retypes_literal :
    literalColumn.graph.inferTypes.exprType 4 = .star (.record [("x", .integer)]) ∧
    (literalColumn.graph.inferTypes.replace 2 3 true).exprType 4 =
      .star (.record [("x", .string)]) ∧
    ∃ h q r, ((Compiler.fresh ⟨[pairTable]⟩ {}).compileGraph literalColumn.graph).graph = some h ∧
      ((Compiler.fresh ⟨[pairTable]⟩ {}).compileGraph literalColumn.graph).compiled = some q ∧
      h.root = some r ∧ q.resultType = h.scratchType r := by
  have hroot : literalColumn.graph.root = some 4 := by decide +kernel
  have hg : literalColumn.graph.inferTypes.RightlyTyped :=
    (Layout.isLaid_script _ _).rightlyTyped_inferTypes hroot
  have hs : SameShape (literalColumn.graph.inferTypes.rewired 2 3 true)
      (literalColumn.graph.inferTypes.replace 2 3 true) := sameShape_replace (by decide)
  have hk : (literalColumn.graph.inferTypes.rewired 2 3 true).Ordered fun v => v :=
    .of_lt (by decide +kernel)
  have ho := hs.toSameExprs.ordered hk
  have hreads : ∀ v ∈ [3, 4], ∀ u ∈ (literalColumn.graph.inferTypes.replace 2 3 true).reads v,
      u ∈ [3, 4] := by
    simp only [(hs.toSameExprs.sameRule _).reads_eq]
    decide +kernel
  have hpass : ∀ v ∈ [3, 4], ¬ PassedOver literalColumn.graph.inferTypes
      (literalColumn.graph.inferTypes.replace 2 3 true) 2 v := by
    have hplain : ∀ v ∈ [3, 4], (literalColumn.graph.inferTypes.rewired 2 3 true).isLive v ∧
        literalColumn.graph.inferTypes.varSource? v ≠ some 2 ∧
        ∀ b ∈ (literalColumn.graph.inferTypes.rewired 2 3 true).block? v, b.star = false := by
      decide +kernel
    intro v hv
    obtain ⟨hlive, hsource, hstar⟩ := hplain v hv
    rintro (hdead | hold | ⟨b, hb, hb'⟩)
    · rw [hs.live_eq, hlive] at hdead
      cases hdead
    · exact hsource hold
    · rw [hs.block?_eq] at hb
      rw [hstar b hb] at hb'
      cases hb'
  obtain ⟨hkept, -, -, hresult⟩ :=
    Graph.replace_retypes hg (by decide +kernel) (by decide +kernel) ho
  refine ⟨by decide +kernel, ?_, ?_⟩
  · rw [ho.exprType_eq_scratchType (A := (· ∈ [3, 4])) hreads (fun v hv => hkept v fun w hw hp => ?_)
      (v := 4) (by simp), hs.toSameExprs.scratchType_eq hk]
    · decide +kernel
    · exact absurd hp (hpass w (hw.mem (A := (· ∈ [3, 4])) hreads hv))
  · obtain ⟨h, q, r, hgraph, hq, hr, hcheck⟩ :=
      Compiler.exists_of_yields (s := Compiler.fresh ⟨[pairTable]⟩ {}) (g := literalColumn.graph)
        (p := fun h _ r => decide (r < h.size ∧ ∀ v < h.size, h.isLive v ∧
          (∀ u ∈ h.reads v, u < h.size) ∧ (h.varSource? v).all fun u => (h.expr u).isScan))
        (by decide +kernel)
    obtain ⟨hmem, hnodes⟩ := of_decide_eq_true hcheck
    obtain ⟨r', hr', hright⟩ :=
      hresult _ _ 4 h q (Layout.isReached_script ⟨[pairTable]⟩ _) hroot hgraph hq
    obtain rfl := Option.some.inj (hr.symm.trans hr')
    refine ⟨h, q, r, hgraph, hq, hr, hright fun w hw => ?_⟩
    have hwlt : w < h.size := hw.mem (fun v hv => (hnodes v hv).2.1) hmem
    obtain ⟨hlive, -, hsource⟩ := hnodes w hwlt
    refine ⟨hlive, ?_⟩
    rintro ⟨u, hu, hempty⟩
    rw [hu, Option.all_some, hempty] at hsource
    cases hsource

/-! ## A domain that turns out to be empty -/

/-- `SELECT u.a AS x FROM t o, (SELECT a FROM t WHERE a = 1 AND a = 2) u`. Nothing meets the inner
condition. -/
def emptyDomain : Layout :=
  Layout.script ⟨[pairTable]⟩
    [.draft, .scanTable "t" "o" [], .draft, .scanTable "t" "t" [], .value (.field 3 "a"),
      .value (.literal (.integer 1)), .value (.call (.compare .eq false) [4, 5]),
      .value (.literal (.integer 2)), .value (.call (.compare .eq false) [4, 7]), .restrict 6,
      .restrict 8, .select "a" 4, .build, .rangeOver 10 "u", .value (.field 11 "a"), .select "x" 12,
      .build, .root 13]

/-- The graph when the empty sequence stands in the place of the inner block. -/
def emptiedDomain : Graph := (emptyDomain.graph.inferTypes.addLiteral .empty).2.rewired 10 14 true

/-- Choosing access paths leads there: the refresh of the outer block finds the type it had. -/
theorem reaches_emptiedDomain : Pass.Reaches ⟨[pairTable]⟩ {} .indexSelection emptyDomain.graph
    .indexSelection [13] emptiedDomain := by
  have htodo : emptyDomain.graph.inferTypes.queryBlocks = [10, 13] := by decide +kernel
  have hstart : Pass.Reaches ⟨[pairTable]⟩ {} .indexSelection emptyDomain.graph .indexSelection
      emptyDomain.graph.inferTypes.queryBlocks emptyDomain.graph.inferTypes := .start
  rw [htodo] at hstart
  have hempty : Selection.decide emptyDomain.graph.inferTypes ⟨[pairTable]⟩ {} 10 = .ok .empty := by
    have hcheck : (match Selection.decide emptyDomain.graph.inferTypes ⟨[pairTable]⟩ {} 10 with
      | .ok .empty => true
      | .ok .leave => false
      | .ok (.access ..) => false
      | .error _ => false) = true := by decide +kernel
    split at hcheck
    · assumption
    all_goals cases hcheck
  have hopen : emptiedDomain.isOpen 13 = false := by
    have hkept : emptiedDomain.type? 13 = some (.star (.record [("x", .integer)])) := by
      decide +kernel
    have hderived : emptiedDomain.derivedType 13 = .star (.record [("x", .integer)]) := by
      decide +kernel
    simp [isOpen, hkept, hderived]
  have hsize : emptyDomain.graph.inferTypes.size = 14 := by decide +kernel
  have hparents : (emptyDomain.graph.inferTypes.addLiteral .empty).2.parentsInOrder 10 = [13] := by
    decide +kernel
  have hmake : Selection.makeEmpty emptyDomain.graph.inferTypes 10 = emptiedDomain := by
    rw [Selection.makeEmpty_eq, hsize, replace_eq (by decide), hparents, foldl_cons,
      foldl_nil, ← emptiedDomain, refresh_of_not_isOpen hopen]
  refine hstart.edit (by decide +kernel) ?_
  rw [Pass.edit, Selection.select, hempty, ← hmake]
  rfl

/-- The compiled query has the type of the time when the inner block was there. -/
theorem Compiler.resultType_emptyDomain : ∃ h q r,
    ((Compiler.fresh ⟨[pairTable]⟩ {}).compileGraph emptyDomain.graph).graph = some h ∧
    ((Compiler.fresh ⟨[pairTable]⟩ {}).compileGraph emptyDomain.graph).compiled = some q ∧
    h.root = some r ∧ q.resultType = .star (.record [("x", .integer)]) ∧
    h.scratchType r = .star (.record [("x", .empty)]) := by
  have hrun : Pass.optimize ⟨[pairTable]⟩ {} Pass.all emptyDomain.graph =
      Pass.resume ⟨[pairTable]⟩ {} .indexSelection [13] emptiedDomain :=
    reaches_emptiedDomain.optimize_eq
  have hyields : (Pass.optimize ⟨[pairTable]⟩ {} Pass.all emptyDomain.graph).2.isOk ∧
      yields (fun h q r => decide (q.resultType = .star (.record [("x", .integer)]) ∧
        h.scratchType r = .star (.record [("x", .empty)])))
        (Pass.optimize ⟨[pairTable]⟩ {} Pass.all emptyDomain.graph).1 := by
    rw [hrun]
    decide +kernel
  obtain ⟨h, q, r, hgraph, hq, hr, hcheck⟩ :=
    exists_of_yields (s := fresh ⟨[pairTable]⟩ {}) hyields
  obtain ⟨hresult, hscratch⟩ := of_decide_eq_true hcheck
  exact ⟨h, q, r, hgraph, hq, hr, hresult, hscratch⟩

end ShardedQuery
