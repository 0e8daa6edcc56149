import ShardedQuery.Proofs.Access.CompleteKey

/-!
# Conditions that are taken apart

A conjunction that nothing uses is taken apart when it is given to a draft as a condition. This opens
one level of it, and a WHERE clause with a single condition is opened once more when its conjuncts are
read: `conjuncts_restrict_iff` says when these are the leaves of the conjunction. A draft records its
other uses of a node only when it becomes a block, and so a node that it already uses may be taken
apart: `isLive_build_iff` says which nodes of a block are alive and which have kept their arguments.
-/

namespace ShardedQuery

open ShardedQuery.Graph List

variable {g h : Graph} {block v : NodeId} {d : BlockDraft} {c : Catalog} {args : List NodeId}

namespace Graph

/-! ## Leaves of a conjunction -/

/-- The leaves of conditions, from left to right, when all conjunctions are opened. -/
inductive Leaves (g : Graph) : List NodeId → List NodeId → Prop
  | nil : Leaves g [] []
  | leaf {v : NodeId} {vs ls : List NodeId} (hv : (g.expr v).isConjunction = false)
      (hvs : Leaves g vs ls) : Leaves g (v :: vs) (v :: ls)
  | conj {v : NodeId} {args l vs ls : List NodeId} (hv : g.expr v = .call .and args)
      (hargs : Leaves g args l) (hvs : Leaves g vs ls) : Leaves g (v :: vs) (l ++ ls)

section
variable {vs ls : List NodeId}

theorem Leaves.isConjunction_eq_false (hl : g.Leaves vs ls) :
    ∀ c ∈ ls, (g.expr c).isConjunction = false := by
  induction hl with
  | nil => simp
  | leaf hv _ ih => simpa [hv] using ih
  | conj _ _ _ iha ih =>
    intro c hc
    exact (mem_append.1 hc).elim (iha c) (ih c)

theorem Leaves.eq_self (hl : g.Leaves vs ls) (hvs : ∀ c ∈ vs, (g.expr c).isConjunction = false) :
    ls = vs := by
  induction hl with
  | nil => rfl
  | leaf _ _ ih => rw [ih fun c hc => hvs c (.tail _ hc)]
  | conj hv _ _ _ _ =>
    have := hvs _ (.head _)
    rw [hv] at this
    cases this

theorem Leaves.parts (hl : g.Leaves [v] ls) : g.Leaves (g.parts v) ls := by
  cases hl with
  | leaf hv hvs =>
    rw [parts_of_not_conjunction hv]
    exact .leaf hv hvs
  | conj hv hargs hvs =>
    cases hvs
    rw [append_nil, Graph.parts, hv]
    exact hargs

theorem Leaves.append_left (hl : g.Leaves vs ls) {us : List NodeId}
    (hus : ∀ u ∈ us, (g.expr u).isConjunction = false) : g.Leaves (us ++ vs) (us ++ ls) := by
  induction us with
  | nil => exact hl
  | cons u us ih => exact .leaf (hus u (.head _)) (ih fun x hx => hus x (.tail _ hx))

/-- The conjuncts that are read off a WHERE clause made of the given conditions: one that stands alone
is opened. -/
def readBack (g : Graph) : List NodeId → List NodeId
  | [c] => g.parts c
  | cs => cs

theorem Leaves.readBack (hl : g.Leaves vs ls) : g.Leaves (g.readBack vs) ls := by
  unfold Graph.readBack
  split
  · exact hl.parts
  · exact hl

theorem Leaves.readBack_eq_iff (hl : g.Leaves vs ls) :
    g.readBack vs = ls ↔ ∀ u ∈ g.readBack vs, (g.expr u).isConjunction = false :=
  ⟨fun h => h ▸ hl.isConjunction_eq_false, fun h => (hl.readBack.eq_self h).symm⟩

end

theorem parts_addDeclaring {e : Expr} {l : Option Location} (hv : v < g.size) :
    (g.addDeclaring e l).2.parts v = g.parts v := by
  have hadd : (g.add e).2.parts v = g.parts v := parts_congr (expr_add_of_lt e hv)
  rw [← hadd]
  rcases expr_addDeclaring_cases (g := g) e l v with h | h
  · exact parts_congr h
  · rw [parts, parts, h]
    cases (g.add e).2.expr v <;> rfl

end Graph

namespace Layout

theorem block_of_build (hbuild : d.build g = .ok (block, h)) :
    block = (g.addCondition d.conjuncts).2.size ∧
      h = ((g.addCondition d.conjuncts).2.addDeclaring
        (.block (d.block (g.addCondition d.conjuncts).1)) d.location).2 := by
  have heq := (BlockDraft.build_eq_ok.1 hbuild).2
  exact ⟨congrArg Prod.fst heq, congrArg Prod.snd heq⟩

/-- The conjuncts of a draft, read off the block it becomes. -/
theorem conjuncts_build (hlt : ∀ u ∈ d.conjuncts, u < g.size) (hbuild : d.build g = .ok (block, h)) :
    h.conjuncts block = g.readBack d.conjuncts := by
  obtain ⟨rfl, hh⟩ := block_of_build hbuild
  have hblock : h.block? (g.addCondition d.conjuncts).2.size =
      some (d.block (g.addCondition d.conjuncts).1) := by
    rw [block?_eq_some, hh, expr_addDeclaring rfl, if_pos rfl]
  rw [conjuncts_eq_parts, hblock, hh]
  change (g.addCondition d.conjuncts).1.elim [] _ = _
  generalize Expr.block (d.block (g.addCondition d.conjuncts).1) = e
  clear hblock hh hbuild
  revert hlt
  rcases d.conjuncts with _ | ⟨x, _ | ⟨y, ys⟩⟩
  · exact fun _ => rfl
  · exact fun hlt => parts_addDeclaring (hlt x (.head _))
  · intro
    have hself : (g.addCondition (x :: y :: ys)).2.expr g.size = .call .and (x :: y :: ys) :=
      expr_add_self g _
    refine (parts_addDeclaring (v := g.size) (g.size_add _ ▸ Nat.lt_succ_self _)).trans ?_
    rw [parts, hself]
    rfl

theorem restrict_of_opens (hv : g.expr v = .call .and args) (hroot : g.parents v = []) :
    d.restrict g v = ({ d with conjuncts := d.conjuncts ++ args }, g.dissolve v args) := by
  simp [BlockDraft.restrict, hv, hroot]

theorem restrict_of_not_opens (hv : ¬((g.expr v).isConjunction ∧ g.parents v = [])) :
    d.restrict g v = ({ d with conjuncts := d.conjuncts ++ [v] }, g) := by
  unfold BlockDraft.restrict
  split
  · next args hcall =>
    rw [if_neg fun hroot => hv ⟨by rw [hcall]; rfl, isEmpty_iff.1 hroot⟩]
  · rfl

/-- A condition that nothing uses is added as its parts. -/
theorem conjuncts_restrict (hroot : g.parents v = []) :
    (d.restrict g v).1.conjuncts = d.conjuncts ++ g.parts v := by
  cases hv : (g.expr v).isConjunction with
  | true =>
    obtain ⟨args, hargs⟩ := Expr.exists_of_isConjunction hv
    rw [restrict_of_opens hargs hroot, parts, hargs]
  | false =>
    rw [restrict_of_not_opens (by simp [hv]), parts_of_not_conjunction hv]

/-- Taking the condition apart does not change what is read back. -/
theorem readBack_restrict (hroot : g.parents v = []) (hself : v ∉ g.children v) :
    (d.restrict g v).2.readBack (d.conjuncts ++ g.parts v) =
      g.readBack (d.conjuncts ++ g.parts v) := by
  cases hv : (g.expr v).isConjunction with
  | false => rw [restrict_of_not_opens (by simp [hv])]
  | true =>
    obtain ⟨args, hargs⟩ := Expr.exists_of_isConjunction hv
    rw [restrict_of_opens hargs hroot, parts, hargs]
    rw [children, hargs] at hself
    unfold Graph.readBack
    dsimp only
    split
    · next u hu =>
      by_cases huv : u = v
      · -- The condition itself is all that is left, and so it has no parts.
        obtain rfl : args = [] := eq_nil_iff_forall_not_mem.2 fun x hx => by
          have hxu : x ∈ [u] := hu ▸ mem_append_right _ hx
          exact hself (huv ▸ mem_singleton.1 hxu ▸ hx)
        rw [huv, parts, parts, expr_dissolve hargs, if_pos rfl, hargs]
      · exact parts_congr (by rw [expr_dissolve hargs, if_neg huv])
    · rfl

/-- Let nothing use the condition `v`. The block that a draft becomes with it has the earlier conjuncts
and the parts of `v`; where only one is left, it has its parts. These are the leaves of `v` exactly if
none of them is a conjunction again. -/
theorem conjuncts_restrict_iff {ds : List BlockDraft} {ws : List (NodeId × NodeId)}
    (hl : IsReached c ⟨g, d :: ds, ws⟩) (hlt : v < g.size) (hroot : g.parents v = [])
    (hbuild : (d.restrict g v).1.build (d.restrict g v).2 = .ok (block, h)) :
    h.conjuncts block = g.readBack (d.conjuncts ++ g.parts v) ∧
    ∀ ls, g.Leaves [v] ls → (∀ u ∈ d.conjuncts, (g.expr u).isConjunction = false) →
      (h.conjuncts block = d.conjuncts ++ ls ↔
        ∀ u ∈ h.conjuncts block, (g.expr u).isConjunction = false) := by
  have hbuilt : h.conjuncts block = g.readBack (d.conjuncts ++ g.parts v) := by
    have hsupports := (hl.isSound.restrict hlt).drafts _ (.head _)
    rw [conjuncts_build (fun u hu => hsupports.operands_lt u (by simp [BlockDraft.operands, hu]))
      hbuild, conjuncts_restrict hroot]
    exact readBack_restrict hroot fun hv => Nat.lt_irrefl v (hl.isSound.laid.children_lt v v hv)
  refine ⟨hbuilt, fun ls hls hd => ?_⟩
  rw [hbuilt]
  exact (hls.parts.append_left hd).readBack_eq_iff

/-- A draft over `t` and the conditions `a = b`, `a = 1`, `b = 1` and `a = 1 AND b = 1`. -/
def conditions : List Command :=
  [.draft, .scanTable "t" "t" [], .value (.field 1 "a"), .value (.field 1 "b"),
    .value (.literal (.integer 1)), .value (.call (.compare .eq false) [2, 3]),
    .value (.call (.compare .eq false) [2, 4]), .value (.call (.compare .eq false) [3, 4]),
    .value (.call .and [6, 7])]

/-- The draft of a layout that has just one. -/
def draft (l : Layout) : BlockDraft := l.drafts.headD {}

/-- `a = b`, then `a = 1 AND b = 1`. -/
def flatLayout : Layout := script ⟨[pairTable]⟩ (conditions ++ [.restrict 5])

theorem conjuncts_restrict_flat :
    flatLayout.graph.Leaves [8] [6, 7] ∧ ∃ block h,
      (flatLayout.draft.restrict flatLayout.graph 8).1.build
        (flatLayout.draft.restrict flatLayout.graph 8).2 = .ok (block, h) ∧
      h.conjuncts block = [5] ++ [6, 7] := by
  have hleaves : flatLayout.graph.Leaves [8] [6, 7] :=
    .conj (l := [6, 7]) rfl (.leaf rfl (.leaf rfl .nil)) .nil
  have heq : flatLayout = ⟨flatLayout.graph, flatLayout.draft :: [], []⟩ := rfl
  have hl : IsReached ⟨[pairTable]⟩ ⟨flatLayout.graph, flatLayout.draft :: [], []⟩ :=
    heq ▸ isReached_script _ _
  refine ⟨hleaves, _, _, rfl, ?_⟩
  refine ((conjuncts_restrict_iff hl (by decide +kernel) (by decide +kernel) rfl).2 [6, 7] hleaves
    ?_).2 ?_
  · decide +kernel
  · decide +kernel

/-- `(a = 1 AND b = 1) AND a = b`. -/
def nestedLayout : Layout := script ⟨[pairTable]⟩ (conditions ++ [.value (.call .and [8, 5])])

/-- The inner conjunction is not opened. -/
theorem conjuncts_restrict_nested :
    nestedLayout.graph.Leaves [9] [6, 7, 5] ∧ nestedLayout.graph.parents 8 = [9] ∧
    nestedLayout.graph.parents 9 = [] ∧ ∃ block h,
      (nestedLayout.draft.restrict nestedLayout.graph 9).1.build
        (nestedLayout.draft.restrict nestedLayout.graph 9).2 = .ok (block, h) ∧
      h.conjuncts block = [8, 5] :=
  ⟨.conj (l := [6, 7, 5]) rfl (.conj (l := [6, 7]) rfl (.leaf rfl (.leaf rfl .nil))
    (.leaf rfl .nil)) .nil, by decide +kernel, by decide +kernel, _, _, rfl, by decide +kernel⟩

/-! ## Nodes of a block -/

end Layout

/-- The graph `h` comes of `g` by adding nodes and taking the nodes of `opened` apart. -/
structure Graph.Opens (g : Graph) (opened : List NodeId) (h : Graph) : Prop where
  size_le : g.size ≤ h.size
  opened_lt : ∀ v ∈ opened, v < h.size
  isLive_iff : ∀ v < h.size, h.isLive v ↔ (v < g.size → g.isLive v) ∧ v ∉ opened
  children_eq : ∀ v < g.size, h.children v = if v ∈ opened then [] else g.children v

namespace Graph.Opens

variable {k : Graph} {xs ys : List NodeId}

theorem refl (g : Graph) : g.Opens [] g :=
  ⟨le_rfl, by simp, fun v hv => by simp [hv], fun v _ => by simp⟩

theorem trans (hg : g.Opens xs h) (hh : h.Opens ys k) : g.Opens (xs ++ ys) k := by
  refine ⟨hg.size_le.trans hh.size_le, fun v hv => ?_, fun v hv => ?_, fun v hv => ?_⟩
  · rcases mem_append.1 hv with hv | hv
    · exact (hg.opened_lt v hv).trans_le hh.size_le
    · exact hh.opened_lt v hv
  · rw [hh.isLive_iff v hv, mem_append, not_or, ← and_assoc]
    refine and_congr_left fun _ => ?_
    by_cases hlt : v < h.size
    · simp only [hlt, forall_const, hg.isLive_iff v hlt]
    · have hnot : v ∉ xs := fun hx => hlt (hg.opened_lt v hx)
      have hnew : ¬v < g.size := fun hv => hlt (hv.trans_le hg.size_le)
      simp [hlt, hnot, hnew]
  · rw [hh.children_eq v (hv.trans_le hg.size_le), hg.children_eq v hv]
    by_cases hx : v ∈ xs <;> by_cases hy : v ∈ ys <;> simp [hx, hy]

theorem of_nodes (hg : g.Opens xs h) (heq : k.nodes = h.nodes) : g.Opens xs k := by
  obtain ⟨nodes, _, _⟩ := k
  cases heq
  exact ⟨hg.size_le, hg.opened_lt, hg.isLive_iff, hg.children_eq⟩

theorem add (g : Graph) (e : Expr) : g.Opens [] (g.add e).2 := by
  refine ⟨g.size_add e ▸ Nat.le_succ _, by simp, fun v hv => ?_, fun v hv => ?_⟩
  · rw [size_add] at hv
    rcases Nat.lt_succ_iff_lt_or_eq.1 hv with hlt | rfl
    · simp [isLive_add_of_lt e hlt, hlt]
    · simp [isLive_add_self]
  · simp [children, expr_add_of_lt e hv]

theorem addDeclaring (g : Graph) (e : Expr) (l : Option Location) :
    g.Opens [] (g.addDeclaring e l).2 := by
  have hadd := add g e
  refine ⟨by simp [size_addDeclaring], by simp, fun v hv => ?_, fun v hv => ?_⟩
  · rw [isLive_addDeclaring]
    exact hadd.isLive_iff v (by rwa [size_add, ← size_addDeclaring e l])
  · rw [children_addDeclaring, hadd.children_eq v hv]

theorem addCondition (g : Graph) (cs : List NodeId) : g.Opens [] (g.addCondition cs).2 := by
  rcases cs with _ | ⟨x, _ | ⟨y, ys⟩⟩
  · exact refl g
  · exact refl g
  · exact add g _

theorem build (hbuild : d.build g = .ok (block, h)) : g.Opens [] h := by
  obtain ⟨-, rfl⟩ := Layout.block_of_build hbuild
  exact (addCondition g d.conjuncts).trans (addDeclaring _ _ _)

theorem dissolve (hv : g.expr v = .call .and args) : g.Opens [v] (g.dissolve v args) := by
  refine ⟨by rw [size_dissolve], fun u hu => ?_, fun u hu => ?_, fun u _ => ?_⟩
  · rw [size_dissolve, mem_singleton.1 hu]
    exact lt_size_of_expr (by rw [hv]; simp)
  · rw [size_dissolve] at hu
    rw [isLive_dissolve hv]
    by_cases huv : u = v <;> simp [huv, hu]
  · rw [children, expr_dissolve hv]
    by_cases huv : u = v
    · simp [huv, Expr.children]
    · simp [huv, children]

end Graph.Opens

namespace Layout

/-- The conjunction that a command takes apart. -/
def Command.opened (g : Graph) : Command → List NodeId
  | .restrict v => if (g.expr v).isConjunction ∧ g.parents v = [] then [v] else []
  | _ => []

/-- The conjunctions that a script takes apart from a layout on. -/
def opened (c : Catalog) (l : Layout) : List Command → List NodeId
  | [] => []
  | k :: ks => k.opened l.graph ++ ((perform c l k).map (opened c · ks)).getD []

theorem opens_restrict (d : BlockDraft) (g : Graph) (v : NodeId) :
    g.Opens (Command.opened g (.restrict v)) (d.restrict g v).2 := by
  rw [Command.opened]
  split
  · next h =>
    obtain ⟨args, hargs⟩ := Expr.exists_of_isConjunction h.1
    rw [restrict_of_opens hargs h.2]
    exact .dissolve hargs
  · next h =>
    rw [restrict_of_not_opens h]
    exact .refl g

section
variable {l m : Layout}

theorem opens_perform {k : Command} (h : perform c l k = some m) :
    l.graph.Opens (k.opened l.graph) m.graph := by
  unfold perform at h
  split at h
  · obtain ⟨-, heq⟩ := Option.ite_none_right_eq_some.1 h
    cases heq
    exact .add _ _
  · cases h
    exact (Opens.add _ _).of_nodes rfl
  · obtain ⟨-, heq⟩ := Option.ite_none_right_eq_some.1 h
    cases heq
    exact .add _ _
  · obtain ⟨-, heq⟩ := Option.ite_none_right_eq_some.1 h
    cases heq
    exact .addDeclaring _ _ _
  · obtain ⟨-, heq⟩ := Option.ite_none_right_eq_some.1 h
    cases heq
    exact (Opens.refl _).of_nodes rfl
  · cases h
    exact .refl _
  · split at h
    · next hscan =>
      cases h
      obtain ⟨t, -, heq⟩ := scanTable_eq_ok hscan
      cases heq
      exact (Opens.add _ _).trans (.add _ _)
    · cases h
  · obtain ⟨-, h⟩ := Option.ite_none_right_eq_some.1 h
    split at h
    · next hrange =>
      cases h
      obtain ⟨-, heq⟩ := rangeOver_eq_ok hrange
      cases heq
      exact .add _ _
    · cases h
  · obtain ⟨-, heq⟩ := Option.ite_none_right_eq_some.1 h
    cases heq
    exact opens_restrict _ _ _
  · obtain ⟨-, h⟩ := Option.ite_none_right_eq_some.1 h
    split at h
    · cases h
      exact .refl _
    · cases h
  · obtain ⟨-, heq⟩ := Option.ite_none_right_eq_some.1 h
    cases heq
    exact .refl _
  · obtain ⟨-, heq⟩ := Option.ite_none_right_eq_some.1 h
    cases heq
    exact .refl _
  · obtain ⟨-, heq⟩ := Option.ite_none_right_eq_some.1 h
    cases heq
    exact .refl _
  · split at h
    · next hbuild =>
      cases h
      exact .build hbuild
    · cases h
  · cases h

/-- What a script makes of the nodes. -/
theorem opens_of_run {ks : List Command} (h : ks.foldlM (perform c) l = some m) :
    l.graph.Opens (opened c l ks) m.graph := by
  induction ks generalizing l with
  | nil =>
    cases h
    exact .refl _
  | cons k ks ih =>
    obtain ⟨l', hl', h⟩ := Option.bind_eq_some_iff.1 h
    rw [opened, hl']
    exact (opens_perform hl').trans (ih h)

/-- A block has the nodes of its draft as children, and the conjunction of its conditions. -/
theorem mem_children_build {u : NodeId} (hbuild : d.build g = .ok (block, h))
    (hu : u ∈ h.children block) :
    u ∈ d.sources.map (·.entry.domain) ++ d.operands ∨ (g.size ≤ u ∧ u < h.size) := by
  obtain ⟨rfl, rfl⟩ := block_of_build hbuild
  rw [children_addDeclaring, children, expr_add_self] at hu
  have hcondition (hc : (g.addCondition d.conjuncts).1 = some u) :
      u ∈ d.conjuncts ∨ (g.size ≤ u ∧ u < (g.addCondition d.conjuncts).2.size + 1) := by
    rcases addCondition_spec hc with hcs | ⟨rfl, hlt, -⟩
    · exact .inl (by simp [hcs])
    · exact .inr ⟨le_rfl, Nat.lt_succ_of_lt hlt⟩
  have hselect : u ∈ (d.block (g.addCondition d.conjuncts).1).select.map (·.expr) →
      u ∈ d.select.map (·.expr) := by
    unfold BlockDraft.block
    dsimp only
    split
    · simp
    · exact id
  rw [size_addDeclaring, BlockDraft.operands]
  simp only [Expr.children, mem_append, Option.mem_toList] at hu ⊢
  rcases hu with ((((hu | hu) | hu) | hu) | hu) | hu
  · exact .inl (.inl (by simpa [BlockDraft.block] using hu))
  · exact (hcondition hu).imp (fun h => .inr (by simp [h])) id
  · exact .inl (.inr (.inl (.inl (.inl (.inr (hselect hu))))))
  · exact .inl (.inr (.inl (.inl (.inr hu))))
  · exact .inl (.inr (.inl (.inr hu)))
  · exact .inl (.inr (.inr hu))

/-- Let a draft become a block after a script. If the draft uses only nodes that are new or were alive
before the script, a child of the block is alive exactly if the script did not take it apart. An older
node has kept its children exactly if the script did not take it apart or it had none. -/
theorem isLive_build_iff {ks : List Command} {d : BlockDraft} {block : NodeId} {h : Graph}
    (hrun : ks.foldlM (perform c) l = some m) (hbuild : d.build m.graph = .ok (block, h)) :
    ((∀ u ∈ d.sources.map (·.entry.domain) ++ d.operands,
        u < m.graph.size ∧ (u < l.graph.size → l.graph.isLive u)) →
      ∀ u ∈ h.children block, h.isLive u ↔ u ∉ opened c l ks) ∧
    ∀ u < l.graph.size,
      h.children u = l.graph.children u ↔ u ∉ opened c l ks ∨ l.graph.children u = [] := by
  have hopens := (opens_of_run hrun).trans (.build hbuild)
  rw [append_nil] at hopens
  refine ⟨fun huses u hu => ?_, fun u hu => ?_⟩
  · have hlt : u < h.size ∧ (u < l.graph.size → l.graph.isLive u) := by
      rcases mem_children_build hbuild hu with hmem | ⟨hge, hlt⟩
      · exact ⟨Nat.lt_of_lt_of_le (huses u hmem).1 (Opens.build hbuild).size_le, (huses u hmem).2⟩
      · exact ⟨hlt, fun hold => absurd (Nat.lt_of_lt_of_le hold (opens_of_run hrun).size_le)
          (Nat.not_lt.2 hge)⟩
    rw [hopens.isLive_iff u hlt.1, and_iff_right hlt.2]
  · rw [hopens.children_eq u hu]
    by_cases hopened : u ∈ opened c l ks
    · rw [if_pos hopened, eq_comm]
      exact ⟨.inr, fun h => h.resolve_left fun hnot => hnot hopened⟩
    · rw [if_neg hopened]
      exact ⟨fun _ => .inl hopened, fun _ => rfl⟩

end

/-- The conjunction becomes the WHERE clause, and `a = b` is selected. -/
def apartLayout : Layout :=
  script ⟨[pairTable]⟩ (conditions ++ [.restrict 8, .select "x" 5])

theorem isLive_build_apart :
    [Command.restrict 8, .select "x" 5].foldlM (perform ⟨[pairTable]⟩)
      (script ⟨[pairTable]⟩ conditions) = some apartLayout ∧
    ∃ block h, apartLayout.draft.build apartLayout.graph = .ok (block, h) ∧
      (∀ u ∈ h.children block, h.isLive u) ∧ h.children 5 = [2, 3] := by
  have hrun : [Command.restrict 8, .select "x" 5].foldlM (perform ⟨[pairTable]⟩)
      (script ⟨[pairTable]⟩ conditions) = some apartLayout := rfl
  have hiff := isLive_build_iff (d := apartLayout.draft) hrun rfl
  refine ⟨hrun, _, _, rfl, fun u hu => ?_, ?_⟩
  · refine (hiff.1 (by decide +kernel) u hu).2 ?_
    revert u
    decide +kernel
  · exact ((hiff.2 5 (by decide +kernel)).2 (.inl (by decide +kernel))).trans (by decide +kernel)

/-- The conjunction is selected and becomes the WHERE clause. -/
def sharedLayout : Layout :=
  script ⟨[pairTable]⟩ (conditions ++ [.select "x" 8, .restrict 8])

/-- The selected conjunction dies and loses its arguments. -/
theorem isLive_build_shared :
    (script ⟨[pairTable]⟩ conditions).graph.isLive 8 ∧
    (script ⟨[pairTable]⟩ conditions).graph.children 8 = [6, 7] ∧
    ∃ block h, sharedLayout.draft.build sharedLayout.graph = .ok (block, h) ∧
      8 ∈ h.children block ∧ h.isLive 8 = false ∧ h.children 8 = [] :=
  ⟨by decide +kernel, by decide +kernel, _, _, rfl, by decide +kernel, by decide +kernel,
    by decide +kernel⟩

end Layout

end ShardedQuery
