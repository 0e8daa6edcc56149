import ShardedQuery.Proofs.Plan.Unfolding

/-!
# Registers never clash

After every sequence of calls each register belongs to one node, in one role
(`Registers.NoClash`). The registers that a plan mentions are those of one allocator, so that two
places of a plan name the same register only for the same node: `Plan.Fits` relates a plan to the
allocator, and the walk over the graph keeps this up for all plans on its stack.
-/

namespace ShardedQuery

open List

variable {r s : Registers} {inputs stack : List Plan} {g : Graph} {n : Nat} {p : Plan}

/-! ## Allocators -/

/-- Each register belongs to one node, as its result register or as one of its tuple block. -/
structure Registers.NoClash (r : Registers) : Prop where
  /-- Every register is held by exactly one node, -/
  owned : ∀ reg, reg < r.size → ∃ id, r.Holds id reg ∧ ∀ other, r.Holds other reg → other = id
  /-- and no others are held. -/
  inside : ∀ id reg, r.Holds id reg → reg < r.size
  results : ∀ id other reg, r.get? id = some reg → r.get? other = some reg → id = other
  contiguous : ∀ id block, r.tuple? id = some block → ∃ first, block = List.range' first block.length
  disjoint : ∀ id other block block', r.tuple? id = some block → r.tuple? other = some block' →
    id ≠ other → ∀ reg ∈ block, reg ∉ block'
  apart : ∀ id other reg block, r.get? id = some reg → r.tuple? other = some block → reg ∉ block

theorem Registers.Sound.noClash (hr : r.Sound) : r.NoClash := by
  refine ⟨fun reg hreg => ?_, fun id reg h => hr.lt_size_of_holds h, fun id other reg h h' => ?_,
    hr.contiguous, fun id other block block' h h' hne reg hmem hmem' => ?_,
    fun id other reg block h hblock hmem => ?_⟩
  · obtain ⟨id, hid⟩ := hr.owned reg hreg
    have hholds := (hr.owner_iff reg id).1 hid
    exact ⟨id, hholds, fun other h => hr.eq_of_holds h hholds⟩
  · exact hr.eq_of_holds (.inl h) (.inl h')
  · exact hne (hr.eq_of_holds (.inr ⟨block, h, hmem⟩) (.inr ⟨block', h', hmem'⟩))
  · have heq : id = other := hr.eq_of_holds (.inl h) (.inr ⟨block, hblock, hmem⟩)
    subst heq
    exact hr.apart id reg block h hblock hmem

/-- What the operations answer: a node gets a register at any time, and from then on the same one, and
so for its tuple block; only the register a node has can be assigned to it. A call that fails changes
nothing. -/
structure Registers.Answers (r : Registers) : Prop where
  alloc : ∀ id, ∃ reg s, (Registers.alloc id).run r = .ok reg s ∧ s.get? id = some reg ∧
    ∀ more, (Registers.alloc id).run (s.afterCalls more) = .ok reg (s.afterCalls more)
  allocTuple : ∀ id length block s, (Registers.allocTuple id length).run r = .ok block s →
    block.length = length ∧ s.tuple? id = some block ∧
    ∀ more, (Registers.allocTuple id length).run (s.afterCalls more) = .ok block (s.afterCalls more)
  assign : ∀ id reg s, (Registers.assign id reg).run r = .ok () s ↔ r.get? id = some reg ∧ s = r
  assign_error : ∀ id reg e s, (Registers.assign id reg).run r = .error e s → s = r
  allocTuple_error : ∀ id length e s, (Registers.allocTuple id length).run r = .error e s → s = r

theorem Registers.Sound.answers (hr : r.Sound) : r.Answers := by
  refine ⟨fun id => ?_, fun id length block s h => ?_, fun id reg s => hr.assign_eq_ok,
    fun id reg e s h => eq_of_assign_eq_error h, fun id length e s h => eq_of_allocTuple_eq_error h⟩
  · obtain ⟨reg, s, h, hs, -, hget, -⟩ := hr.alloc id
    exact ⟨reg, s, h, hget, fun more => alloc_of_some ((hs.afterCalls more).2.get id reg hget)⟩
  · obtain ⟨hs, -, hblock, hlength⟩ := hr.of_allocTuple h
    exact ⟨hlength, hblock, fun more =>
      allocTuple_of_some ((hs.afterCalls more).2.tuple id block hblock) hlength⟩

/-! ## Registers of a plan -/

/-- The registers a step lists for the variables that its node declares. -/
def StepKind.vars : StepKind → List Nat
  | slice context _ _ | filter context _ | mapFilter _ context _ => context
  | block vars _ _ _ _ _ _ => vars
  | _ => []

theorem Expr.vars_stepKind {e : Expr} {vars : List Nat} (h : vars.length = e.declared.length) :
    (e.stepKind vars).vars = vars := by
  cases e with
  | block b => rfl
  | slice input low high context => rfl
  | filter input condition context => rfl
  | mapFilter part input condition context => rfl
  | var v =>
    rw [eq_nil_of_length_eq_zero h]
    cases hv : v.kind <;> simp only [stepKind, hv, StepKind.vars]
  | _ => exact (eq_nil_of_length_eq_zero h).symm

namespace Plan

mutual

/-- All parts of a plan, each before its inputs. -/
def parts : Plan → List Plan
  | step n k inputs r t => step n k inputs r t :: partsAll inputs

/-- All parts of a list of plans. -/
def partsAll : List Plan → List Plan
  | [] => []
  | p :: ps => p.parts ++ partsAll ps

end

theorem mem_partsAll {ps : List Plan} : p ∈ partsAll ps ↔ ∃ q ∈ ps, p ∈ q.parts := by
  induction ps with
  | nil => simp [partsAll]
  | cons q ps ih => simp [partsAll, ih]

/-- The nodes a step names a register of: its own node and the variables that this node declares. -/
def registers (g : Graph) (p : Plan) : List (NodeId × Nat) :=
  (p.node, p.result) :: p.tuple.map (p.node, ·) ++ (g.expr p.node).declared.zip p.kind.vars

/-- A step has the registers that its node and the declared variables have in an allocator. -/
structure FitsAt (g : Graph) (r : Registers) (p : Plan) : Prop where
  result : r.get? p.node = some p.result
  tuple : ∀ reg ∈ p.tuple, r.Holds p.node reg
  vars : Forall₂ (fun v reg => r.get? v = some reg) (g.expr p.node).declared p.kind.vars

/-- All steps of a plan have the registers of an allocator. -/
def Fits (g : Graph) (r : Registers) (p : Plan) : Prop := ∀ q ∈ p.parts, q.FitsAt g r

theorem FitsAt.extend (h : p.FitsAt g r) (hext : Registers.Extends r s) : p.FitsAt g s :=
  ⟨hext.get _ _ h.result, fun reg hreg => hext.holds (h.tuple reg hreg),
    h.vars.imp fun _ _ hv => hext.get _ _ hv⟩

theorem Fits.extend (h : p.Fits g r) (hext : Registers.Extends r s) : p.Fits g s :=
  fun q hq => (h q hq).extend hext

theorem FitsAt.holds (h : p.FitsAt g r) {reg : Nat} (hmem : (n, reg) ∈ p.registers g) :
    r.Holds n reg := by
  rw [registers, mem_append, mem_cons, mem_map] at hmem
  rcases hmem with (heq | ⟨reg', hreg', heq⟩) | hmem
  · cases heq
    exact .inl h.result
  · cases heq
    exact h.tuple reg hreg'
  · exact .inl ((forall₂_iff_zip.1 h.vars).2 hmem)

end Plan

namespace Graph

theorem IsStepOf.fits {id : NodeId} (h : g.IsStepOf id inputs s p)
    (hinputs : ∀ q ∈ inputs, q.Fits g s) : p.Fits g s := by
  obtain ⟨vars, result, tuple, rfl, hresult, htuple, hvars⟩ := h
  intro q hq
  rw [Plan.parts, mem_cons] at hq
  rcases hq with rfl | hq
  · refine ⟨hresult, htuple, ?_⟩
    rw [Plan.kind, Expr.vars_stepKind hvars.length_eq.symm]
    exact hvars
  · obtain ⟨input, hinput, hq⟩ := Plan.mem_partsAll.1 hq
    exact hinputs input hinput q hq

theorem takeInputs_eq_ok {id : NodeId} {inputs' stack' : List Plan}
    (h : (takeInputs id n stack inputs).run r = .ok (inputs', stack') s) :
    s = r ∧ (∀ p ∈ inputs', p ∈ inputs ∨ p ∈ stack) ∧ ∀ p ∈ stack', p ∈ stack := by
  induction n generalizing stack inputs with
  | zero =>
    cases h
    exact ⟨rfl, fun p hp => .inl hp, fun p hp => hp⟩
  | succ n ih =>
    cases stack with
    | nil => cases h
    | cons p stack =>
      obtain ⟨hs, hinputs, hstack⟩ := ih h
      refine ⟨hs, fun q hq => ?_, fun q hq => mem_cons_of_mem p (hstack q hq)⟩
      rcases hinputs q hq with hq | hq
      · rcases mem_cons.1 hq with rfl | hq
        · exact .inr (.head _)
        · exact .inl hq
      · exact .inr (mem_cons_of_mem p hq)

/-- Whatever is on the stack of a walk has the registers of the allocator. -/
theorem visitAll_fits {work : List Visit} {out : List Plan} (hr : r.Sound)
    (hstack : ∀ p ∈ stack, p.Fits g r) (h : (g.visitAll n work stack).run r = .ok out s) :
    s.Sound ∧ ∀ p ∈ out, p.Fits g s := by
  induction n generalizing work stack r with
  | zero =>
    cases work with
    | nil =>
      cases h
      exact ⟨hr, hstack⟩
    | cons visit work =>
      cases h
      exact ⟨hr, fun p hp => by cases hp⟩
  | succ n ih =>
    match work with
    | [] =>
      cases h
      exact ⟨hr, hstack⟩
    | .enter id :: work =>
      obtain ⟨t, hopen, ht, hrt, -⟩ := exists_openScope (g := g) hr id
      rw [visitAll, RegisterM.bind_of_ok hopen] at h
      exact ih ht (fun p hp => (hstack p hp).extend hrt) h
    | .leave id :: work =>
      rw [visitAll] at h
      obtain ⟨⟨inputs, rest⟩, t, htake, hleft⟩ := RegisterM.bind_eq_ok.1 h
      obtain ⟨p, u, hmake, hwalk⟩ := RegisterM.bind_eq_ok.1 hleft
      obtain ⟨rfl, hinputs, hrest⟩ := takeInputs_eq_ok htake
      obtain ⟨hu, hru, hstep⟩ := makeStep_of_ok hr hmake
      have hfits : ∀ q ∈ stack, q.Fits g u := fun q hq => (hstack q hq).extend hru
      refine ih hu (fun q hq => ?_) hwalk
      rcases mem_cons.1 hq with rfl | hq
      · refine hstep.fits fun input hinput => ?_
        rcases hinputs input hinput with hnone | hmem
        · cases hnone
        · exact hfits input hmem
      · exact hfits q (hrest q hq)

/-- A plan has the registers of one allocator, which holds as many as the plan says. -/
theorem generate_fits {q : CompiledQuery} (h : g.generate = .ok q) :
    ∃ s : Registers, s.Sound ∧ s.size = q.numRegisters ∧ q.plan.Fits g s := by
  rw [generate] at h
  split at h
  · cases h
  rename_i root hroot
  split at h
  · cases h
  rename_i plan s hlayOut
  cases h
  rw [layOut] at hlayOut
  obtain ⟨out, t, hwalk, hend⟩ := RegisterM.bind_eq_ok.1 hlayOut
  obtain ⟨ht, hfits⟩ := visitAll_fits Registers.sound_empty (fun p hp => by cases hp) hwalk
  -- The walk ends with the plan of the root alone on its stack.
  cases out with
  | nil => cases hend
  | cons p rest =>
    cases rest with
    | nil =>
      cases hend
      exact ⟨s, ht, rfl, hfits plan (.head _)⟩
    | cons p' rest => cases hend

end Graph

/-- A plan names one register for two nodes nowhere, and a variable is read from the register that
the step lists which declares it. -/
structure CompiledQuery.NoClash (g : Graph) (q : CompiledQuery) : Prop where
  inside : ∀ p ∈ q.plan.parts, ∀ n reg, (n, reg) ∈ p.registers g → reg < q.numRegisters
  unique : ∀ p ∈ q.plan.parts, ∀ p' ∈ q.plan.parts, ∀ n n' reg, (n, reg) ∈ p.registers g →
    (n', reg) ∈ p'.registers g → n = n'
  vars : ∀ p ∈ q.plan.parts, ∀ name, p.kind = .varRef name → ∀ d ∈ q.plan.parts, ∀ i : Nat,
    (g.expr d.node).declared[i]? = some p.node → d.kind.vars[i]? = some p.result

theorem Plan.FitsAt.getElem?_vars {d : Plan} (hd : d.FitsAt g r) {v i reg : Nat}
    (hv : (g.expr d.node).declared[i]? = some v) (hreg : r.get? v = some reg) :
    d.kind.vars[i]? = some reg := by
  obtain ⟨hi, hv⟩ := List.getElem?_eq_some_iff.1 hv
  have hi' : i < d.kind.vars.length := hd.vars.length_eq ▸ hi
  have hget := (forall₂_iff_get.1 hd.vars).2 i hi hi'
  rw [get_eq_getElem, hv, hreg] at hget
  rw [getElem?_eq_getElem hi', Option.some.inj hget]
  rfl

/-- Registers never clash, whatever calls an allocator has answered, and hence neither in a plan. -/
theorem Registers.calls_never_clash :
    (∀ calls, (({} : Registers).afterCalls calls).NoClash ∧
      (({} : Registers).afterCalls calls).Answers) ∧
    ∀ (g : Graph) (q : CompiledQuery), g.generate = .ok q → q.NoClash g := by
  refine ⟨fun calls => ?_, fun g q hq => ?_⟩
  · have hsound := (sound_empty.afterCalls calls).1
    exact ⟨hsound.noClash, hsound.answers⟩
  · obtain ⟨s, hs, hsize, hfits⟩ := Graph.generate_fits hq
    refine ⟨fun p hp n reg h => ?_, fun p hp p' hp' n n' reg h h' => ?_,
      fun p hp name _ d hd i hi => ?_⟩
    · exact hsize ▸ hs.lt_size_of_holds ((hfits p hp).holds h)
    · exact hs.eq_of_holds ((hfits p hp).holds h) ((hfits p' hp').holds h')
    · exact (hfits d hd).getElem?_vars hi (hfits p hp).result

/-- An allocator that was asked for a register twice, for a tuple block twice, and for a block of
another length; and the plan of a graph with shared nodes. -/
theorem Registers.calls_never_clash_shared :
    (({} : Registers).afterCalls [.alloc 3, .allocTuple 3 2, .assign 4 0, .alloc 3, .allocTuple 3 5,
      .allocTuple 3 2]).NoClash ∧
    ∃ q, Graph.sharedSample.generate = .ok q ∧ q.NoClash Graph.sharedSample := by
  refine ⟨(calls_never_clash.1 _).1, ?_⟩
  have hok : Graph.sharedSample.generate.isOk := by decide +kernel
  cases hq : Graph.sharedSample.generate with
  | error e =>
    rw [hq] at hok
    cases hok
  | ok q => exact ⟨q, rfl, calls_never_clash.2 _ q hq⟩

end ShardedQuery
