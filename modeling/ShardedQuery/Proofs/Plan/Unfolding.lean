import Mathlib.Data.List.Forall2
import ShardedQuery.Plan.Generate
import ShardedQuery.Proofs.Graph.Reach
import ShardedQuery.Proofs.Plan.Registers

/-!
# The plan of a graph is its unfolding

`Graph.Unfolds g id p` says that the plan `p` is the part of the graph below `id`, unfolded into a
tree: each step is that of a node, its inputs are the plans of the children of the node, slot by
slot, and what the step knows about itself tells the role of each input. A graph without cycles below
its root has such a plan, and `Graph.generate` finds it (`Graph.generate_unfolds`): the stack of
finished plans never runs empty and nothing is left on it, every variable has a register when the
node that declares it is left, and no node asks for tuples of two lengths.
-/

namespace ShardedQuery

open List

variable {r s : Registers} {g : Graph} {vars : List Nat} {n : Nat} {root : NodeId} {p : Plan}

/-! ## Roles of inputs -/

/-- What an input is to its node. -/
inductive Role where
  | domain
  | condition
  | column
  | sortKey
  | offset
  | limit
  | key
  | rangeStart
  | rangeStop
  | filter
  /-- What a path step, a type operation or a boundary works on. -/
  | operand
  | low
  | high
  | argument
  | test
  | result
  | otherwise
  deriving DecidableEq, Repr

/-- The slots of a node with their roles. -/
def Expr.slots : Expr → List (Role × NodeId)
  | block b =>
    b.entries.map (fun e => (.domain, e.domain)) ++ b.condition.toList.map (.condition, ·)
      ++ b.select.map (fun f => (.column, f.expr)) ++ b.sort.map (fun k => (.sortKey, k.expr))
      ++ b.offset.toList.map (.offset, ·) ++ b.limit.toList.map (.limit, ·)
  | scan s =>
    s.keys.map (.key, ·)
      ++ (s.range.map fun r => r.start.toList.map (Role.rangeStart, ·)
        ++ r.stop.toList.map (.rangeStop, ·)).getD []
      ++ s.filter.toList.map (.filter, ·)
  | var _ | literal _ => []
  | field input _ | cast input _ | isOfType input _ _ | promote input _ => [(.operand, input)]
  | slice input low high _ =>
    (.operand, input) :: (low.toList.map (.low, ·) ++ high.toList.map (.high, ·))
  | filter input condition _ | mapFilter _ input condition _ =>
    (.operand, input) :: condition.toList.map (.condition, ·)
  | call _ args | array args _ | map args => args.map (.argument, ·)
  | case branches otherwise =>
    branches.flatMap (fun (w, t) => [(.test, w), (.result, t)])
      ++ otherwise.toList.map (.otherwise, ·)
  | receive r => [(.operand, r.input)]

/-- A role that is filled if the flag is set. -/
def Role.when (role : Role) (flag : Bool) : List Role := if flag then [role] else []

/-- The roles of the inputs of a step, as its flags and counts tell them. Only the arguments of calls
and constructors have to be counted. -/
def StepKind.roles (inputs : Nat) : StepKind → List Role
  | literal _ | varRef _ | external _ _ _ => []
  | field _ | cast _ | promote _ | isOfType _ _ | receive _ _ _ _ => [.operand]
  | slice _ hasLow hasHigh => .operand :: (Role.low.when hasLow ++ Role.high.when hasHigh)
  | filter _ hasCondition | mapFilter _ _ hasCondition =>
    .operand :: Role.condition.when hasCondition
  | call _ | array _ | map => List.replicate inputs .argument
  | case branches hasElse =>
    (List.replicate branches [Role.test, .result]).flatten ++ Role.otherwise.when hasElse
  | scan _ _ keys range hasFilter _ _ _ =>
    List.replicate keys .key
      ++ (range.map fun r => Role.rangeStart.when r.hasStart ++ Role.rangeStop.when r.hasStop).getD []
      ++ Role.filter.when hasFilter
  | block vars hasWhere columns _ sortSpecs hasOffset hasLimit =>
    List.replicate vars.length .domain ++ Role.condition.when hasWhere
      ++ List.replicate columns.length .column ++ List.replicate sortSpecs.length .sortKey
      ++ Role.offset.when hasOffset ++ Role.limit.when hasLimit

theorem Expr.map_snd_slots (e : Expr) : e.slots.map (·.2) = e.children := by
  cases e with
  | scan s => cases h : s.range <;> simp [slots, children, FieldRange.ends, h, Function.comp_def]
  | case branches otherwise =>
    simp [slots, children, map_flatMap, Function.comp_def]
  | _ => simp [slots, children, Function.comp_def]

theorem Role.replicate_toList {α : Type} (role : Role) (o : Option α) :
    List.replicate o.toList.length role = role.when o.isSome := by
  cases o <;> rfl

/-- The step of a node tells the roles of the slots of the node. -/
theorem Expr.roles_stepKind (e : Expr) (hvars : vars.length = e.declared.length) :
    (e.stepKind vars).roles e.children.length = e.slots.map (·.1) := by
  cases e with
  | var v => cases h : v.kind <;> simp [stepKind, StepKind.roles, slots, h]
  | block b =>
    have hlength : vars.length = b.entries.length := by simpa [declared] using hvars
    simp only [stepKind, StepKind.roles, slots, hlength, length_map, map_append,
      map_map, Function.comp_def, map_const', Role.replicate_toList]
  | scan s =>
    cases h : s.range <;>
      simp only [stepKind, StepKind.roles, slots, h, rangeShape, Option.map_none, Option.map_some,
        Option.getD_none, Option.getD_some, map_nil, map_append, map_map,
        Function.comp_def, map_const', Role.replicate_toList]
  | case branches otherwise =>
    simp only [stepKind, StepKind.roles, slots, map_append, map_map, map_flatMap,
      Function.comp_def, map_cons, map_nil, map_const', Role.replicate_toList]
    rw [flatMap_def, map_const']
  | _ =>
    simp only [stepKind, StepKind.roles, slots, children, map_append, map_map, map_cons,
      map_nil, Function.comp_def, map_const', Role.replicate_toList]

/-! ## Unfoldings -/

namespace Graph

/-- The plan is the part of the graph below a node, unfolded into a tree. -/
inductive Unfolds (g : Graph) : NodeId → Plan → Prop
  | step {id : NodeId} {vars : List Nat} {inputs : List Plan} {result : Nat} {tuple : List Nat}
      (hvars : vars.length = (g.expr id).declared.length)
      (hroles : ((g.expr id).stepKind vars).roles inputs.length = (g.expr id).slots.map (·.1))
      (hinputs : Forall₂ (Unfolds g) ((g.expr id).slots.map (·.2)) inputs) :
      Unfolds g id (.step id ((g.expr id).stepKind vars) inputs result tuple)

end Graph

namespace Plan

mutual

theorem numSteps_eq_length : (p : Plan) → p.numSteps = p.steps.length
  | step _ _ inputs _ _ => by
    rw [numSteps, steps, length_cons, numStepsAll_eq_length inputs, Nat.add_comm]

theorem numStepsAll_eq_length : (ps : List Plan) → numStepsAll ps = (stepsAll ps).length
  | [] => rfl
  | p :: ps => by
    rw [numStepsAll, stepsAll, length_append, numSteps_eq_length p, numStepsAll_eq_length ps]

end

end Plan

namespace Graph

mutual

theorem Unfolds.of_mem_steps {g : Graph} : {id : NodeId} → {p : Plan} → g.Unfolds id p →
    ∀ {n : NodeId} {kind : StepKind}, (n, kind) ∈ p.steps → ∃ vars, kind = (g.expr n).stepKind vars
  | _, _, .step _ _ hinputs, n, kind, h => by
    rw [Plan.steps, mem_cons] at h
    rcases h with h | h
    · cases h
      exact ⟨_, rfl⟩
    · exact of_mem_stepsAll hinputs h

theorem of_mem_stepsAll {g : Graph} : {ids : List NodeId} → {ps : List Plan} →
    Forall₂ g.Unfolds ids ps → ∀ {n : NodeId} {kind : StepKind}, (n, kind) ∈ Plan.stepsAll ps →
      ∃ vars, kind = (g.expr n).stepKind vars
  | _, _, .nil, n, kind, h => by cases h
  | _, _, .cons hp hps, n, kind, h => by
    rw [Plan.stepsAll, mem_append] at h
    rcases h with h | h
    · exact hp.of_mem_steps h
    · exact of_mem_stepsAll hps h

end

end Graph

/-! ## Making a step -/

section
variable {α : Type}

theorem RegisterM.discard_of_ok {x : RegisterM α} {a : α} (hx : x.run r = .ok a s) :
    (discard x : RegisterM PUnit).run r = .ok ⟨⟩ s := by
  have hmap : (discard x : RegisterM PUnit) = x >>= fun _ => pure ⟨⟩ := rfl
  rw [hmap, RegisterM.bind_of_ok hx, EStateM.run_pure]

end

namespace Graph

section
variable {id : NodeId} {inputs : List Plan}

/-- A sound allocator in which every tuple block has the length that its node asks for. -/
structure Ready (g : Graph) (r : Registers) : Prop extends r.Sound where
  tuples : ∀ id block, r.tuple? id = some block → (g.expr id).tupleLength? = some block.length

theorem ready_empty (g : Graph) : g.Ready {} :=
  ⟨Registers.sound_empty, fun id block h => by cases h⟩

/-- Registers for all variables of a list. -/
theorem exists_allocAll (vs : List NodeId) (hr : r.Sound) :
    ∃ s, (vs.forM fun v => discard (Registers.alloc v)).run r = .ok ⟨⟩ s ∧ s.Sound ∧
      Registers.Extends r s ∧ s.tuples = r.tuples ∧ ∀ v ∈ vs, ∃ reg, s.get? v = some reg := by
  induction vs generalizing r with
  | nil => exact ⟨r, rfl, hr, .refl r, rfl, fun v hv => by cases hv⟩
  | cons v vs ih =>
    obtain ⟨reg, t, halloc, ht, hrt, hreg, htuples⟩ := hr.alloc v
    obtain ⟨s, hs, hsound, hts, htuples', hall⟩ := ih ht
    refine ⟨s, ?_, hsound, hrt.trans hts, htuples'.trans htuples, fun w hw => ?_⟩
    · rw [List.forM, RegisterM.bind_of_ok (RegisterM.discard_of_ok halloc), hs]
    · rcases mem_cons.1 hw with rfl | hw
      · exact ⟨reg, hts.get _ _ hreg⟩
      · exact hall w hw

theorem exists_openScope (hr : r.Sound) (id : NodeId) :
    ∃ s, (g.openScope id).run r = .ok ⟨⟩ s ∧ s.Sound ∧ Registers.Extends r s ∧ s.tuples = r.tuples ∧
      ∀ v ∈ (g.expr id).declared, ∃ reg, s.get? v = some reg :=
  exists_allocAll _ hr

theorem varRegister_eq_ok {v reg : Nat} :
    (varRegister v).run r = .ok reg s ↔ r.get? v = some reg ∧ s = r := by
  cases h : r.get? v <;> simp [varRegister, h, eq_comm]

/-- The registers of variables are those that the variables have. -/
theorem mapM_varRegister_eq_ok {vs regs : List Nat} :
    (vs.mapM varRegister).run r = .ok regs s ↔
      Forall₂ (fun v reg => r.get? v = some reg) vs regs ∧ s = r := by
  induction vs generalizing regs s with
  | nil =>
    rw [mapM_nil, RegisterM.pure_eq_ok, forall₂_nil_left_iff]
    exact and_congr eq_comm eq_comm
  | cons v vs ih =>
    rw [mapM_cons]
    constructor
    · intro h
      obtain ⟨reg, t, hreg, htail⟩ := RegisterM.bind_eq_ok.1 h
      obtain ⟨rest, t', hrest, hend⟩ := RegisterM.bind_eq_ok.1 htail
      obtain ⟨hreg, rfl⟩ := varRegister_eq_ok.1 hreg
      obtain ⟨hrest, rfl⟩ := ih.1 hrest
      obtain ⟨rfl, rfl⟩ := RegisterM.pure_eq_ok.1 hend
      exact ⟨.cons hreg hrest, rfl⟩
    · rintro ⟨h, rfl⟩
      cases h with
      | cons hreg hrest =>
        rw [RegisterM.bind_of_ok (varRegister_eq_ok.2 ⟨hreg, rfl⟩),
          RegisterM.bind_of_ok (ih.2 ⟨hrest, rfl⟩)]
        rfl

theorem tupleBlock_of_ok {tuple : List Nat} (hr : r.Sound) (h : (g.tupleBlock id).run r = .ok tuple s) :
    s.Sound ∧ Registers.Extends r s ∧ (∀ reg ∈ tuple, s.Holds id reg) := by
  rw [tupleBlock] at h
  split at h
  · obtain ⟨hs, hext, hblock, -⟩ := hr.of_allocTuple h
    exact ⟨hs, hext, fun reg hreg => .inr ⟨_, hblock, hreg⟩⟩
  · obtain ⟨rfl, rfl⟩ := RegisterM.pure_eq_ok.1 h
    exact ⟨hr, .refl r, fun reg hreg => by cases hreg⟩

theorem exists_tupleBlock (hr : g.Ready r) (id : NodeId) :
    ∃ tuple s, (g.tupleBlock id).run r = .ok tuple s ∧ g.Ready s ∧ Registers.Extends r s := by
  rw [tupleBlock]
  split
  · rename_i length hlength
    have hsame : ∀ block, r.tuple? id = some block → block.length = length := by
      intro block hblock
      have := (hr.tuples id block hblock).symm.trans hlength
      exact Option.some.inj this
    cases hid : r.tuple? id with
    | some block =>
      exact ⟨block, r, Registers.allocTuple_of_some hid (hsame block hid), hr, .refl r⟩
    | none =>
      refine ⟨_, _, Registers.allocTuple_of_none hid,
        ⟨hr.toSound.withTuple hid, fun other block h => ?_⟩, Registers.extends_withTuple hid⟩
      rw [Registers.tuple?_withTuple] at h
      split at h
      · rename_i heq
        cases h
        rw [heq, hlength, length_range']
      · exact hr.tuples other block h
  · exact ⟨[], r, rfl, hr, .refl r⟩

/-- The plan is the step of a node over the given inputs, with the registers of an allocator. -/
def IsStepOf (g : Graph) (id : NodeId) (inputs : List Plan) (s : Registers) (p : Plan) : Prop :=
  ∃ vars result tuple, p = .step id ((g.expr id).stepKind vars) inputs result tuple ∧
    s.get? id = some result ∧ (∀ reg ∈ tuple, s.Holds id reg) ∧
    Forall₂ (fun v reg => s.get? v = some reg) (g.expr id).declared vars

theorem makeStep_of_ok (hr : r.Sound) (h : (g.makeStep id inputs).run r = .ok p s) :
    s.Sound ∧ Registers.Extends r s ∧ g.IsStepOf id inputs s p := by
  rw [makeStep] at h
  obtain ⟨result, t, hresult, hrest⟩ := RegisterM.bind_eq_ok.1 h
  obtain ⟨tuple, t', htuple, hrest'⟩ := RegisterM.bind_eq_ok.1 hrest
  obtain ⟨vars, t'', hvars, hend⟩ := RegisterM.bind_eq_ok.1 hrest'
  obtain ⟨reg, u, halloc, hu, hru, hget, -⟩ := hr.alloc id
  rw [hresult] at halloc
  cases halloc
  obtain ⟨ht', hext, hholds⟩ := tupleBlock_of_ok hu htuple
  obtain ⟨hvars, rfl⟩ := mapM_varRegister_eq_ok.1 hvars
  obtain ⟨rfl, rfl⟩ := RegisterM.pure_eq_ok.1 hend
  exact ⟨ht', hru.trans hext, vars, result, tuple, rfl, hext.get _ _ hget, hholds, hvars⟩

/-- A node whose variables have registers can be left. -/
theorem exists_makeStep (hr : g.Ready r)
    (hvars : ∀ v ∈ (g.expr id).declared, ∃ reg, r.get? v = some reg) (inputs : List Plan) :
    ∃ p s, (g.makeStep id inputs).run r = .ok p s ∧ g.Ready s := by
  obtain ⟨result, t, halloc, ht, hrt, -, htuples⟩ := hr.toSound.alloc id
  have hready : g.Ready t := ⟨ht, fun other block h => hr.tuples other block (by
    rwa [Registers.tuple?, htuples] at h)⟩
  obtain ⟨tuple, s, htuple, hs, hts⟩ := exists_tupleBlock hready id
  have hregs : ∃ regs, Forall₂ (fun v reg => s.get? v = some reg) (g.expr id).declared regs := by
    have hall : ∀ v ∈ (g.expr id).declared, ∃ reg, s.get? v = some reg := fun v hv => by
      obtain ⟨reg, hreg⟩ := hvars v hv
      exact ⟨reg, hts.get _ _ (hrt.get _ _ hreg)⟩
    generalize (g.expr id).declared = vs at hall
    induction vs with
    | nil => exact ⟨[], .nil⟩
    | cons v vs ih =>
      obtain ⟨reg, hreg⟩ := hall v (.head _)
      obtain ⟨regs, hrest⟩ := ih fun w hw => hall w (mem_cons_of_mem v hw)
      exact ⟨reg :: regs, .cons hreg hrest⟩
  obtain ⟨regs, hregs⟩ := hregs
  refine ⟨.step id ((g.expr id).stepKind regs) inputs result tuple, s, ?_, hs⟩
  rw [makeStep, RegisterM.bind_of_ok halloc, RegisterM.bind_of_ok htuple,
    RegisterM.bind_of_ok (mapM_varRegister_eq_ok.2 ⟨hregs, rfl⟩)]
  rfl

end

/-! ## How many visits there are -/

/-- The number of visits that a node with less than `n` nodes below one another may take. -/
def visitLimit (g : Graph) (n : Nat) : Nat := 2 * Nat.pow (g.slotCount + 1) n

theorem le_foldl_add {α : Type} (f : α → Nat) (l : List α) (n : Nat) :
    n ≤ l.foldl (fun n x => n + f x) n := by
  induction l generalizing n with
  | nil => exact le_rfl
  | cons x l ih => exact (Nat.le_add_right n (f x)).trans (ih _)

theorem le_foldl_add_of_mem {α : Type} (f : α → Nat) {l : List α} {x : α} (hx : x ∈ l) (n : Nat) :
    f x ≤ l.foldl (fun n x => n + f x) n := by
  induction l generalizing n with
  | nil => cases hx
  | cons y l ih =>
    rcases mem_cons.1 hx with rfl | hx
    · exact (Nat.le_add_left _ _).trans (le_foldl_add f l _)
    · exact ih hx _

theorem length_children_le_slotCount (g : Graph) (id : NodeId) :
    (g.children id).length ≤ g.slotCount := by
  by_cases hlt : id < g.size
  · have hmem : g.node id ∈ g.nodes.toList := by
      obtain ⟨n, hn⟩ : ∃ n, g.nodes[id]? = some n := ⟨_, Array.getElem?_eq_getElem hlt⟩
      rw [node, Array.getD_eq_getD_getElem?, hn, Option.getD_some]
      exact (Array.mem_of_getElem? hn).val
    rw [slotCount, ← Array.foldl_toList]
    exact le_foldl_add_of_mem (fun node : Node => node.expr.children.length) hmem 0
  · rw [children_of_size_le (Nat.le_of_not_lt hlt)]
    exact Nat.zero_le _

/-- A node is entered and left, and so are the nodes below it. -/
theorem visitLimit_succ (g : Graph) (n : Nat) (id : NodeId) :
    (g.children id).length * g.visitLimit n + 2 ≤ g.visitLimit (n + 1) := by
  have hpos : 0 < Nat.pow (g.slotCount + 1) n := Nat.pow_pos (Nat.succ_pos _)
  have hle := Nat.mul_le_mul_right (g.visitLimit n) (g.length_children_le_slotCount id)
  have heq : g.visitLimit (n + 1) = g.slotCount * g.visitLimit n + g.visitLimit n := by
    show 2 * (Nat.pow (g.slotCount + 1) n * (g.slotCount + 1)) = _
    simp only [visitLimit]
    generalize Nat.pow (g.slotCount + 1) n = k
    generalize g.slotCount = m
    rw [Nat.mul_succ, Nat.mul_add, Nat.mul_left_comm m, Nat.mul_comm k m]
  have htwo : 2 ≤ g.visitLimit n := by
    simp only [visitLimit]
    omega
  omega

/-! ## The walk -/

theorem takeInputs_reverse (id : NodeId) (ps stack inputs : List Plan) :
    (takeInputs id ps.length (ps.reverse ++ stack) inputs).run r = .ok (ps ++ inputs, stack) r := by
  induction ps using reverseRecOn generalizing inputs with
  | nil => rfl
  | append_singleton ps p ih =>
    rw [length_append, reverse_append]
    show (takeInputs id ps.length (ps.reverse ++ stack) (p :: inputs)).run r = _
    rw [ih, append_assoc, singleton_append]

/-- The walk from a node on puts an unfolding of the node on the stack and goes on from there. -/
def Walks (g : Graph) (n : Nat) (id : NodeId) : Prop :=
  ∀ r, g.Ready r → ∃ visits p s, visits ≤ g.visitLimit n ∧ g.Unfolds id p ∧ g.Ready s ∧
    Registers.Extends r s ∧ ∀ more work stack,
      (g.visitAll (visits + more) (.enter id :: work) stack).run r =
        (g.visitAll more work (p :: stack)).run s

/-- Nodes are walked one after the other. -/
theorem walks_all {ids : List NodeId} (hids : ∀ id ∈ ids, g.Walks n id) (hr : g.Ready r) :
    ∃ visits ps s, visits ≤ ids.length * g.visitLimit n ∧ Forall₂ g.Unfolds ids ps ∧
      g.Ready s ∧ Registers.Extends r s ∧ ∀ more work stack,
        (g.visitAll (visits + more) (ids.map .enter ++ work) stack).run r =
          (g.visitAll more work (ps.reverse ++ stack)).run s := by
  induction ids generalizing r with
  | nil =>
    refine ⟨0, [], r, Nat.zero_le _, .nil, hr, .refl r, fun more work stack => ?_⟩
    rw [Nat.zero_add]
    rfl
  | cons id ids ih =>
    obtain ⟨visits, p, t, hvisits, hp, ht, hrt, hrun⟩ := hids id (.head _) r hr
    obtain ⟨visits', ps, s, hvisits', hps, hs, hts, hrun'⟩ :=
      ih (fun id hid => hids id (.tail _ hid)) ht
    refine ⟨visits + visits', p :: ps, s, ?_, .cons hp hps, hs, hrt.trans hts,
      fun more work stack => ?_⟩
    · rw [length_cons, Nat.succ_mul]
      omega
    · rw [Nat.add_assoc, map_cons, cons_append, hrun, hrun', reverse_cons,
        append_assoc, singleton_append]

/-- A node is walked when its children are: its variables get their registers first, and when the
node is left the plans of its children are on top of the stack. -/
theorem walks_of_fitsIn {id : NodeId} (h : g.FitsIn n id) : g.Walks n id := by
  induction n generalizing id with
  | zero => cases h
  | succ n ih =>
    intro r hr
    obtain ⟨t, hopen, ht, hrt, htuples, hvars⟩ := exists_openScope (g := g) hr.toSound id
    have hready : g.Ready t := ⟨ht, fun other block hblock => hr.tuples other block (by
      rwa [Registers.tuple?, htuples] at hblock)⟩
    obtain ⟨visits, ps, u, hvisits, hps, hu, htu, hrun⟩ :=
      walks_all (fun c hc => ih (h c hc)) hready
    have hlength : (g.children id).length = ps.length := hps.length_eq
    obtain ⟨p, s, hmake, hs⟩ := exists_makeStep hu (fun v hv => by
      obtain ⟨reg, hreg⟩ := hvars v hv
      exact ⟨reg, htu.get _ _ hreg⟩) ps
    obtain ⟨-, hus, vars, result, tuple, rfl, -, -, hregs⟩ := makeStep_of_ok hu.toSound hmake
    refine ⟨visits + 2, .step id ((g.expr id).stepKind vars) ps result tuple, s, ?_, ?_, hs,
      hrt.trans (htu.trans hus), fun more work stack => ?_⟩
    · exact (Nat.add_le_add_right hvisits 2).trans (g.visitLimit_succ n id)
    · refine .step hregs.length_eq.symm ?_ ?_
      · rw [← hlength]
        exact Expr.roles_stepKind _ hregs.length_eq.symm
      · rw [Expr.map_snd_slots]
        exact hps
    · have htake := takeInputs_reverse (r := u) id ps stack []
      rw [← hlength, append_nil] at htake
      calc (g.visitAll (visits + 2 + more) (.enter id :: work) stack).run r
          = (g.visitAll (visits + (more + 1) + 1) (.enter id :: work) stack).run r := by
            rw [show visits + 2 + more = visits + (more + 1) + 1 by omega]
        _ = (g.visitAll (visits + (more + 1)) ((g.children id).map .enter ++ .leave id :: work)
              stack).run t := by
            rw [visitAll, RegisterM.bind_of_ok hopen]
        _ = (g.visitAll (more + 1) (.leave id :: work) (ps.reverse ++ stack)).run u := hrun _ _ _
        _ = _ := by
            rw [visitAll, RegisterM.bind_of_ok htake]
            exact RegisterM.bind_of_ok hmake

/-! ## The plan -/

/-- An external variable of the graph is one of the plan. -/
theorem mem_externalVars {id number : Nat} {name : String} {declared : SeqType}
    (hid : id ∈ g.externals) (hkind : .external number name declared = (g.expr id).stepKind vars) :
    (⟨number, name, declared⟩ : ExternalVar) ∈ g.externalVars := by
  refine mem_filterMap.2 ⟨id, hid, ?_⟩
  cases he : g.expr id with
  | var v =>
    obtain ⟨vname, vkind, decl⟩ := v
    rw [he] at hkind
    cases vkind <;> simp only [Expr.stepKind, reduceCtorEq, StepKind.external.injEq] at hkind
    obtain ⟨rfl, rfl, rfl⟩ := hkind
    simp only [var?, he]
  | _ =>
    rw [he] at hkind
    cases hkind

theorem generate_of_ok (hroot : g.root = some root) (h : (g.layOut root).run {} = .ok p s) :
    g.generate = .ok
      { plan := p
        resultType := g.exprType root
        numRegisters := s.size
        numSteps := p.numSteps
        externals := g.externalVars } := by
  simp only [generate, hroot, h]

/-- A node without cycles below it has a plan, its unfolding. -/
theorem AcyclicBelow.exists_layOut (hacyclic : g.AcyclicBelow root) :
    ∃ p s, (g.layOut root).run {} = .ok p s ∧ g.Unfolds root p := by
  obtain ⟨visits, p, s, hvisits, hp, -, -, hrun⟩ :=
    walks_of_fitsIn hacyclic.fitsIn_size {} (ready_empty g)
  have hwalk : (g.visitAll g.visitBound [.enter root] []).run {} = .ok [p] s := by
    have hbound : g.visitBound = visits + (g.visitBound - visits) :=
      (Nat.add_sub_cancel' hvisits).symm
    rw [hbound, hrun, visitAll, EStateM.run_pure]
  refine ⟨p, s, ?_, hp⟩
  rw [layOut, RegisterM.bind_of_ok hwalk, EStateM.run_pure]

/-- `FROM t WHERE id < x SELECT id LIMIT x`, where the external variable `x` and the field `id` are
shared. -/
def sharedSample : Graph :=
  let (x, g) := ({} : Graph).addExternal "x" (.one .integer)
  let (scan, g) := g.add (.scan { table := "t", rowType := .record [("id", .integer)] })
  let (row, g) := g.addVar "$t" .row
  let (id, g) := g.addField row "id"
  let (below, g) := g.addCall (.compare .lt false) [id, x]
  let (block, g) := g.addDeclaring
    (.block
      { entries := [⟨scan, row⟩]
        condition := some below
        select := [⟨"id", id⟩]
        limit := some x }) none
  g.setRoot block

end Graph

end ShardedQuery
