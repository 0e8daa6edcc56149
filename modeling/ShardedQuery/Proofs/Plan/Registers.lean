import ShardedQuery.Plan.Registers

/-!
# Who owns a register

A register belongs to one node, as its result register or as a member of its tuple block, and this
is so after every sequence of calls (`Registers.Sound.afterCalls`). `Registers.Sound` holds what the
three tables of an allocator have to do with each other, and `Registers.Extends` that a later
allocator knows all that an earlier one knew. Each operation comes with one lemma that says what it
returns and what it leaves.
-/

namespace ShardedQuery

open List

variable {r s : Registers} {reg : Nat} {e : CompileError} {other : NodeId}

/-! ## Sequences of computations -/

namespace RegisterM

variable {α β : Type} {x : RegisterM α} {f : α → RegisterM β} {r' : Registers}

theorem bind_of_ok {a : α} (hx : x.run r = .ok a r') : (x >>= f).run r = (f a).run r' := by
  rw [EStateM.run_bind, hx]

theorem bind_eq_ok {b : β} :
    (x >>= f).run r = .ok b s ↔ ∃ a r', x.run r = .ok a r' ∧ (f a).run r' = .ok b s := by
  constructor
  · intro h
    cases hx : x.run r with
    | ok a r' => exact ⟨a, r', rfl, (bind_of_ok hx).symm.trans h⟩
    | error e r' =>
      rw [EStateM.run_bind, hx] at h
      cases h
  · rintro ⟨a, r', hx, hf⟩
    rw [bind_of_ok hx, hf]

theorem pure_eq_ok {a b : α} : (pure a : RegisterM α).run r = .ok b r' ↔ a = b ∧ r = r' := by
  rw [EStateM.run_pure, EStateM.Result.ok.injEq]

@[simp] theorem run_fail (message : String) :
    (RegisterM.fail message : RegisterM α).run r = .error { cause := .internal message } r :=
  rfl

/-- The registers that a computation leaves, whether it fails or not. -/
def leaves (x : RegisterM α) (r : Registers) : Registers :=
  match x.run r with
  | .ok _ r' | .error _ r' => r'

theorem leaves_of_ok {a : α} (hx : x.run r = .ok a r') : x.leaves r = r' := by
  rw [leaves, hx]

theorem leaves_of_error (hx : x.run r = .error e r') : x.leaves r = r' := by
  rw [leaves, hx]

end RegisterM

namespace Registers

/-! ## Owners -/

/-- The node a register belongs to. -/
def owner? (r : Registers) (reg : Nat) : Option NodeId := (r.owners[reg]?).join

/-- The register is the result register of the node, or one of its tuple block. -/
def Holds (r : Registers) (id : NodeId) (reg : Nat) : Prop :=
  r.get? id = some reg ∨ ∃ block, r.tuple? id = some block ∧ reg ∈ block

/-- Every register has an owner, which is the one node that holds it, and in one role. -/
structure Sound (r : Registers) : Prop where
  owned : ∀ reg, reg < r.size → ∃ id, r.owner? reg = some id
  owner_iff : ∀ reg id, r.owner? reg = some id ↔ r.Holds id reg
  contiguous : ∀ id block, r.tuple? id = some block → ∃ first, block = List.range' first block.length
  apart : ∀ id reg block, r.get? id = some reg → r.tuple? id = some block → reg ∉ block

theorem sound_empty : ({} : Registers).Sound := by
  constructor <;> simp [size, owner?, Holds, get?, tuple?]

section
variable {id : NodeId}

theorem lt_size_of_owner? (h : r.owner? reg = some id) : reg < r.size := by
  refine Nat.lt_of_not_le fun hle => ?_
  rw [owner?, Array.getElem?_eq_none hle] at h
  cases h

theorem Sound.eq_of_holds (hr : r.Sound) (h : r.Holds id reg) (h' : r.Holds other reg) :
    id = other :=
  Option.some.inj (((hr.owner_iff _ _).2 h).symm.trans ((hr.owner_iff _ _).2 h'))

theorem Sound.lt_size_of_holds (hr : r.Sound) (h : r.Holds id reg) : reg < r.size :=
  lt_size_of_owner? ((hr.owner_iff _ _).2 h)

end

/-! ## Growth -/

/-- What the first allocator knows, the second knows as well. -/
structure Extends (r s : Registers) : Prop where
  size_le : r.size ≤ s.size
  get : ∀ id reg, r.get? id = some reg → s.get? id = some reg
  tuple : ∀ id block, r.tuple? id = some block → s.tuple? id = some block

theorem Extends.refl (r : Registers) : Extends r r :=
  ⟨Nat.le_refl _, fun _ _ h => h, fun _ _ h => h⟩

theorem Extends.trans {t : Registers} (h : Extends r s) (h' : Extends s t) : Extends r t :=
  ⟨Nat.le_trans h.size_le h'.size_le, fun _ _ hid => h'.get _ _ (h.get _ _ hid),
    fun _ _ hid => h'.tuple _ _ (h.tuple _ _ hid)⟩

theorem Extends.holds (h : Extends r s) {id : NodeId} (hreg : r.Holds id reg) : s.Holds id reg := by
  rcases hreg with hreg | ⟨block, hblock, hmem⟩
  · exact .inl (h.get id reg hreg)
  · exact .inr ⟨block, h.tuple id block hblock, hmem⟩

/-- The owners after a node was given the next `n` registers. -/
def grantedOwners (r : Registers) (id : NodeId) (n : Nat) : Array (Option NodeId) :=
  r.owners ++ Array.replicate n (some id)

/-- The allocator in which the next register is the result register of a node. -/
def withResult (r : Registers) (id : NodeId) : Registers :=
  { r with owners := r.grantedOwners id 1, results := (id, r.size) :: r.results }

/-- The allocator in which the next registers are the tuple block of a node. -/
def withTuple (r : Registers) (id : NodeId) (n : Nat) : Registers :=
  { r with owners := r.grantedOwners id n, tuples := (id, List.range' r.size n) :: r.tuples }

section
variable {id : NodeId} {n : Nat}

/-- The next `n` registers belong to the node, and all others to whom they did. -/
theorem owner?_of_granted (hs : s.owners = r.grantedOwners id n) :
    s.owner? reg = some other ↔
      r.owner? reg = some other ∨ (other = id ∧ r.size ≤ reg ∧ reg < r.size + n) := by
  by_cases hlt : reg < r.size
  · have hsame : s.owner? reg = r.owner? reg := by
      rw [owner?, owner?, hs, grantedOwners, Array.getElem?_append_left hlt]
    rw [hsame]
    refine ⟨.inl, ?_⟩
    rintro (h | ⟨-, hle, -⟩)
    · exact h
    · exact absurd hle (Nat.not_le_of_lt hlt)
  · have hle : r.owners.size ≤ reg := Nat.le_of_not_lt hlt
    have hnone : r.owner? reg ≠ some other := fun h => hlt (lt_size_of_owner? h)
    have hnew : s.owner? reg = if reg - r.owners.size < n then some id else none := by
      rw [owner?, hs, grantedOwners, Array.getElem?_append_right hle, Array.getElem?_replicate]
      split <;> rfl
    rw [hnew]
    simp only [hnone, false_or, size]
    split <;> rename_i hreg
    · simp only [Option.some.injEq, eq_comm, hle, true_and]
      exact ⟨fun h => ⟨h, by omega⟩, fun h => h.1⟩
    · simp only [reduceCtorEq, false_iff]
      omega

/-- Registers given to one node, as its result register or its tuple block. -/
theorem Sound.grant (hr : r.Sound) (hs : s.owners = r.grantedOwners id n)
    (hholds : ∀ reg other, s.Holds other reg ↔
      r.Holds other reg ∨ (other = id ∧ r.size ≤ reg ∧ reg < r.size + n))
    (hblock : ∀ other block, s.tuple? other = some block → r.tuple? other = some block ∨
      block = List.range' r.size n)
    (hapart : ∀ other reg block, s.get? other = some reg → s.tuple? other = some block →
      reg ∉ block) : s.Sound := by
  refine ⟨fun reg hreg => ?_, fun reg other => ?_, fun other block h => ?_, hapart⟩
  · have hsize : s.size = r.size + n := by simp [size, hs, grantedOwners]
    by_cases hlt : reg < r.size
    · obtain ⟨other, hother⟩ := hr.owned reg hlt
      exact ⟨other, (owner?_of_granted hs).2 (.inl hother)⟩
    · exact ⟨id, (owner?_of_granted hs).2 (.inr ⟨rfl, by omega, by omega⟩)⟩
  · rw [owner?_of_granted hs, hholds, hr.owner_iff]
  · rcases hblock other block h with h | rfl
    · exact hr.contiguous other block h
    · exact ⟨r.size, by rw [length_range']⟩

theorem get?_withResult :
    (r.withResult id).get? other = if other = id then some r.size else r.get? other := by
  simp only [get?, withResult, lookup_cons]
  split <;> simp_all

theorem tuple?_withTuple : (r.withTuple id n).tuple? other =
    if other = id then some (List.range' r.size n) else r.tuple? other := by
  simp only [tuple?, withTuple, lookup_cons]
  split <;> simp_all

/-- A node without a result register takes the next register. -/
theorem Sound.withResult (hr : r.Sound) (hid : r.get? id = none) : (r.withResult id).Sound := by
  have htuple (other : NodeId) : (r.withResult id).tuple? other = r.tuple? other := rfl
  refine hr.grant rfl (fun reg other => ?_) (fun other block h => .inl h)
    (fun other reg block h hblock => ?_)
  · simp only [Holds, get?_withResult, htuple]
    by_cases heq : other = id
    · subst heq
      simp only [↓reduceIte, hid, Option.some.injEq, reduceCtorEq, false_or, true_and]
      rw [or_comm]
      exact or_congr_right ⟨fun h => by omega, fun h => by omega⟩
    · simp only [heq, ↓reduceIte, false_and, or_false]
  · rw [get?_withResult] at h
    split at h
    · cases h
      intro hmem
      exact absurd (hr.lt_size_of_holds (.inr ⟨block, hblock, hmem⟩)) (Nat.lt_irrefl _)
    · exact hr.apart other reg block h hblock

/-- A node without a tuple block takes the next registers as its block. -/
theorem Sound.withTuple (hr : r.Sound) (hid : r.tuple? id = none) : (r.withTuple id n).Sound := by
  have hget (other : NodeId) : (r.withTuple id n).get? other = r.get? other := rfl
  refine hr.grant rfl (fun reg other => ?_) (fun other block h => ?_)
    (fun other reg block h hblock => ?_)
  · simp only [Holds, hget, tuple?_withTuple]
    by_cases heq : other = id
    · subst heq
      simp only [↓reduceIte, hid, Option.some.injEq, reduceCtorEq, false_and, exists_false, or_false,
        true_and, exists_eq_left', mem_range'_1]
    · simp only [heq, ↓reduceIte, false_and, or_false]
  · rw [tuple?_withTuple] at h
    split at h
    · cases h
      exact .inr rfl
    · exact .inl h
  · have hlt := hr.lt_size_of_holds (.inl h)
    rw [tuple?_withTuple] at hblock
    split at hblock
    · cases hblock
      intro hmem
      exact absurd (mem_range'_1.1 hmem).1 (Nat.not_le_of_lt hlt)
    · exact hr.apart other reg block h hblock

theorem extends_withResult (hid : r.get? id = none) : Extends r (r.withResult id) := by
  refine ⟨?_, fun other reg h => ?_, fun _ _ h => h⟩
  · simp [size, Registers.withResult, grantedOwners]
  · rw [get?_withResult, if_neg, h]
    rintro rfl
    rw [hid] at h
    cases h

theorem extends_withTuple (hid : r.tuple? id = none) : Extends r (r.withTuple id n) := by
  refine ⟨?_, fun _ _ h => h, fun other block h => ?_⟩
  · simp [size, Registers.withTuple, grantedOwners]
  · rw [tuple?_withTuple, if_neg, h]
    rintro rfl
    rw [hid] at h
    cases h

end

/-! ## Result registers -/

section
variable {id : NodeId}

theorem alloc_of_some (hid : r.get? id = some reg) : (alloc id).run r = .ok reg r := by
  simp only [alloc, EStateM.run_bind, EStateM.run_get, hid, EStateM.run_pure]

theorem alloc_of_none (hid : r.get? id = none) : (alloc id).run r = .ok r.size (r.withResult id) := by
  have hnew : (r.owners.push none)[r.owners.size]? = some none := Array.getElem?_push_size
  have hset : (r.owners.push none).setIfInBounds r.owners.size (some id) = r.grantedOwners id 1 := by
    apply Array.toList_inj.1
    simp [grantedOwners]
  have hget : ({ r with owners := r.owners.push none } : Registers).get? id = none := hid
  simp only [alloc, fresh, assign, EStateM.run_bind, EStateM.run_get, hid, EStateM.run_modifyGet,
    hget, size, hnew, EStateM.run_set, EStateM.run_pure, hset]
  rfl

theorem Sound.alloc (hr : r.Sound) (id : NodeId) : ∃ reg s, (Registers.alloc id).run r = .ok reg s ∧
    s.Sound ∧ Extends r s ∧ s.get? id = some reg ∧ s.tuples = r.tuples := by
  cases hid : r.get? id with
  | some reg => exact ⟨reg, r, alloc_of_some hid, hr, .refl r, hid, rfl⟩
  | none =>
    exact ⟨_, _, alloc_of_none hid, hr.withResult hid, extends_withResult hid,
      get?_withResult.trans (if_pos rfl), rfl⟩

/-- Every register of a sound allocator is taken: only the register that a node has can be named as
its register. -/
theorem Sound.assign_eq_ok (hr : r.Sound) :
    (assign id reg).run r = .ok () s ↔ r.get? id = some reg ∧ s = r := by
  cases hid : r.get? id with
  | some old =>
    by_cases heq : old = reg
    · simp [assign, hid, heq, eq_comm]
    · simp [assign, hid, heq]
  | none =>
    match howner : r.owners[reg]? with
    | none => simp [assign, hid, howner]
    | some (some owner) => simp [assign, hid, howner]
    | some none =>
      obtain ⟨owner, h⟩ := hr.owned reg (Array.getElem?_eq_some_iff.1 howner).1
      rw [owner?, howner] at h
      cases h

theorem eq_of_assign_eq_error (h : (assign id reg).run r = .error e s) : s = r := by
  cases hid : r.get? id with
  | some old => by_cases heq : old = reg <;> simp_all [assign]
  | none =>
    match howner : r.owners[reg]? with
    | none => simp_all [assign]
    | some (some owner) => simp_all [assign]
    | some none => simp [assign, hid, howner] at h

end

/-! ## Tuple blocks -/

section
variable {id : NodeId} {length : Nat} {block : List Nat}

theorem freshBlock_eq (n : Nat) (r : Registers) : (freshBlock n).run r =
    .ok (List.range' r.size n) { r with owners := r.owners ++ Array.replicate n none } := by
  induction n generalizing r with
  | zero => simp [freshBlock]
  | succ n ih =>
    have happend : r.owners.push none ++ Array.replicate n none =
        r.owners ++ Array.replicate (n + 1) none := by
      apply Array.toList_inj.1
      simp [replicate_succ]
    have hsize : Registers.size { r with owners := r.owners.push none } = r.size + 1 := by
      simp [size]
    simp only [freshBlock, fresh, EStateM.run_bind, EStateM.run_modifyGet, ih, EStateM.run_pure, hsize,
      happend, List.range'_succ]

theorem getElem?_foldl_set {α : Type} (x : α) (block : List Nat) (a : Array α) (i : Nat) :
    (block.foldl (fun a k => a.setIfInBounds k x) a)[i]? =
      if i ∈ block ∧ i < a.size then some x else a[i]? := by
  induction block generalizing a with
  | nil => simp
  | cons k block ih =>
    rw [foldl_cons, ih, Array.getElem?_setIfInBounds, Array.size_setIfInBounds]
    by_cases hk : k = i
    · subst hk
      by_cases hlt : k < a.size <;> simp [hlt]
    · simp [hk, Ne.symm hk]

theorem allocTuple_of_none (hid : r.tuple? id = none) :
    (allocTuple id length).run r = .ok (List.range' r.size length) (r.withTuple id length) := by
  have howners : (List.range' r.size length).foldl (fun a k => a.setIfInBounds k (some id))
      (r.owners ++ Array.replicate length none) = r.grantedOwners id length := by
    apply Array.ext_getElem?
    intro i
    simp only [getElem?_foldl_set, grantedOwners, mem_range'_1, Array.getElem?_append,
      Array.size_append, Array.size_replicate, Array.getElem?_replicate, size]
    by_cases hold : i < r.owners.size
    · rw [if_neg (by omega), if_pos hold, if_pos hold]
    · by_cases hnew : i < r.owners.size + length
      · rw [if_pos (by omega), if_neg hold, if_pos (by omega)]
      · rw [if_neg (by omega), if_neg hold, if_neg hold, if_neg (by omega), if_neg (by omega)]
  simp only [allocTuple, EStateM.run_bind, EStateM.run_get, hid, freshBlock_eq, EStateM.run_modify,
    EStateM.run_pure, ownBlock, howners]
  rfl

theorem allocTuple_of_some (hid : r.tuple? id = some block) (hlength : block.length = length) :
    (allocTuple id length).run r = .ok block r := by
  simp only [allocTuple, EStateM.run_bind, EStateM.run_get, hid, hlength, ↓reduceIte, EStateM.run_pure]

theorem allocTuple_of_ne (hid : r.tuple? id = some block) (hlength : block.length ≠ length) :
    ∃ e, (Registers.allocTuple id length).run r = .error e r := by
  simp only [Registers.allocTuple, EStateM.run_bind, EStateM.run_get, hid, if_neg hlength]
  exact ⟨_, rfl⟩

/-- What a node was given is its tuple block from then on. -/
theorem Sound.of_allocTuple (hr : r.Sound)
    (h : (Registers.allocTuple id length).run r = .ok block s) :
    s.Sound ∧ Extends r s ∧ s.tuple? id = some block ∧ block.length = length := by
  cases hid : r.tuple? id with
  | none =>
    rw [allocTuple_of_none hid] at h
    cases h
    exact ⟨hr.withTuple hid, extends_withTuple hid, tuple?_withTuple.trans (if_pos rfl),
      length_range'⟩
  | some old =>
    by_cases hlength : old.length = length
    · rw [allocTuple_of_some hid hlength] at h
      cases h
      exact ⟨hr, .refl r, hid, hlength⟩
    · obtain ⟨e, he⟩ := allocTuple_of_ne hid hlength
      rw [he] at h
      cases h

theorem eq_of_allocTuple_eq_error (h : (Registers.allocTuple id length).run r = .error e s) :
    s = r := by
  cases hid : r.tuple? id with
  | none =>
    rw [allocTuple_of_none hid] at h
    cases h
  | some block =>
    by_cases hlength : block.length = length
    · rw [allocTuple_of_some hid hlength] at h
      cases h
    · obtain ⟨e', h'⟩ := allocTuple_of_ne hid hlength
      rw [h'] at h
      cases h
      rfl

end

/-! ## Calls in any order -/

/-- A call of one of the three operations. -/
inductive Call where
  | alloc (id : NodeId)
  | assign (id : NodeId) (reg : Nat)
  | allocTuple (id : NodeId) (length : Nat)
  deriving DecidableEq, Repr

/-- The allocator after a call, which may have failed. -/
def afterCall (r : Registers) : Call → Registers
  | .alloc id => (alloc id).leaves r
  | .assign id reg => (assign id reg).leaves r
  | .allocTuple id length => (allocTuple id length).leaves r

/-- The allocator after some calls. -/
def afterCalls (r : Registers) (calls : List Call) : Registers := calls.foldl afterCall r

theorem Sound.afterCall (hr : r.Sound) (c : Call) :
    (r.afterCall c).Sound ∧ Extends r (r.afterCall c) := by
  cases c with
  | alloc id =>
    obtain ⟨reg, s, h, hs, hext, -⟩ := hr.alloc id
    rw [Registers.afterCall, RegisterM.leaves_of_ok h]
    exact ⟨hs, hext⟩
  | assign id reg =>
    have heq : (assign id reg).leaves r = r := by
      cases h : (assign id reg).run r with
      | ok u s => rw [RegisterM.leaves_of_ok h, (hr.assign_eq_ok.1 h).2]
      | error e s => rw [RegisterM.leaves_of_error h, eq_of_assign_eq_error h]
    rw [Registers.afterCall, heq]
    exact ⟨hr, .refl r⟩
  | allocTuple id length =>
    rw [Registers.afterCall]
    cases hid : r.tuple? id with
    | none =>
      rw [RegisterM.leaves_of_ok (allocTuple_of_none hid)]
      exact ⟨hr.withTuple hid, extends_withTuple hid⟩
    | some block =>
      by_cases hlength : block.length = length
      · rw [RegisterM.leaves_of_ok (allocTuple_of_some hid hlength)]
        exact ⟨hr, .refl r⟩
      · obtain ⟨e, h⟩ := allocTuple_of_ne hid hlength
        rw [RegisterM.leaves_of_error h]
        exact ⟨hr, .refl r⟩

theorem Sound.afterCalls (hr : r.Sound) (calls : List Call) :
    (r.afterCalls calls).Sound ∧ Extends r (r.afterCalls calls) := by
  induction calls generalizing r with
  | nil => exact ⟨hr, .refl r⟩
  | cons c calls ih =>
    obtain ⟨hc, hext⟩ := hr.afterCall c
    obtain ⟨hs, hext'⟩ := ih hc
    exact ⟨hs, hext.trans hext'⟩

end Registers

end ShardedQuery
