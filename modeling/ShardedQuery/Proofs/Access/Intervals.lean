import Mathlib.Algebra.Order.Field.Basic
import Mathlib.Algebra.Order.Field.Rat
import Mathlib.Data.Rat.Cast.Order
import Mathlib.Order.Compare
import ShardedQuery.Proofs.Access.Chains
import ShardedQuery.Proofs.Pushdown.Columns

/-!
# Intervals of constants

Comparisons of a field without fan-out with integers describe an interval of rationals. A rational
stands to them as an item does (`aligned_rational`), so that settling them keeps the interval.
Settling a pair leaves room between the two if it keeps both (`settlesApart_bounds`): one of them is a
bound below, or a point, and the other a larger bound above. Later pairs never take this room away, so
that the predicates which are kept in the end have one bound on each side at most, and some rational
satisfies them all (`exists_accepted`).
-/

namespace ShardedQuery

open List

variable {a a' b b' p q : Predicate} {fansOut : Nat → Bool} {n : Int}

/-! ## What a comparison accepts -/

/-- The relation an operator stands for. -/
def Comparison.Relates : Comparison → ℚ → ℚ → Prop
  | .eq, x, y => x = y
  | .ne, x, y => x ≠ y
  | .gt, x, y => y < x
  | .ge, x, y => y ≤ x
  | .lt, x, y => x < y
  | .le, x, y => x ≤ y

theorem Comparison.holds_compare (op : Comparison) (x y : ℚ) :
    op.holds (compare x y) ↔ op.Relates x y := by
  cases op with
  | eq => simp [holds, Relates]
  | ne => simp [holds, Relates]
  | gt => exact beq_iff_eq.trans compare_gt_iff_gt
  | ge => exact bne_iff_ne.trans compare_ge_iff_ge
  | lt => exact beq_iff_eq.trans compare_lt_iff_lt
  | le => exact bne_iff_ne.trans compare_le_iff_le

theorem compare_intCast (m n : Int) : compare (m : ℚ) (n : ℚ) = compare m n := by
  rcases lt_trichotomy m n with h | rfl | h
  · rw [compare_lt_iff_lt.2 h, compare_lt_iff_lt.2 (Int.cast_lt.2 h)]
  · rw [compare_eq_iff_eq.2 rfl, compare_eq_iff_eq.2 rfl]
  · rw [compare_gt_iff_gt.2 h, compare_gt_iff_gt.2 (Int.cast_lt.2 h)]

/-- A point or a bound below, and a larger bound above, are satisfied together. -/
theorem Comparison.exists_relates {p q : Comparison} (hp : p ≠ .ne) (hq : q ≠ .ne)
    (hlow : p.isUpper = false) (hup : q.isUpper) {m n : ℚ} (h : m < n) :
    ∃ x, p.Relates x m ∧ q.Relates x n := by
  -- A point is the only choice for itself; between proper bounds anything will do.
  have hbelow : ∀ x, x < n → q.Relates x n := by
    intro x hx
    cases q with
    | lt => exact hx
    | le => exact hx.le
    | eq | gt | ge => cases hup
    | ne => exact absurd rfl hq
  obtain ⟨x, hmx, hxn⟩ := exists_between h
  cases p with
  | eq => exact ⟨m, rfl, hbelow m h⟩
  | gt => exact ⟨x, hmx, hbelow x hxn⟩
  | ge => exact ⟨x, hmx.le, hbelow x hxn⟩
  | lt | le => cases hlow
  | ne => exact absurd rfl hp

/-- A comparison other than an inequality is satisfied by some rational. -/
theorem Comparison.exists_relates_one {p : Comparison} (hp : p ≠ .ne) (m : ℚ) :
    ∃ x, p.Relates x m := by
  cases p with
  | eq => exact ⟨m, rfl⟩
  | ne => exact absurd rfl hp
  | gt => exact exists_gt m
  | ge => exact ⟨m, le_rfl⟩
  | lt => exact exists_lt m
  | le => exact ⟨m, le_rfl⟩

namespace Predicate

/-- The integer that the predicate compares with. -/
def bound? (p : Predicate) : Option Int := p.value.bind (·.toInt?)

/-- The predicate's operator relates the rational to the predicate's integer. -/
def Accepts (p : Predicate) (x : ℚ) : Prop := ∃ n ∈ p.bound?, p.op.Relates x n

theorem accepts_iff (h : p.bound? = some n) (x : ℚ) : p.Accepts x ↔ p.op.Relates x n := by
  simp [Accepts, h]

/-- The predicate compares what a field without fan-out holds with an integer. -/
structure IsBound (fansOut : Nat → Bool) (p : Predicate) : Prop where
  op_ne : p.op ≠ .ne
  single : fansOut p.position = false
  mapKey : p.mapKey = none
  widened : p.widened = false
  bound : p.bound?.isSome
  not_skipped : p.status ≠ .skip

end Predicate

/-- The integer of a key. -/
def ExactKey.number? : ExactKey → Option Int
  | number n => some n
  | _ => none

theorem Value.toInt?_of_exactKey? {w : Value} {j : ExactKey} (h : w.exactKey? = some j) :
    w.toInt? = j.number? := by
  cases w <;> cases h <;> rfl

theorem Value.compareAtomic_of_toInt? {v w : Value} {m : Int} (hv : v.toInt? = some m)
    (hw : w.toInt? = some n) : v.compareAtomic w = some (compare m n) := by
  have hkey : ∀ {u : Value} {k : Int}, u.toInt? = some k → u.exactKey? = some (.number k) := by
    intro u k hu
    cases u <;> cases hu <;> rfl
  rw [Value.compareAtomic_eq (hkey hv) (hkey hw)]
  rfl

/-! ## One pair -/

section
variable (ha : a.IsBound fansOut) (hb : b.IsBound fansOut)
include ha hb

/-- Two kept predicates on one position are settled as their constants have it, and no others are
touched. -/
theorem settle_bounds {m : Int} (hm : a.bound? = some m) (hn : b.bound? = some n) :
    settle fansOut a b =
      if a.status = .keep ∧ b.status = .keep ∧ a.position = b.position then
        (resolveConstants a.op b.op (compare m n)).apply a b
      else some (a, b) := by
  have hcomp : competes a b ↔
      a.status = .keep ∧ b.status = .keep ∧ a.position = b.position := by
    rw [competes_iff]
    simp [ha.op_ne, hb.op_ne, ha.widened, hb.widened, ha.mapKey, hb.mapKey]
  obtain ⟨v, hv, hvm⟩ := Option.bind_eq_some_iff.1 hm
  obtain ⟨w, hw, hwn⟩ := Option.bind_eq_some_iff.1 hn
  have hind : a.independent fansOut b = false := by simp [Predicate.independent, ha.single]
  have hpair : resolvePair a b false = resolveConstants a.op b.op (compare m n) := by
    simp [resolvePair, hv, hw, Value.compareAtomic_of_toInt? hvm hwn]
  simp only [settle, hcomp, hind, hpair]

end

namespace Predicate

/-- The first predicate is a point or a bound below, and the second a larger bound above. -/
def Below (p q : Predicate) : Prop :=
  p.op.isUpper = false ∧ q.op.isUpper ∧ ∃ m ∈ p.bound?, ∃ n ∈ q.bound?, m < n

/-- Predicates that are both kept on one position have room between them. -/
def LeavesRoom (p q : Predicate) : Prop :=
  p.status = .keep → q.status = .keep → p.position = q.position → p.Below q ∨ q.Below p

/-- The predicate with another status, and perhaps turned from a bound below into a point. -/
structure Narrows (p q : Predicate) : Prop where
  restates : p.Restates q
  op : q.op = p.op ∨ (p.op.isUpper = false ∧ q.op = .eq)

theorem Narrows.isUpper_eq (h : p.Narrows q) : q.op.isUpper = p.op.isUpper := by
  rcases h.op with h | ⟨hlow, h⟩
  · rw [h]
  · rw [h, hlow]
    rfl

theorem Narrows.bound?_eq (h : p.Narrows q) : q.bound? = p.bound? := by
  rw [bound?, h.restates.value_eq, bound?]

theorem LeavesRoom.symm (h : p.LeavesRoom q) : q.LeavesRoom p :=
  fun hq hp hpos => (h hp hq hpos.symm).symm

theorem LeavesRoom.narrows {q' : Predicate} (h : p.LeavesRoom q) (hq : q.Narrows q') :
    p.LeavesRoom q' := by
  intro hkp hkq hpos
  have hroom := h hkp (hq.restates.keep hkq) (hpos.trans hq.restates.position_eq)
  unfold Below at hroom ⊢
  rw [hq.isUpper_eq, hq.bound?_eq]
  exact hroom

/-- Bounds stay bounds. -/
theorem IsBound.restates (h : p.IsBound fansOut) (hpq : p.Restates q) (hskip : q.status ≠ .skip) :
    q.IsBound fansOut where
  op_ne := by
    rcases hpq.op with hop | ⟨hop, -⟩ <;> rw [hop]
    · exact h.op_ne
    · simp
  single := hpq.position_eq ▸ h.single
  mapKey := hpq.mapKey_eq.trans h.mapKey
  widened := hpq.widened_eq.trans h.widened
  bound := by
    rw [bound?, hpq.value_eq]
    exact h.bound
  not_skipped := hskip

end Predicate

/-- Two bounds that are both kept leave room between them; it is the lower one that collapses. -/
theorem resolveConstants_cases {p q : Comparison} (hp : p ≠ .ne) (hq : q ≠ .ne) (o : Ordering) :
    (resolveConstants p q o = .both →
      (p.isUpper = false ∧ q.isUpper ∧ o = .lt) ∨ (q.isUpper = false ∧ p.isUpper ∧ o = .gt)) ∧
    (resolveConstants p q o = .collapseFirst → p.isUpper = false) ∧
    (resolveConstants p q o = .collapseSecond → q.isUpper = false) := by
  cases p <;> cases q <;> first | contradiction | (cases o <;> decide)

section
variable (ha : a.IsBound fansOut) (hb : b.IsBound fansOut)
  (h : settle fansOut a b = some (a', b'))
include ha hb h

theorem isBound_of_settle : a'.IsBound fansOut ∧ b'.IsBound fansOut := by
  obtain ⟨hra, hrb⟩ := settle_restates h
  have hvalue {p : Predicate} (hp : p.IsBound fansOut) : p.value.isSome :=
    Option.isSome_of_isSome_bind hp.bound
  obtain ⟨⟨hsa, -⟩, hsb, -⟩ := settle_unskipped ha.single h ⟨ha.not_skipped, hvalue ha⟩
    ⟨hb.not_skipped, hvalue hb⟩
  exact ⟨ha.restates hra hsa, hb.restates hrb hsb⟩

/-- A pair is settled with room between the two, or with one of them implied. -/
theorem leavesRoom_of_settle : a.Narrows a' ∧ b.Narrows b' ∧ a'.LeavesRoom b' := by
  obtain ⟨hra, hrb⟩ := settle_restates h
  obtain ⟨m, hm⟩ := Option.isSome_iff_exists.1 ha.bound
  obtain ⟨n, hn⟩ := Option.isSome_iff_exists.1 hb.bound
  rw [settle_bounds ha hb hm hn] at h
  split at h
  · obtain ⟨hboth, hfirst, hsecond⟩ := resolveConstants_cases ha.op_ne hb.op_ne (compare m n)
    have hsound : (resolveConstants a.op b.op (compare m n)).IsSound a.op b.op .eq (compare m n) :=
      resolveConstants_isSound ha.op_ne hb.op_ne rfl
    revert h
    cases hr : resolveConstants a.op b.op (compare m n) with
    | both =>
      rintro ⟨rfl, rfl⟩
      refine ⟨⟨hra, .inl rfl⟩, ⟨hrb, .inl rfl⟩, fun _ _ _ => (hboth hr).imp ?_ ?_⟩
      · rintro ⟨hlow, hup, ho⟩
        exact ⟨hlow, hup, m, hm, n, hn, compare_lt_iff_lt.1 ho⟩
      · rintro ⟨hlow, hup, ho⟩
        exact ⟨hlow, hup, n, hn, m, hm, compare_gt_iff_gt.1 ho⟩
    | first s =>
      rw [hr] at hsound
      obtain ⟨rfl, -⟩ := hsound
      rintro ⟨rfl, rfl⟩
      exact ⟨⟨hra, .inl rfl⟩, ⟨hrb, .inl rfl⟩, nofun⟩
    | second s =>
      rw [hr] at hsound
      obtain ⟨rfl, -⟩ := hsound
      rintro ⟨rfl, rfl⟩
      exact ⟨⟨hra, .inl rfl⟩, ⟨hrb, .inl rfl⟩, fun _ => nofun⟩
    | collapseFirst =>
      rintro ⟨rfl, rfl⟩
      exact ⟨⟨hra, .inr ⟨hfirst hr, rfl⟩⟩, ⟨hrb, .inl rfl⟩, fun _ => nofun⟩
    | collapseSecond =>
      rintro ⟨rfl, rfl⟩
      exact ⟨⟨hra, .inl rfl⟩, ⟨hrb, .inr ⟨hsecond hr, rfl⟩⟩, nofun⟩
    | contradiction => exact nofun
  · next hcomp =>
    cases h
    exact ⟨⟨hra, .inl rfl⟩, ⟨hrb, .inl rfl⟩, fun hka hkb hpos => absurd ⟨hka, hkb, hpos⟩ hcomp⟩

end

/-! ## Rationals as items -/

/-- The standing of a rational to integers. -/
def Standing.ofRat (x : ℚ) : Standing := fun w => w.toInt?.map fun n => compare x n

theorem Standing.isCoherent_ofRat (x : ℚ) : (ofRat x).IsCoherent := by
  constructor
  · intro w₁ w₂ o h₁ h₂ hw
    obtain ⟨j, hj⟩ := Option.isSome_iff_exists.1 h₁
    obtain ⟨l, hl⟩ := Option.isSome_iff_exists.1 h₂
    rw [Value.compareAtomic_eq hj hl] at hw
    rw [ofRat, ofRat, Value.toInt?_of_exactKey? hj, Value.toInt?_of_exactKey? hl]
    cases j <;> cases l <;> cases hw <;> try exact .inl ⟨rfl, rfl⟩
    refine .inr ⟨_, _, rfl, rfl, ?_⟩
    rw [← compare_intCast]
    exact chains_of_transCmp compare _ _ _
  · intro w₁ w₂ o₁ o₂ _ _ hr₁ hr₂
    cases w₁ <;> cases hr₁ <;> cases w₂ <;> cases hr₂ <;> exact ⟨_, rfl⟩

theorem Predicate.IsBound.isMet_iff (h : p.IsBound fansOut) (x : ℚ) :
    p.IsMet [.ofRat x] ↔ p.Accepts x := by
  obtain ⟨n, hn⟩ := Option.isSome_iff_exists.1 h.bound
  obtain ⟨w, hw, hwn⟩ := Option.bind_eq_some_iff.1 hn
  rw [Predicate.isMet_iff hw, compares_eq_only (.inr (by simp)), Predicate.accepts_iff hn,
    ← Comparison.holds_compare]
  simp [Standing.only, Standing.ofRat, hwn]

/-- A rational is in order to the bounds on a position. -/
theorem aligned_rational {ps : List Predicate} (hps : ∀ p ∈ ps, p.IsBound fansOut) (pos : Nat)
    (x : ℚ) : Aligned fansOut (·.position = pos) (fun _ => [.ofRat x]) ps where
  coherent s _ r hr := by
    obtain rfl := mem_singleton.1 hr
    exact Standing.isCoherent_ofRat x
  scalar _ _ _ := Nat.le_refl 1
  exact p hp _ w hw := Value.isExact_of_toInt? (by simpa [Predicate.bound?, hw] using (hps p hp).bound)
  rivals p hp q _ hcomp hF := by
    have hpos : p.position = q.position := (competes_iff.1 hcomp).2.2.2.2.2.2.1
    have hp' : p.position = pos := hF.elim id hpos.trans
    exact ⟨hp', hpos.symm.trans hp', rfl, .inr (hps p hp).single⟩

/-! ## Whole runs -/

section
variable {ps qs : List Predicate}

theorem isBound_of_run (h : Relation.ReflTransGen (Settles fansOut) ps qs)
    (hps : ∀ p ∈ ps, p.IsBound fansOut) : ∀ q ∈ qs, q.IsBound fansOut := by
  induction h with
  | refl => exact hps
  | tail _ hstep ih =>
    exact hstep.forall ih fun a ha b hb _ _ hs => isBound_of_settle (ih a ha) (ih b hb) hs

/-- Bounds that were settled leave room. -/
theorem settlesApart_bounds :
    SettlesApart fansOut (·.IsBound fansOut) Predicate.LeavesRoom where
  symm h := h.symm
  pair ha hb hs := by
    obtain ⟨hna, hnb, hroom⟩ := leavesRoom_of_settle ha hb hs
    exact ⟨isBound_of_settle ha hb hs, hroom, fun _ h => h.narrows hna, fun _ h => h.narrows hnb⟩

theorem eq_of_leavesRoom (hroom : qs.Pairwise Predicate.LeavesRoom) (ha : a ∈ qs) (hb : b ∈ qs)
    (hka : a.status = .keep) (hkb : b.status = .keep) (hpos : a.position = b.position)
    (hside : a.op.isUpper = b.op.isUpper) : a = b := by
  have : Std.Symm Predicate.LeavesRoom := ⟨fun _ _ h => h.symm⟩
  by_contra hne
  rcases hroom.forall ha hb hne hka hkb hpos with ⟨hlow, hup, -⟩ | ⟨hlow, hup, -⟩
  · simp [hlow, hup] at hside
  · simp [hlow, hup] at hside

/-- Some rational satisfies all that is kept on a position. -/
theorem exists_accepted (hqs : ∀ q ∈ qs, q.IsBound fansOut)
    (hroom : qs.Pairwise Predicate.LeavesRoom) (pos : Nat) :
    ∃ x, ∀ q ∈ qs, q.position = pos → q.status = .keep → q.Accepts x := by
  have : Std.Symm Predicate.LeavesRoom := ⟨fun _ _ h => h.symm⟩
  have hone : ∀ a ∈ qs, ∃ x, a.Accepts x := by
    intro a ha
    obtain ⟨m, hm⟩ := Option.isSome_iff_exists.1 (hqs a ha).bound
    obtain ⟨x, hx⟩ := Comparison.exists_relates_one (hqs a ha).op_ne m
    exact ⟨x, (Predicate.accepts_iff hm x).2 hx⟩
  have hboth : ∀ a ∈ qs, ∀ b ∈ qs, a.Below b → ∃ x, a.Accepts x ∧ b.Accepts x := by
    rintro a ha b hb ⟨hlow, hup, m, hm, n, hn, hmn⟩
    obtain ⟨x, hxm, hxn⟩ := Comparison.exists_relates (hqs a ha).op_ne (hqs b hb).op_ne hlow hup
      (Int.cast_lt.2 hmn : (m : ℚ) < n)
    exact ⟨x, (Predicate.accepts_iff hm x).2 hxm, (Predicate.accepts_iff hn x).2 hxn⟩
  -- What is kept on the position is one predicate on either side, if it is there.
  by_cases hkept : ∃ a ∈ qs, a.position = pos ∧ a.status = .keep
  · obtain ⟨a, ha, hposa, hka⟩ := hkept
    by_cases hother : ∃ b ∈ qs, b.position = pos ∧ b.status = .keep ∧ b ≠ a
    · obtain ⟨b, hb, hposb, hkb, hne⟩ := hother
      have hab := hroom.forall ha hb hne.symm hka hkb (hposa.trans hposb.symm)
      have hsides : a.op.isUpper ≠ b.op.isUpper := by
        rcases hab with ⟨hlow, hup, -⟩ | ⟨hlow, hup, -⟩ <;> simp [hlow, hup]
      obtain ⟨x, hxa, hxb⟩ : ∃ x, a.Accepts x ∧ b.Accepts x := by
        rcases hab with hab | hba
        · exact hboth a ha b hb hab
        · obtain ⟨x, hxb, hxa⟩ := hboth b hb a ha hba
          exact ⟨x, hxa, hxb⟩
      refine ⟨x, fun q hq hpos hk => ?_⟩
      rcases Bool.eq_or_eq_not q.op.isUpper a.op.isUpper with hside | hside
      · exact eq_of_leavesRoom hroom hq ha hk hka (hpos.trans hposa.symm) hside ▸ hxa
      · have hside' : q.op.isUpper = b.op.isUpper := by
          cases h : a.op.isUpper <;> simp_all
        exact eq_of_leavesRoom hroom hq hb hk hkb (hpos.trans hposb.symm) hside' ▸ hxb
    · obtain ⟨x, hx⟩ := hone a ha
      refine ⟨x, fun q hq hpos hk => ?_⟩
      by_cases hqa : q = a
      · exact hqa ▸ hx
      · exact absurd ⟨q, hq, hpos, hk, hqa⟩ hother
  · exact ⟨0, fun q hq hpos hk => absurd ⟨q, hq, hpos, hk⟩ hkept⟩

/-- At most one bound of a side is kept on a position. -/
theorem countP_le_one (hroom : qs.Pairwise Predicate.LeavesRoom) {P : Predicate → Bool} (pos : Nat)
    (upper : Bool) (hP : ∀ q, P q → q.position = pos ∧ q.isKept ∧ q.op.isUpper = upper) :
    qs.countP P ≤ 1 := by
  rw [countP_eq_length_filter]
  have hpairs : (qs.filter P).Pairwise Predicate.LeavesRoom := hroom.filter P
  match hfilter : qs.filter P, hpairs with
  | [], _ => simp
  | [_], _ => simp
  | a :: b :: rest, .cons hab _ =>
    obtain ⟨hposa, hka, hsidea⟩ := hP a (mem_filter.1 (hfilter ▸ mem_cons_self)).2
    obtain ⟨hposb, hkb, hsideb⟩ :=
      hP b (mem_filter.1 (hfilter ▸ mem_cons_of_mem _ mem_cons_self)).2
    rw [Predicate.isKept, decide_eq_true_eq] at hka hkb
    rcases hab b (.head _) hka hkb (hposa.trans hposb.symm) with ⟨h₁, h₂, -⟩ | ⟨h₁, h₂, -⟩
    · simp_all
    · simp_all

end

/-! ## The main statement -/

/-- The predicate was read from a clause. It compares a field without fan-out with an integer, for
equality or as a bound. -/
structure Predicate.IsReadAsBound (p : Predicate) (g : Graph) (path : AccessPath)
    (rowVar : NodeId) : Prop where
  read : ∃ left, p.IsReadAt g path rowVar left
  single : path.fansOutAt p.position = false
  op_ne : p.op ≠ .ne
  bound : p.bound?.isSome

/-- A path that meets a field without fan-out selects no key there and is not restricted. -/
theorem Predicate.IsReadAsBound.isBound {g : Graph} {t : Table} {path : AccessPath}
    {rowVar : NodeId} (hpath : path ∈ AccessPath.all t) (h : p.IsReadAsBound g path rowVar) :
    p.IsBound path.fansOutAt := by
  obtain ⟨left, hread⟩ := h.read
  obtain ⟨q, m, others, -, -, hmeet, hkey, hwidened, -⟩ := hread.query
  obtain ⟨f, hf, hm⟩ := AccessPath.mem_meetings.1 (hmeet ▸ mem_cons_self)
  have hfan : f.fansOut = false := by
    simpa [AccessPath.fansOutAt, hf] using h.single
  have hsteps : ∀ s ∈ f.path.steps, s.fansOut = false := by
    have hpathfan := AccessPath.fansOut_of_mem_all hpath (mem_of_getElem? hf)
    rw [hfan] at hpathfan
    simpa [IndexPath.fansOut] using hpathfan
  obtain ⟨names, hnames, hfields⟩ := matchSteps_fields hsteps hm
  rw [QueryPath.matchPath, hnames, matchSteps_fields_self hfields] at hm
  cases hm
  exact ⟨h.op_ne, h.single, hkey.symm, hwidened.symm, h.bound, by simp [hread.kept]⟩

/-- Conflicts between integer bounds are resolved exactly. The resolution finds a contradiction if
and only if the predicates on some position are satisfied by no rational. Otherwise it only changes
statuses and operators, and on each position what it keeps is satisfied by the same rationals as
all predicates are; at most one equality, one bound below and one bound above are kept there. -/
theorem resolveConflicts_exact {g : Graph} {t : Table} {path : AccessPath} {rowVar : NodeId}
    (hpath : path ∈ AccessPath.all t) {ps : List Predicate}
    (hps : ∀ p ∈ ps, p.IsReadAsBound g path rowVar) :
    (resolveConflicts path.fansOutAt ps = none ↔
      ∃ pos, ∀ x : ℚ, ¬ ∀ p ∈ ps, p.position = pos → p.Accepts x) ∧
    ∀ qs, resolveConflicts path.fansOutAt ps = some qs →
      Forall₂ Predicate.Restates ps qs ∧
      ∀ pos,
        (∀ x : ℚ, (∀ q ∈ qs, q.position = pos → q.isKept → q.Accepts x) ↔
          ∀ p ∈ ps, p.position = pos → p.Accepts x) ∧
        qs.countP (fun q => q.position = pos && q.isKept && q.isEquality) ≤ 1 ∧
        qs.countP (fun q => q.position = pos && q.isKept && q.op.isLower) ≤ 1 ∧
        qs.countP (fun q => q.position = pos && q.isKept && q.op.isUpper) ≤ 1 := by
  have hbound : ∀ p ∈ ps, p.IsBound path.fansOutAt := fun p hp => (hps p hp).isBound hpath
  have hmet : ∀ pos x, AllMet (·.position = pos) (fun _ => [.ofRat x]) ps ↔
      ∀ p ∈ ps, p.position = pos → p.Accepts x := fun pos x =>
    forall₂_congr fun p hp => imp_congr_right fun _ => (hbound p hp).isMet_iff x
  have hsome : ∀ qs, resolveConflicts path.fansOutAt ps = some qs →
      qs.Pairwise Predicate.LeavesRoom ∧ (∀ q ∈ qs, q.IsBound path.fansOutAt) ∧
        ∀ pos x, (∀ q ∈ qs, q.position = pos → q.isKept → q.Accepts x) ↔
          ∀ p ∈ ps, p.position = pos → p.Accepts x := by
    intro qs hqs
    have hrun := resolveConflicts_run hqs
    have hbounds := isBound_of_run hrun hbound
    refine ⟨settlesApart_bounds.pairwise hbound hqs, hbounds, fun pos x => ?_⟩
    have hal := aligned_rational hbound pos x
    rw [← hmet]
    constructor
    · intro hkept
      -- What is not implied is kept, and nothing is implied before the first pair is settled.
      have hopen := openMet_of_run hrun hal fun q hq hne hpos => by
        refine ((hbounds q hq).isMet_iff x).2 (hkept q hq hpos ?_)
        have hskip := (hbounds q hq).not_skipped
        cases hstatus : q.status <;> simp_all [Predicate.isKept]
      intro p hp
      obtain ⟨left, hread⟩ := (hps p hp).read
      exact hopen p hp (by simp [hread.kept])
    · exact fun hall q hq hpos _ =>
        ((hbounds q hq).isMet_iff x).1 (allMet_of_run hrun hal hall q hq hpos)
  refine ⟨⟨fun hnone => ?_, fun hempty => ?_⟩, fun qs hqs => ?_⟩
  · obtain ⟨p, -, hclash⟩ := exists_not_allMet hnone
    exact ⟨p.position, fun x hx =>
      hclash _ _ (aligned_rational hbound p.position x) rfl ((hmet _ x).2 hx)⟩
  · obtain ⟨pos, hempty⟩ := hempty
    by_contra hne
    obtain ⟨qs, hqs⟩ := Option.ne_none_iff_exists'.1 hne
    obtain ⟨hroom, hbounds, hiff⟩ := hsome qs hqs
    obtain ⟨x, hx⟩ := exists_accepted hbounds hroom pos
    refine hempty x ((hiff pos x).1 fun q hq hpos hk => hx q hq hpos ?_)
    simpa [Predicate.isKept] using hk
  · obtain ⟨hroom, -, hiff⟩ := hsome qs hqs
    refine ⟨restates_of_run (resolveConflicts_run hqs), fun pos => ⟨hiff pos, ?_, ?_, ?_⟩⟩
    · refine countP_le_one hroom pos false fun q hq => ?_
      simp only [Bool.and_eq_true, decide_eq_true_eq, Predicate.isEquality] at hq
      exact ⟨hq.1.1, hq.1.2, by rw [hq.2]; rfl⟩
    · refine countP_le_one hroom pos false fun q hq => ?_
      simp only [Bool.and_eq_true, decide_eq_true_eq] at hq
      refine ⟨hq.1.1, hq.1.2, ?_⟩
      cases hop : q.op <;> simp_all [Comparison.isLower, Comparison.isUpper]
    · refine countP_le_one hroom pos true fun q hq => ?_
      simp only [Bool.and_eq_true, decide_eq_true_eq] at hq
      exact ⟨hq.1.1, hq.1.2, hq.2⟩

/-- `b >= 5 AND a > 5 AND b <= 5`: the bounds on `b` collapse into a point. -/
def boundSample : ScanBlock := columnSample [("b", .ge), ("a", .gt), ("b", .le)]

theorem resolveConflicts_exact_boundSample :
    let path := AccessPath.ofIndex columnSampleTable (some columnSampleIndex)
    ∃ ps, readPredicates boundSample.graph path boundSample.site = .ok ps ∧ ps.length = 3 ∧
      (∀ p ∈ ps, p.IsReadAsBound boundSample.graph path boundSample.site.rowVar) ∧
      ∃ qs, resolveConflicts path.fansOutAt ps = some qs ∧ qs.countP (·.isKept) = 2 ∧
        ∀ pos x, (∀ q ∈ qs, q.position = pos → q.isKept → q.Accepts x) ↔
          ∀ p ∈ ps, p.position = pos → p.Accepts x := by
  intro path
  have htest : (match readPredicates boundSample.graph path boundSample.site with
      | .ok ps => ps.length == 3 &&
          ps.all (fun p => !path.fansOutAt p.position && p.op != .ne && p.bound?.isSome) &&
          (resolveConflicts path.fansOutAt ps).any (·.countP (·.isKept) == 2)
      | .error _ => false) = true := by
    decide +kernel
  have hpath : path ∈ AccessPath.all columnSampleTable := by decide
  cases hread : readPredicates boundSample.graph path boundSample.site with
  | error e =>
    rw [hread] at htest
    cases htest
  | ok ps =>
    rw [hread] at htest
    simp only [Bool.and_eq_true, beq_iff_eq, all_eq_true, Bool.not_eq_eq_eq_not, Bool.not_true,
      bne_iff_ne, ne_eq, Option.any_eq_true] at htest
    obtain ⟨⟨hlength, hall⟩, qs, hqs, hcount⟩ := htest
    have hps : ∀ p ∈ ps, p.IsReadAsBound boundSample.graph path boundSample.site.rowVar :=
      fun p hp => ⟨(isReadAt_of_mem hread hp).2, (hall p hp).1.1, (hall p hp).1.2, (hall p hp).2⟩
    exact ⟨ps, rfl, hlength, hps, qs, hqs, hcount,
      fun pos => (((resolveConflicts_exact hpath hps).2 qs hqs).2 pos).1⟩

end ShardedQuery
