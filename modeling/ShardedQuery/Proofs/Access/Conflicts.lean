import Mathlib.Data.List.Pairwise
import Mathlib.Logic.Relation
import Mathlib.Tactic.Tauto
import ShardedQuery.Proofs.Meaning

/-!
# Conflicts between predicates

`resolveConflicts` settles pairs of predicates, one after the other, and `Settles` is one such
step. A step keeps everything of a predicate but its status and its operator
(`Predicate.Restates`), and what the items of a field meet before it they meet after it
(`Settles.allMet`). In the other direction nothing is said of implied predicates: what is met after
a step and not implied gives back what was not implied before (`Settles.openMet`). Both carry over
to whole runs, `allMet_of_run` and `openMet_of_run`, and a run that fails has found predicates that
are not met together (`exists_not_allMet`).

All this is relative to a class of subjects whose predicates are `Aligned`. Comparisons with
integers are (`aligned_integers`), whether of single items or of any item.
-/

namespace ShardedQuery

open Relation List

variable {a b : Predicate} {fansOut : Nat → Bool} {ps rest : List Predicate} {any : Bool}
  {P : Predicate → Prop}

variable {items : List Standing} {a' b' : Predicate}

variable {p q : Predicate} {qs : List Predicate}

/-! ## Pairs of constants -/

/-- What a resolution of two comparisons must respect, when an item stands to their constants as
`o₁` and `o₂`. -/
def Resolution.IsSound (p q : Comparison) (o₁ o₂ : Ordering) : Resolution → Prop
  | .both => True
  | .first s => s = .implied ∧ (q.holds o₂ → p.holds o₁)
  | .second s => s = .implied ∧ (p.holds o₁ → q.holds o₂)
  | .collapseFirst => (p.holds o₁ ∧ q.holds o₂) ↔ o₁ = .eq
  | .collapseSecond => (p.holds o₁ ∧ q.holds o₂) ↔ o₂ = .eq
  | .contradiction => ¬ (p.holds o₁ ∧ q.holds o₂)

instance (p q : Comparison) (o₁ o₂ : Ordering) :
    DecidablePred (Resolution.IsSound p q o₁ o₂)
  | .both => inferInstanceAs (Decidable True)
  | .first s => inferInstanceAs (Decidable (s = .implied ∧ _))
  | .second s => inferInstanceAs (Decidable (s = .implied ∧ _))
  | .collapseFirst => inferInstanceAs (Decidable (_ ↔ o₁ = .eq))
  | .collapseSecond => inferInstanceAs (Decidable (_ ↔ o₂ = .eq))
  | .contradiction => inferInstanceAs (Decidable (¬ _))

theorem resolveConstants_isSound {p q : Comparison} (hp : p ≠ .ne) (hq : q ≠ .ne)
    {o₁ o o₂ : Ordering} (hchain : Chains o₁ o o₂) :
    (resolveConstants p q o).IsSound p q o₁ o₂ := by
  cases o₁ <;> cases o <;> cases o₂ <;> cases hchain <;> cases p <;> cases q <;>
    first | contradiction | decide

/-! ## Pairs of predicates -/

/-- The standing of the only item. Without one, or with many, nothing can be compared. -/
def Standing.only : List Standing → Standing
  | [r] => r
  | _ => fun _ => none

/-- A value comparison looks at the only item, and so does any comparison of at most one item. -/
theorem compares_eq_only (h : any = false ∨ items.length ≤ 1) (accepts : Ordering → Bool)
    (w : Value) : compares any accepts items w = (Standing.only items w).any accepts := by
  match items, any with
  | [], true => rfl
  | [], false => rfl
  | [r], true => simp [compares, Standing.only]
  | [r], false => rfl
  | _ :: _ :: _, false => rfl
  | _ :: _ :: _, true => simp at h

theorem Standing.IsCoherent.only (h : ∀ r ∈ items, r.IsCoherent) : (only items).IsCoherent := by
  unfold Standing.only
  split
  · exact h _ (mem_singleton_self _)
  · exact ⟨fun _ _ _ => .inl ⟨rfl, rfl⟩, fun _ _ h => nomatch h⟩

/-- What a resolution of two predicates must respect for the items they are about. -/
def Resolution.Respects (a b : Predicate) (items : List Standing) : Resolution → Prop
  | .both => True
  | .first s => s = .implied → b.IsMet items → a.IsMet items
  | .second s => s = .implied → a.IsMet items → b.IsMet items
  | .collapseFirst => (a.IsMet items ∧ b.IsMet items) ↔ { a with op := .eq }.IsMet items
  | .collapseSecond => (a.IsMet items ∧ b.IsMet items) ↔ { b with op := .eq }.IsMet items
  | .contradiction => ¬ (a.IsMet items ∧ b.IsMet items)

theorem respects_preferEquality (a b : Predicate) (items : List Standing) {r : Resolution}
    (hr : r.Respects a b items) : ((preferEquality a b).getD r).Respects a b items := by
  unfold preferEquality
  split
  · exact fun h => nomatch h
  · exact fun h => nomatch h
  · exact hr

/-- Equal constants are met by the same items. -/
theorem compares_congr (hitems : ∀ r ∈ items, r.IsCoherent) {v w : Value} (hv : v.isExact)
    (hw : w.isExact) (h : v == w) (accepts : Ordering → Bool) :
    compares any accepts items v = compares any accepts items w := by
  have hsame : ∀ r ∈ items, (r v).any accepts = (r w).any accepts := by
    intro r hr
    rcases (hitems r hr).chains hv hw (Value.compareAtomic_of_beq hv hw h) with
      ⟨h₁, h₂⟩ | ⟨o₁, o₂, h₁, h₂, hchain⟩
    · rw [h₁, h₂]
    · rw [h₁, h₂]
      cases o₁ <;> cases hchain <;> rfl
  unfold compares
  split
  · rw [Bool.eq_iff_iff, any_eq_true, any_eq_true]
    exact exists_congr fun r => and_congr_right fun hr => by rw [hsame r hr]
  · split
    · exact hsame _ (mem_singleton_self _)
    · rfl

section
variable {items : List Standing}

/-- A resolution of comparisons is one of predicates that make them. -/
theorem Resolution.IsSound.respects {o₁ o₂ : Ordering}
    (ha : ∀ op, { a with op := op }.IsMet items ↔ op.holds o₁)
    (hb : ∀ op, { b with op := op }.IsMet items ↔ op.holds o₂) :
    ∀ {r : Resolution}, r.IsSound a.op b.op o₁ o₂ → r.Respects a b items
  | .both, _ => trivial
  | .first _, h => fun _ hq => (ha a.op).2 (h.2 ((hb b.op).1 hq))
  | .second _, h => fun _ hp => (hb b.op).2 (h.2 ((ha a.op).1 hp))
  | .collapseFirst, h => by
    refine (and_congr (ha a.op) (hb b.op)).trans (h.trans ?_)
    rw [ha .eq, Comparison.holds, beq_iff_eq]
  | .collapseSecond, h => by
    refine (and_congr (ha a.op) (hb b.op)).trans (h.trans ?_)
    rw [hb .eq, Comparison.holds, beq_iff_eq]
  | .contradiction, h => fun hpq => h ⟨(ha a.op).1 hpq.1, (hb b.op).1 hpq.2⟩

/-- Predicates that no operator makes the items meet can be resolved in any way. -/
theorem Resolution.respects_of_not_isMet (ha : ∀ op, ¬ { a with op := op }.IsMet items)
    (hb : ∀ op, ¬ { b with op := op }.IsMet items) :
    ∀ r : Resolution, r.Respects a b items
  | .both => trivial
  | .first _ => fun _ hq => absurd hq (hb b.op)
  | .second _ => fun _ hp => absurd hp (ha a.op)
  | .collapseFirst => ⟨fun h => absurd h.1 (ha a.op), fun h => absurd h (ha .eq)⟩
  | .collapseSecond => ⟨fun h => absurd h.1 (ha a.op), fun h => absurd h (hb .eq)⟩
  | .contradiction => fun h => ha a.op h.1

theorem competes_iff :
    competes a b ↔ a.status = .keep ∧ b.status = .keep ∧ a.op ≠ .ne ∧ b.op ≠ .ne ∧
      a.widened = false ∧ b.widened = false ∧ a.position = b.position ∧ a.mapKey = b.mapKey := by
  simp [competes, Predicate.isKept, Predicate.isFilterOnly, and_assoc]

/-- Two predicates about the same items are resolved as the order of the items has it. -/
theorem respects_resolvePair (hcomp : competes a b)
    (hany : a.any = b.any ∨ fansOut a.position = false) (hitems : ∀ r ∈ items, r.IsCoherent)
    (hscalar : fansOut a.position = false → items.length ≤ 1)
    (ha : a.IsExact) (hb : b.IsExact) :
    (resolvePair a b (a.independent fansOut b)).Respects a b items := by
  obtain ⟨-, -, hane, hbne, -⟩ := competes_iff.1 hcomp
  unfold resolvePair
  split
  · next v w hav hbw =>
    have hv := ha v hav
    have hw := hb w hbw
    split
    · next hind =>
      -- Different items may satisfy the two: only a repetition is implied.
      have hany : a.any = b.any := hany.resolve_right fun hf => by
        simp [Predicate.independent, hf] at hind
      split
      · next hsame =>
        rw [Bool.and_eq_true, decide_eq_true_eq] at hsame
        rintro - hmet
        rw [Predicate.isMet_iff hav] at hmet
        rw [Predicate.isMet_iff hbw, ← hany, ← hsame.1, ← compares_congr hitems hv hw hsame.2]
        exact hmet
      · exact respects_preferEquality a b items fun h => nomatch h
    · next hdep =>
      -- Both look at the only item.
      have honly : (a.any = false ∧ b.any = false) ∨ items.length ≤ 1 := by
        cases hf : fansOut a.position with
        | false => exact .inr (hscalar hf)
        | true =>
          simp only [Predicate.independent, hf, Bool.true_and, Bool.not_eq_true,
            Bool.or_eq_false_iff] at hdep
          exact .inl hdep.1
      have hcoh := Standing.IsCoherent.only hitems
      have hma : ∀ op, { a with op := op }.IsMet items ↔ (Standing.only items v).any op.holds := by
        intro op
        rw [Predicate.isMet_iff (p := { a with op := op }) hav,
          compares_eq_only (honly.imp_left And.left)]
      have hmb : ∀ op, { b with op := op }.IsMet items ↔ (Standing.only items w).any op.holds := by
        intro op
        rw [Predicate.isMet_iff (p := { b with op := op }) hbw,
          compares_eq_only (honly.imp_left And.right)]
      split
      · next hnone =>
        rintro ⟨hpa, hpb⟩
        obtain ⟨o₁, h₁, -⟩ := (Option.any_eq_true _ _).1 ((hma a.op).1 hpa)
        obtain ⟨o₂, h₂, -⟩ := (Option.any_eq_true _ _).1 ((hmb b.op).1 hpb)
        obtain ⟨o, ho⟩ := hcoh.comparable hv hw h₁ h₂
        exact nomatch hnone.symm.trans ho
      · next o ho =>
        rcases hcoh.chains hv hw ho with ⟨h₁, h₂⟩ | ⟨o₁, o₂, h₁, h₂, hchain⟩
        · refine Resolution.respects_of_not_isMet (fun op => ?_) (fun op => ?_) _
          · simp [hma, h₁]
          · simp [hmb, h₂]
        · refine Resolution.IsSound.respects (fun op => ?_) (fun op => ?_)
            (resolveConstants_isSound hane hbne hchain)
          · simp [hma, h₁]
          · simp [hmb, h₂]
  · split
    · exact respects_preferEquality a b items fun h => nomatch h
    · refine respects_preferEquality a b items ?_
      split
      · exact fun h => nomatch h
      · trivial

theorem Resolution.Respects.isMet_apply :
    ∀ {r : Resolution}, r.Respects a b items → r.apply a b = some (a', b') →
      a.IsMet items → b.IsMet items → a'.IsMet items ∧ b'.IsMet items
  | .both, _, rfl, ha, hb => ⟨ha, hb⟩
  | .first _, _, rfl, ha, hb => ⟨ha, hb⟩
  | .second _, _, rfl, ha, hb => ⟨ha, hb⟩
  | .collapseFirst, h, rfl, ha, hb => ⟨h.1 ⟨ha, hb⟩, hb⟩
  | .collapseSecond, h, rfl, ha, hb => ⟨ha, h.1 ⟨ha, hb⟩⟩

/-- Of kept predicates, the items met both before a resolution if afterwards they meet those that
are not implied. -/
theorem Resolution.Respects.isMet_of_apply (hka : a.status = .keep) (hkb : b.status = .keep) :
    ∀ {r : Resolution}, r.Respects a b items → r.apply a b = some (a', b') →
      (a'.status ≠ .implied → a'.IsMet items) → (b'.status ≠ .implied → b'.IsMet items) →
      a.IsMet items ∧ b.IsMet items
  | .both, _, rfl, ha, hb => ⟨ha (by simp [hka]), hb (by simp [hkb])⟩
  | .first s, h, rfl, ha, hb => by
    have hmb : b.IsMet items := hb (by simp [hkb])
    by_cases hs : s = .implied
    · exact ⟨h hs hmb, hmb⟩
    · exact ⟨ha hs, hmb⟩
  | .second s, h, rfl, ha, hb => by
    have hma : a.IsMet items := ha (by simp [hka])
    by_cases hs : s = .implied
    · exact ⟨hma, h hs hma⟩
    · exact ⟨hma, hb hs⟩
  | .collapseFirst, h, rfl, ha, _ => h.2 (ha (by simp [hka]))
  | .collapseSecond, h, rfl, _, hb => h.2 (hb (by simp [hkb]))

end

/-! ## Settling one pair in a list -/

/-- The same comparison of the same items, with another status, and perhaps turned into an
equality. -/
structure Predicate.Restates (p q : Predicate) : Prop where
  eq : q = { p with op := q.op, status := q.status }
  op : q.op = p.op ∨ (q.op = .eq ∧ p.op ≠ .ne ∧ p.widened = false)
  /-- A predicate that is skipped once is not taken up again. -/
  skip : p.status = .skip → q.status = .skip
  keep : q.status = .keep → p.status = .keep
  /-- What looks at fewer items than the field holds is not implied by what the field holds. -/
  implied : q.status = .implied → p.status = .implied ∨ p.widened = false

namespace Predicate.Restates

theorem refl (p : Predicate) : p.Restates p := ⟨rfl, .inl rfl, id, id, .inl⟩

theorem trans {r : Predicate} (h₁ : p.Restates q) (h₂ : q.Restates r) : p.Restates r := by
  have hwidened : q.widened = p.widened := by rw [h₁.eq]
  refine ⟨?_, ?_, fun h => h₂.skip (h₁.skip h), fun h => h₁.keep (h₂.keep h), fun h => ?_⟩
  · rw [h₂.eq, h₁.eq]
  · rcases h₂.op with h | ⟨h, hne, hw⟩
    · rw [h]; exact h₁.op
    · exact .inr ⟨h, h₁.op.elim (fun heq => heq ▸ hne) fun h => h.2.1, hwidened ▸ hw⟩
  · rcases h₂.implied h with h | h
    · exact h₁.implied h
    · exact .inr (hwidened ▸ h)

theorem skipped (p : Predicate) : p.Restates { p with status := .skip } :=
  ⟨rfl, .inl rfl, fun _ => rfl, (nomatch ·), (nomatch ·)⟩

theorem of_kept (h : p.status = .keep) {s : Status}
    (hs : s = .implied → p.widened = false) : p.Restates { p with status := s } :=
  ⟨rfl, .inl rfl, (nomatch h.symm.trans ·), fun _ => h, fun h => .inr (hs h)⟩

theorem collapsed (h : p.op ≠ .ne) (hw : p.widened = false) : p.Restates { p with op := .eq } :=
  ⟨rfl, .inr ⟨rfl, h, hw⟩, id, id, .inl⟩

section
variable (h : p.Restates q)
include h

theorem subject_eq : q.subject = p.subject := by
  rw [h.eq]; rfl

theorem value_eq : q.value = p.value := by
  rw [h.eq]

theorem mapKey_eq : q.mapKey = p.mapKey := by
  rw [h.eq]

theorem operand_eq : q.operand = p.operand := by rw [h.eq]

theorem position_eq : q.position = p.position := by
  rw [h.eq]

theorem widened_eq : q.widened = p.widened := by
  rw [h.eq]

theorem unnested_eq : q.unnested = p.unnested := by
  rw [h.eq]

theorem conjunct_eq : q.conjunct = p.conjunct := by
  rw [h.eq]

end

end Predicate.Restates

/-- What competes in the end has competed all along. -/
theorem competes_of_restates {p' q' : Predicate} (hp : p.Restates p') (hq : q.Restates q')
    (h : competes p' q') : competes p q := by
  have hne : ∀ {p p' : Predicate}, p.Restates p' → p'.op ≠ .ne → p.op ≠ .ne := fun hr h =>
    hr.op.elim (fun heq => heq ▸ h) fun h => h.2.1
  rw [competes_iff] at h ⊢
  obtain ⟨hkp, hkq, hnp, hnq, hwp, hwq, hpos, hkey⟩ := h
  rw [hp.eq] at hwp
  rw [hq.eq] at hwq
  rw [hp.position_eq, hq.position_eq] at hpos
  rw [hp.mapKey_eq, hq.mapKey_eq] at hkey
  exact ⟨hp.keep hkp, hq.keep hkq, hne hp hnp, hne hq hnq, hwp, hwq, hpos, hkey⟩

theorem forall₂_restates_trans {rs : List Predicate}
    (h₁ : Forall₂ Predicate.Restates ps qs) (h₂ : Forall₂ Predicate.Restates qs rs) :
    Forall₂ Predicate.Restates ps rs := by
  induction h₁ generalizing rs with
  | nil => exact h₂
  | cons h _ ih =>
    cases h₂ with
    | cons h' hrest => exact .cons (h.trans h') (ih hrest)

/-- One pair of a list is settled. -/
inductive Settles (fansOut : Nat → Bool) : List Predicate → List Predicate → Prop where
  | pair (before between after : List Predicate) {a b a' b' : Predicate}
      (h : settle fansOut a b = some (a', b')) :
      Settles fansOut (before ++ a :: between ++ b :: after)
        (before ++ a' :: between ++ b' :: after)

/-- The pair that is settled, and that nothing else changes. -/
theorem Settles.exists_pair (h : Settles fansOut ps qs) :
    ∃ a ∈ ps, ∃ b ∈ ps, ∃ a' ∈ qs, ∃ b' ∈ qs, settle fansOut a b = some (a', b') ∧
      (∀ q ∈ qs, q ∈ ps ∨ q = a' ∨ q = b') ∧ (∀ p ∈ ps, p ∈ qs ∨ p = a ∨ p = b) := by
  cases h with
  | @pair before between after a b a' b' hs =>
    refine ⟨a, by simp, b, by simp, a', by simp, b', by simp, hs, fun q hq => ?_, fun p hp => ?_⟩
    · simp only [mem_append, mem_cons] at hq ⊢
      tauto
    · simp only [mem_append, mem_cons] at hp ⊢
      tauto

/-- What holds of all predicates holds of all after a pair is settled, if it holds of the pair. -/
theorem Settles.forall (h : Settles fansOut ps qs) (hps : ∀ p ∈ ps, P p)
    (hpair : ∀ a ∈ ps, ∀ b ∈ ps, ∀ a' b', settle fansOut a b = some (a', b') → P a' ∧ P b') :
    ∀ q ∈ qs, P q := by
  obtain ⟨a, ha, b, hb, a', -, b', -, hs, hqs, -⟩ := h.exists_pair
  obtain ⟨hpa, hpb⟩ := hpair a ha b hb a' b' hs
  intro q hq
  rcases hqs q hq with hq | rfl | rfl
  · exact hps q hq
  · exact hpa
  · exact hpb

theorem Settles.forall_before (h : Settles fansOut ps qs) (hqs : ∀ q ∈ qs, P q)
    (hpair : ∀ a ∈ ps, ∀ b ∈ ps, ∀ a' ∈ qs, ∀ b' ∈ qs,
      settle fansOut a b = some (a', b') → P a ∧ P b) : ∀ p ∈ ps, P p := by
  obtain ⟨a, ha, b, hb, a', ha', b', hb', hs, -, hps⟩ := h.exists_pair
  obtain ⟨hpa, hpb⟩ := hpair a ha b hb a' ha' b' hb' hs
  intro p hp
  rcases hps p hp with hp | rfl | rfl
  · exact hqs p hp
  · exact hpa
  · exact hpb

theorem settleAgainst_cons_eq_some :
    settleAgainst fansOut a (b :: rest) = some (a', qs) ↔
      ∃ a₁ b₁ rest', settle fansOut a b = some (a₁, b₁) ∧
        settleAgainst fansOut a₁ rest = some (a', rest') ∧ qs = b₁ :: rest' := by
  simp only [settleAgainst, Option.bind_eq_bind, Option.bind_eq_some_iff, Option.pure_def,
    Option.some.injEq, Prod.mk.injEq, Prod.exists]
  constructor
  · rintro ⟨a₁, b₁, hs, a₂, rest', hr, rfl, rfl⟩
    exact ⟨a₁, b₁, rest', hs, hr, rfl⟩
  · rintro ⟨a₁, b₁, rest', hs, hr, rfl⟩
    exact ⟨a₁, b₁, hs, a', rest', hr, rfl, rfl⟩

theorem settleFirst_cons_eq_some {n : Nat} :
    settleFirst fansOut (n + 1) (p :: rest) = some qs ↔
      ∃ p' rest' qs', settleAgainst fansOut p rest = some (p', rest') ∧
        settleFirst fansOut n rest' = some qs' ∧ qs = p' :: qs' := by
  simp only [settleFirst, Option.bind_eq_bind, Option.bind_eq_some_iff, Option.pure_def,
    Option.some.injEq, Prod.exists]
  constructor
  · rintro ⟨p', rest', hs, qs', hr, rfl⟩
    exact ⟨p', rest', qs', hs, hr, rfl⟩
  · rintro ⟨p', rest', qs', hs, hr, rfl⟩
    exact ⟨p', rest', hs, qs', hr, rfl⟩

/-- Two predicates of the class `I` that are settled stay in it and come into the relation `P`. They
leave this relation to no other predicate. -/
structure SettlesApart (fansOut : Nat → Bool) (I : Predicate → Prop)
    (P : Predicate → Predicate → Prop) : Prop where
  symm : ∀ {a b}, P a b → P b a
  pair : ∀ {a b a' b'}, I a → I b → settle fansOut a b = some (a', b') →
    (I a' ∧ I b') ∧ P a' b' ∧ (∀ c, P c a → P c a') ∧ ∀ c, P c b → P c b'

namespace SettlesApart
variable {I : Predicate → Prop} {P : Predicate → Predicate → Prop} (h : SettlesApart fansOut I P)
include h

/-- A predicate that was settled with those that follow it is in the relation to each of them. -/
theorem against : ∀ (rest : List Predicate) {a a' : Predicate} {rest' : List Predicate},
    I a → (∀ p ∈ rest, I p) → settleAgainst fansOut a rest = some (a', rest') →
    (∀ c, P c a → P c a') ∧ (∀ q ∈ rest', P a' q) ∧
      Forall₂ (fun p q => I q ∧ ∀ c, P c p → P c q) rest rest'
  | [], _, _, _, _, _, heq => by
    cases heq
    exact ⟨fun _ => id, by simp, .nil⟩
  | b :: rest, a, a', _, ha, hrest, heq => by
    obtain ⟨a₁, b₁, rest', hs, hr, rfl⟩ := settleAgainst_cons_eq_some.1 heq
    obtain ⟨⟨ha₁, hb₁⟩, hapart, hfirst, hsecond⟩ := h.pair ha (hrest b (.head _)) hs
    obtain ⟨hlater, hall, hrest'⟩ := against rest ha₁ (fun p hp => hrest p (.tail _ hp)) hr
    refine ⟨fun c hc => hlater c (hfirst c hc), fun q hq => ?_, .cons ⟨hb₁, hsecond⟩ hrest'⟩
    rcases mem_cons.1 hq with rfl | hq
    · -- Settling with the others has changed the first of the two only.
      exact h.symm (hlater _ (h.symm hapart))
    · exact hall q hq

theorem first : ∀ (n : Nat) {ps qs : List Predicate}, (∀ p ∈ ps, I p) → ps.length ≤ n →
    settleFirst fansOut n ps = some qs →
    (∀ q ∈ qs, ∃ p ∈ ps, ∀ c, P c p → P c q) ∧ qs.Pairwise P
  | 0, [], _, _, _, heq | _ + 1, [], _, _, _, heq => by
    cases heq
    exact ⟨by simp, .nil⟩
  | 0, _ :: _, _, _, hlen, _ => absurd hlen (by simp)
  | n + 1, p :: rest, _, hps, hlen, heq => by
    obtain ⟨p', rest', qs', hs, hr, rfl⟩ := settleFirst_cons_eq_some.1 heq
    obtain ⟨hfirst, hall, hrest⟩ :=
      h.against rest (hps p (.head _)) (fun q hq => hps q (.tail _ hq)) hs
    have hclass : ∀ r ∈ rest', I r := fun r hr => (exists_of_forall₂ hrest hr).elim fun _ h => h.2.1
    obtain ⟨hqs, hpair⟩ := first n hclass
      (hrest.length_eq ▸ Nat.le_of_succ_le_succ hlen) hr
    refine ⟨fun q hq => ?_, .cons (fun q hq => ?_) hpair⟩
    · rcases mem_cons.1 hq with rfl | hq
      · exact ⟨p, .head _, hfirst⟩
      · obtain ⟨r, hr, hrq⟩ := hqs q hq
        obtain ⟨p₀, hp₀, -, hpr⟩ := exists_of_forall₂ hrest hr
        exact ⟨p₀, .tail _ hp₀, fun c hc => hrq c (hpr c hc)⟩
    · obtain ⟨r, hr, hrq⟩ := hqs q hq
      exact hrq p' (hall r hr)

/-- When each predicate was settled with all that follow it, any two are in the relation. -/
theorem pairwise (hps : ∀ p ∈ ps, I p) (hqs : resolveConflicts fansOut ps = some qs) :
    qs.Pairwise P :=
  (h.first ps.length hps (Nat.le_refl _) hqs).2

end SettlesApart

/-- The list has two predicates that contradict each other. -/
def Clashes (fansOut : Nat → Bool) (ps : List Predicate) : Prop :=
  ∃ a ∈ ps, ∃ b ∈ ps, settle fansOut a b = none

/-- Pairs are settled one after the other until the result is reached, or, if there is none, two
predicates that contradict each other. -/
def SettlesInto (fansOut : Nat → Bool) (ps : List Predicate) : Option (List Predicate) → Prop
  | some qs => ReflTransGen (Settles fansOut) ps qs
  | none => ∃ qs, ReflTransGen (Settles fansOut) ps qs ∧ Clashes fansOut qs

theorem SettlesInto.head {r : Option (List Predicate)} (h : SettlesInto fansOut qs r)
    (hrun : ReflTransGen (Settles fansOut) ps qs) : SettlesInto fansOut ps r := by
  cases r with
  | some rs => exact hrun.trans h
  | none =>
    obtain ⟨rs, hrs, hclash⟩ := h
    exact ⟨rs, hrun.trans hrs, hclash⟩

/-- A predicate is settled with those that follow it. -/
theorem settlesInto_settleAgainst (fansOut : Nat → Bool) (before : List Predicate) :
    ∀ (rest : List Predicate) (a : Predicate) (done : List Predicate),
      SettlesInto fansOut (before ++ a :: done ++ rest)
        ((settleAgainst fansOut a rest).map fun r => before ++ r.1 :: done ++ r.2)
  | [], _, _ => .refl
  | b :: rest, a, done => by
    rw [settleAgainst]
    cases hs : settle fansOut a b with
    | none => exact ⟨_, .refl, a, by simp, b, by simp, hs⟩
    | some ab =>
      have hrest := settlesInto_settleAgainst fansOut before rest ab.1 (done ++ [ab.2])
      refine SettlesInto.head ?_ (.single (Settles.pair before done rest hs))
      cases hr : settleAgainst fansOut ab.1 rest <;> simpa [hr] using hrest

theorem settlesInto_settleFirst (fansOut : Nat → Bool) : ∀ (n : Nat) (ps before : List Predicate),
    SettlesInto fansOut (before ++ ps) ((settleFirst fansOut n ps).map (before ++ ·))
  | 0, _, _ => .refl
  | _ + 1, [], _ => .refl
  | n + 1, p :: rest, before => by
    have hhead := settlesInto_settleAgainst fansOut before rest p []
    cases hs : settleAgainst fansOut p rest with
    | none => simpa [settleFirst, hs] using hhead
    | some pr =>
      have htail := settlesInto_settleFirst fansOut n pr.2 (before ++ [pr.1])
      rw [hs, Option.map_some, append_assoc] at hhead
      refine SettlesInto.head ?_ hhead
      cases hr : settleFirst fansOut n pr.2 <;> simpa [settleFirst, hs, hr] using htail

theorem settlesInto_resolveConflicts (fansOut : Nat → Bool) (ps : List Predicate) :
    SettlesInto fansOut ps (resolveConflicts fansOut ps) := by
  have h := settlesInto_settleFirst fansOut ps.length ps []
  simpa [resolveConflicts] using h

theorem resolveConflicts_run
    (h : resolveConflicts fansOut ps = some qs) : ReflTransGen (Settles fansOut) ps qs := by
  have hinto := settlesInto_resolveConflicts fansOut ps
  rwa [h] at hinto

/-- A failed resolution settles pairs until it meets two predicates that contradict each other. -/
theorem resolveConflicts_clash (h : resolveConflicts fansOut ps = none) :
    ∃ qs, ReflTransGen (Settles fansOut) ps qs ∧ Clashes fansOut qs := by
  have hinto := settlesInto_resolveConflicts fansOut ps
  rwa [h] at hinto

/-! ## What a resolution preserves -/

theorem settle_restates (h : settle fansOut a b = some (a', b')) :
    a.Restates a' ∧ b.Restates b' := by
  rw [settle] at h
  split at h
  · next hcomp =>
    obtain ⟨hka, hkb, hna, hnb, hwa, hwb, -, -⟩ := competes_iff.1 hcomp
    revert h
    cases resolvePair a b (a.independent fansOut b) <;>
      simp only [Resolution.apply, reduceCtorEq, Option.some.injEq, Prod.mk.injEq,
        false_implies] <;>
      rintro ⟨rfl, rfl⟩
    · exact ⟨.refl a, .refl b⟩
    · exact ⟨.of_kept hka fun _ => hwa, .refl b⟩
    · exact ⟨.refl a, .of_kept hkb fun _ => hwb⟩
    · exact ⟨.collapsed hna hwa, .of_kept hkb fun _ => hwb⟩
    · exact ⟨.of_kept hka fun _ => hwa, .collapsed hnb hwb⟩
  · cases h
    exact ⟨.refl a, .refl b⟩

theorem Settles.restates (h : Settles fansOut ps qs) : Forall₂ Predicate.Restates ps qs := by
  have hrefl : ∀ l : List Predicate, Forall₂ Predicate.Restates l l :=
    fun l => forall₂_same.2 fun p _ => .refl p
  cases h with
  | pair before between after h =>
    obtain ⟨ha, hb⟩ := settle_restates h
    exact rel_append (rel_append (hrefl before) (.cons ha (hrefl between)))
      (.cons hb (hrefl after))

theorem restates_of_run (h : ReflTransGen (Settles fansOut) ps qs) :
    Forall₂ Predicate.Restates ps qs := by
  induction h with
  | refl => exact forall₂_same.2 fun p _ => .refl p
  | tail _ hstep ih => exact forall₂_restates_trans ih hstep.restates

section
variable {F : Subject → Prop} {items : Subject → List Standing}

/-- The predicates about certain subjects, read on given items, are in order: the items stand to
the constants as those of a linear order, and what competes for a field looks at the same items. -/
structure Aligned (fansOut : Nat → Bool) (F : Subject → Prop) (items : Subject → List Standing)
    (ps : List Predicate) : Prop where
  coherent : ∀ s, F s → ∀ r ∈ items s, r.IsCoherent
  /-- A field without fan-out holds one item at most. -/
  scalar : ∀ s, F s → fansOut s.position = false → (items s).length ≤ 1
  exact : ∀ p ∈ ps, F p.subject → p.IsExact
  rivals : ∀ p ∈ ps, ∀ q ∈ ps, competes p q → F p.subject ∨ F q.subject →
    F p.subject ∧ F q.subject ∧ items p.subject = items q.subject ∧
      (p.any = q.any ∨ fansOut p.position = false)

theorem rivals_of_subject_eq (items : Subject → List Standing) (h : p.subject = q.subject)
    (hF : F p.subject ∨ F q.subject) :
    F p.subject ∧ F q.subject ∧ items p.subject = items q.subject ∧
      (p.any = q.any ∨ fansOut p.position = false) := by
  have hany : p.any = q.any := congrArg Subject.any h
  rw [← h, or_self] at hF
  exact ⟨hF, h ▸ hF, by rw [h], .inl hany⟩

/-- If the predicate is about one of the subjects, the items meet it. -/
def Predicate.Holds (F : Subject → Prop) (items : Subject → List Standing) (p : Predicate) :
    Prop :=
  F p.subject → p.IsMet (items p.subject)

/-- The items meet every predicate about the subjects. -/
def AllMet (F : Subject → Prop) (items : Subject → List Standing) (ps : List Predicate) : Prop :=
  ∀ p ∈ ps, p.Holds F items

/-- The items meet every predicate about the subjects that no other implies. -/
def OpenMet (F : Subject → Prop) (items : Subject → List Standing) (ps : List Predicate) : Prop :=
  ∀ p ∈ ps, p.status ≠ .implied → p.Holds F items

theorem Aligned.restates (h : Aligned fansOut F items ps)
    (hr : Forall₂ Predicate.Restates ps qs) : Aligned fansOut F items qs where
  coherent := h.coherent
  scalar := h.scalar
  exact q hq hF w hw := by
    obtain ⟨p, hp, hpq⟩ := exists_of_forall₂ hr hq
    exact h.exact p hp (hpq.subject_eq ▸ hF) w (hpq.value_eq ▸ hw)
  rivals q hq q' hq' hcomp hF := by
    obtain ⟨p, hp, hpq⟩ := exists_of_forall₂ hr hq
    obtain ⟨p', hp', hpq'⟩ := exists_of_forall₂ hr hq'
    rw [hpq.subject_eq, hpq'.subject_eq] at hF ⊢
    rw [hpq.eq, hpq'.eq]
    exact h.rivals p hp p' hp' (competes_of_restates hpq hpq' hcomp) hF

section
variable {a' b' : Predicate} (hal : Aligned fansOut F items ps) (ha : a ∈ ps) (hb : b ∈ ps)
include hal ha hb

/-- Predicates that compete, one of them about the subjects, are resolved as the items have it. -/
theorem Aligned.respects (hcomp : competes a b) (hF : F a.subject ∨ F b.subject) :
    F a.subject ∧ F b.subject ∧ items a.subject = items b.subject ∧
      (resolvePair a b (a.independent fansOut b)).Respects a b (items a.subject) := by
  obtain ⟨hFa, hFb, hsame, hany⟩ := hal.rivals a ha b hb hcomp hF
  exact ⟨hFa, hFb, hsame, respects_resolvePair hcomp hany (hal.coherent _ hFa)
    (hal.scalar _ hFa) (hal.exact a ha hFa) (hal.exact b hb hFb)⟩

/-- What held of a pair holds after it is settled. -/
theorem Aligned.holds_settle (h : settle fansOut a b = some (a', b'))
    (hma : a.Holds F items) (hmb : b.Holds F items) :
    a'.Holds F items ∧ b'.Holds F items := by
  obtain ⟨hra, hrb⟩ := settle_restates h
  rw [settle] at h
  split at h
  · next hcomp =>
    by_cases hF : F a.subject ∨ F b.subject
    · obtain ⟨hFa, hFb, hsame, hres⟩ := hal.respects ha hb hcomp hF
      have hmet := hres.isMet_apply h (hma hFa) (hsame ▸ hmb hFb)
      rw [Predicate.Holds, Predicate.Holds, hra.subject_eq, hrb.subject_eq, ← hsame]
      exact ⟨fun _ => hmet.1, fun _ => hmet.2⟩
    · rw [not_or] at hF
      exact ⟨fun h => absurd (hra.subject_eq ▸ h) hF.1, fun h => absurd (hrb.subject_eq ▸ h) hF.2⟩
  · cases h
    exact ⟨hma, hmb⟩

/-- What is not implied in a settled pair gives back the pair. -/
theorem Aligned.holds_of_settle (h : settle fansOut a b = some (a', b'))
    (hma : a'.status ≠ .implied → a'.Holds F items)
    (hmb : b'.status ≠ .implied → b'.Holds F items) :
    (a.status ≠ .implied → a.Holds F items) ∧ (b.status ≠ .implied → b.Holds F items) := by
  obtain ⟨hra, hrb⟩ := settle_restates h
  rw [settle] at h
  split at h
  · next hcomp =>
    by_cases hF : F a.subject ∨ F b.subject
    · obtain ⟨hFa, hFb, hsame, hres⟩ := hal.respects ha hb hcomp hF
      obtain ⟨hka, hkb, -⟩ := competes_iff.1 hcomp
      rw [Predicate.Holds, hra.subject_eq] at hma
      rw [Predicate.Holds, hrb.subject_eq, ← hsame] at hmb
      have hmet := hres.isMet_of_apply hka hkb h (fun hs => hma hs hFa) fun hs => hmb hs hFb
      exact ⟨fun _ _ => hmet.1, fun _ _ => hsame ▸ hmet.2⟩
    · rw [not_or] at hF
      exact ⟨fun _ h => absurd h hF.1, fun _ h => absurd h hF.2⟩
  · cases h
    exact ⟨hma, hmb⟩

end

/-- Settling a pair keeps all predicates met. -/
theorem Settles.allMet (h : Settles fansOut ps qs)
    (hal : Aligned fansOut F items ps) (hm : AllMet F items ps) : AllMet F items qs :=
  h.forall hm fun a ha b hb _ _ hs => hal.holds_settle ha hb hs (hm a ha) (hm b hb)

/-- What is not implied after a pair is settled gives back what was not implied before. -/
theorem Settles.openMet (h : Settles fansOut ps qs)
    (hal : Aligned fansOut F items ps) (hm : OpenMet F items qs) : OpenMet F items ps :=
  h.forall_before hm fun _ ha _ hb a' ha' b' hb' hs =>
    hal.holds_of_settle ha hb hs (hm a' ha') (hm b' hb')

section
variable (h : ReflTransGen (Settles fansOut) ps qs) (hal : Aligned fansOut F items ps)
include h hal

/-- A resolution keeps all predicates met. -/
theorem allMet_of_run (hm : AllMet F items ps) : AllMet F items qs := by
  induction h with
  | refl => exact hm
  | tail hrun hstep ih => exact hstep.allMet (hal.restates (restates_of_run hrun)) ih

/-- What a resolution leaves open gives back what it started from. -/
theorem openMet_of_run (hm : OpenMet F items qs) : OpenMet F items ps := by
  induction h with
  | refl => exact hm
  | tail hrun hstep ih => exact ih (hstep.openMet (hal.restates (restates_of_run hrun)) hm)

end

/-- Where predicates are found to contradict each other, those about one subject are not all met. -/
theorem exists_not_allMet (h : resolveConflicts fansOut ps = none) :
    ∃ p ∈ ps, ∀ F items, Aligned fansOut F items ps → F p.subject → ¬ AllMet F items ps := by
  obtain ⟨qs, hrun, a, ha, b, hb, hnone⟩ := resolveConflicts_clash h
  have hrestates := restates_of_run hrun
  obtain ⟨p, hp, hpa⟩ := exists_of_forall₂ hrestates ha
  refine ⟨p, hp, fun F items hal hF hm => ?_⟩
  have hm' := allMet_of_run hrun hal hm
  rw [settle] at hnone
  split at hnone
  · next hcomp =>
    obtain ⟨hFa, hFb, hsame, hres⟩ :=
      (hal.restates hrestates).respects ha hb hcomp (.inl (hpa.subject_eq ▸ hF))
    cases hr : resolvePair a b (a.independent fansOut b) with
    | contradiction =>
      rw [hr] at hres
      exact hres ⟨hm' a ha hFa, hsame ▸ hm' b hb hFb⟩
    | _ => rw [hr] at hnone; exact nomatch hnone
  · exact nomatch hnone

end

/-! ## Comparisons with integers -/

/-- The predicate compares what an index field holds, and all of it, with an integer. -/
structure Predicate.TestsInteger (p : Predicate) (any : Bool) : Prop where
  any_eq : p.any = any
  mapKey : p.mapKey = none
  widened : p.widened = false
  unnested : p.unnested = none
  value : ∃ w, p.value = some w ∧ w.toInt?.isSome

/-- Integers are in order to the predicates that compare them, all in one way. -/
theorem aligned_integers (hps : ∀ p ∈ ps, p.TestsInteger any) {F : Subject → Prop}
    (content : Nat → List Int)
    (hscalar : ∀ s, F s → fansOut s.position = false → (content s.position).length ≤ 1) :
    Aligned fansOut F (fun s => (content s.position).map .ofInt) ps where
  coherent s _ r hr := by
    obtain ⟨x, -, rfl⟩ := mem_map.1 hr
    exact Standing.isCoherent_ofInt x
  scalar s hF hf := by
    rw [length_map]
    exact hscalar s hF hf
  exact p hp _ w hw := by
    obtain ⟨w', hw', hint⟩ := (hps p hp).value
    cases Option.some.inj (hw'.symm.trans hw)
    exact Value.isExact_of_toInt? hint
  rivals p hp q hq hcomp := by
    obtain ⟨-, -, -, -, -, -, hpos, hkey⟩ := competes_iff.1 hcomp
    refine rivals_of_subject_eq (fun s => (content s.position).map .ofInt) ?_
    simp only [Predicate.subject, hpos, hkey, (hps p hp).widened, (hps q hq).widened,
      (hps p hp).any_eq, (hps q hq).any_eq, (hps p hp).unnested, (hps q hq).unnested]

/-! ## Constants on fields without fan-out -/

/-- No predicate is skipped, and each compares with a constant. -/
def Unskipped (ps : List Predicate) : Prop := ∀ p ∈ ps, p.status ≠ .skip ∧ p.value.isSome

theorem settle_unskipped (hf : fansOut a.position = false) (h : settle fansOut a b = some (a', b'))
    (ha : a.status ≠ .skip ∧ a.value.isSome) (hb : b.status ≠ .skip ∧ b.value.isSome) :
    (a'.status ≠ .skip ∧ a'.value.isSome) ∧ (b'.status ≠ .skip ∧ b'.value.isSome) := by
  obtain ⟨hra, hrb⟩ := settle_restates h
  rw [hra.value_eq, hrb.value_eq]
  rw [settle] at h
  split at h
  · next hcomp =>
    obtain ⟨-, -, hane, hbne, -⟩ := competes_iff.1 hcomp
    obtain ⟨x, hx⟩ := Option.isSome_iff_exists.1 ha.2
    obtain ⟨y, hy⟩ := Option.isSome_iff_exists.1 hb.2
    rw [show a.independent fansOut b = false by simp [Predicate.independent, hf]] at h
    simp only [resolvePair, hx, hy, Bool.false_eq_true, if_false] at h
    split at h
    · cases h
    · next o _ =>
      -- Any way in which an item can stand to the two constants will do.
      have hsound : (resolveConstants a.op b.op o).IsSound a.op b.op .eq o :=
        resolveConstants_isSound hane hbne rfl
      revert h hsound
      cases resolveConstants a.op b.op o with
      | both => rintro ⟨rfl, rfl⟩ -; exact ⟨ha, hb⟩
      | first s => rintro ⟨rfl, rfl⟩ ⟨rfl, -⟩; exact ⟨⟨by simp, ha.2⟩, hb⟩
      | second s => rintro ⟨rfl, rfl⟩ ⟨rfl, -⟩; exact ⟨ha, by simp, hb.2⟩
      | collapseFirst => rintro ⟨rfl, rfl⟩ -; exact ⟨ha, by simp, hb.2⟩
      | collapseSecond => rintro ⟨rfl, rfl⟩ -; exact ⟨⟨by simp, ha.2⟩, hb⟩
      | contradiction => exact fun h => nomatch h
  · cases h
    exact ⟨ha, hb⟩

/-- Among constants on fields without fan-out nothing is skipped: of two predicates that conflict,
one implies the other. -/
theorem unskipped_of_run (hf : ∀ pos, fansOut pos = false)
    (h : ReflTransGen (Settles fansOut) ps qs) (hps : Unskipped ps) : Unskipped qs := by
  induction h with
  | refl => exact hps
  | tail _ hstep ih =>
    exact hstep.forall ih fun a ha b hb _ _ hs =>
      settle_unskipped (hf a.position) hs (ih a ha) (ih b hb)

/-! ## Independent predicates -/

/-- Of two independent predicates one is implied or skipped, and the other stays as it is. -/
theorem resolvePair_independent (a b : Predicate) :
    resolvePair a b true = .second .implied ∨ resolvePair a b true = .second .skip ∨
      resolvePair a b true = .first .skip := by
  have hprefer : (preferEquality a b).getD (.second .skip) = .second .skip ∨
      (preferEquality a b).getD (.second .skip) = .first .skip := by
    unfold preferEquality
    split <;> simp
  unfold resolvePair
  split
  · simp only [if_true]
    split
    · exact .inl rfl
    · exact .inr hprefer
  · exact .inr hprefer

/-- The predicate may be satisfied by any item of a field with fan-out. -/
def Predicate.IsAnyOf (fansOut : Nat → Bool) (p : Predicate) : Prop :=
  p.any ∧ fansOut p.position

theorem Predicate.IsAnyOf.restates (h : p.IsAnyOf fansOut) (hpq : p.Restates q) :
    q.IsAnyOf fansOut := by
  rw [hpq.eq]
  exact h

/-- Settling independent predicates changes statuses only. Of two that compete one is kept, and
they do not compete any more. -/
theorem settle_independent (ha : a.IsAnyOf fansOut) (b : Predicate) :
    ∃ s s', settle fansOut a b = some ({ a with status := s }, { b with status := s' }) ∧
      (competes a b → (s = .keep ∧ s' ≠ .keep) ∨ (s ≠ .keep ∧ s' = .keep)) ∧
      (¬ competes a b → s = a.status ∧ s' = b.status) := by
  have hind : a.independent fansOut b = true := by simp [Predicate.independent, ha.1, ha.2]
  rw [settle, hind]
  by_cases hcomp : competes a b
  · obtain ⟨hka, hkb, -⟩ := competes_iff.1 hcomp
    rw [if_pos hcomp]
    rcases resolvePair_independent a b with h | h | h <;> rw [h]
    · exact ⟨a.status, .implied, rfl, fun _ => .inl ⟨hka, by simp⟩, fun h => absurd hcomp h⟩
    · exact ⟨a.status, .skip, rfl, fun _ => .inl ⟨hka, by simp⟩, fun h => absurd hcomp h⟩
    · exact ⟨.skip, b.status, rfl, fun _ => .inr ⟨by simp, hkb⟩, fun h => absurd hcomp h⟩
  · rw [if_neg hcomp]
    exact ⟨a.status, b.status, rfl, fun h => absurd h hcomp, fun _ => ⟨rfl, rfl⟩⟩

theorem anyOf_of_run (h : ReflTransGen (Settles fansOut) ps qs)
    (hps : ∀ p ∈ ps, p.IsAnyOf fansOut) : ∀ q ∈ qs, q.IsAnyOf fansOut := by
  intro q hq
  obtain ⟨p, hp, hpq⟩ := exists_of_forall₂ (restates_of_run h) hq
  exact (hps p hp).restates hpq

/-- Independent predicates do not contradict each other. -/
theorem resolveConflicts_ne_none (hps : ∀ p ∈ ps, p.IsAnyOf fansOut) :
    resolveConflicts fansOut ps ≠ none := by
  intro h
  obtain ⟨qs, hrun, a, ha, b, -, hnone⟩ := resolveConflicts_clash h
  obtain ⟨s, s', hs, -⟩ := settle_independent (anyOf_of_run hrun hps a ha) b
  exact nomatch hnone.symm.trans hs

/-- Settling independent predicates turns none of them into an equality. -/
theorem exists_of_independent_run
    (h : ReflTransGen (Settles fansOut) ps qs) (hps : ∀ p ∈ ps, p.IsAnyOf fansOut) :
    ∀ q ∈ qs, ∃ p ∈ ps, q = { p with status := q.status } := by
  induction h with
  | refl => exact fun q hq => ⟨q, hq, rfl⟩
  | tail hrun hstep ih =>
    refine hstep.forall ih fun a ha b hb _ _ hs => ?_
    obtain ⟨s, s', hs', -⟩ := settle_independent (anyOf_of_run hrun hps a ha) b
    cases hs.symm.trans hs'
    obtain ⟨p, hp, hpa⟩ := ih a ha
    obtain ⟨q, hq, hqb⟩ := ih b hb
    exact ⟨⟨p, hp, by rw [hpa]⟩, q, hq, by rw [hqb]⟩

theorem competes_symm (h : competes p q) : competes q p := by
  obtain ⟨hkp, hkq, hnp, hnq, hwp, hwq, hpos, hkey⟩ := competes_iff.1 h
  exact competes_iff.2 ⟨hkq, hkp, hnq, hnp, hwq, hwp, hpos.symm, hkey.symm⟩

/-- Independent predicates that were settled do not compete. -/
theorem settlesApart_independent :
    SettlesApart fansOut (·.IsAnyOf fansOut) fun p q => ¬ competes p q where
  symm h hcomp := h (competes_symm hcomp)
  pair {a b _ _} ha hb hs := by
    obtain ⟨hra, hrb⟩ := settle_restates hs
    refine ⟨⟨ha.restates hra, hb.restates hrb⟩, ?_, fun c h hc => ?_, fun c h hc => ?_⟩
    · obtain ⟨s, s', hs', hcomp, hno⟩ := settle_independent ha b
      cases hs.symm.trans hs'
      by_cases hc : competes a b
      · intro h
        obtain ⟨hk, hk', -⟩ := competes_iff.1 h
        rcases hcomp hc with ⟨-, hne⟩ | ⟨hne, -⟩
        · exact hne hk'
        · exact hne hk
      · obtain ⟨rfl, rfl⟩ := hno hc
        exact hc
    · exact h (competes_of_restates (.refl c) hra hc)
    · exact h (competes_of_restates (.refl c) hrb hc)

/-- After all conflicts between independent predicates are settled, no two compete. -/
theorem eq_of_competes (hps : ∀ p ∈ ps, p.IsAnyOf fansOut)
    (h : resolveConflicts fansOut ps = some qs) (hp : p ∈ qs) (hq : q ∈ qs)
    (hcomp : competes p q) : p = q := by
  by_contra hne
  have : Std.Symm fun p q : Predicate => ¬ competes p q := ⟨fun _ _ h hc => h (competes_symm hc)⟩
  exact (settlesApart_independent.pairwise hps h).forall hp hq hne hcomp

end ShardedQuery
