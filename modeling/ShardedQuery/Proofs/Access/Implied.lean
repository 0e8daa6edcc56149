import ShardedQuery.Proofs.Access.Conflicts

/-!
# Predicates that others imply

Where a field holds one item of a row, a predicate is given up as implied only if another one on the
field leaves no item that does not meet it: the order of the two constants decides
(`Predicate.Entails`). The other one may be given up later, but then for a third, and at the end of
the chain there is a predicate that is not given up (`allEntailed_of_run`).
-/

namespace ShardedQuery

open Relation

variable {fansOut : Nat → Bool} {o : Ordering} {p : Predicate} {r : Resolution}

/-- How an item stands to the first of two constants follows from how it stands to the second. -/
theorem Chains.symm {o₁ o₂ : Ordering} (h : Chains o₁ o o₂) : Chains o₂ o.swap o₁ := by
  cases o₁ <;> cases o <;> cases o₂ <;> trivial

theorem Chains.swap_left (o : Ordering) : Chains o.swap o .eq := by
  cases o <;> trivial

namespace Predicate

/-- Both predicates compare one field with constants, and whatever meets the first meets the second:
the item stands to the constants as `o₁` and `o₂`, and `o` is how these stand to each other. -/
def Entails (q p : Predicate) : Prop :=
  q.position = p.position ∧ ∃ x y o, q.value = some x ∧ p.value = some y ∧
    (x.compareAtomic y = some o ∨ y.compareAtomic x = some o.swap) ∧
    ∀ o₁ o₂, Chains o₁ o o₂ → q.op.holds o₁ → p.op.holds o₂

/-- What the predicate entails the other one entails, too. -/
def Refines (q p : Predicate) : Prop := ∀ r, p.Entails r → q.Entails r

theorem Refines.refl (p : Predicate) : p.Refines p := fun _ h => h

theorem refines_status (p : Predicate) (s : Status) : { p with status := s }.Refines p :=
  fun _ h => h

/-- An equality entails what an inclusive bound by the same constant entails. -/
theorem refines_collapsed (h : p.op.holds .eq) : { p with op := .eq }.Refines p := by
  rintro r ⟨hpos, x, y, o, hx, hy, ho, hall⟩
  refine ⟨hpos, x, y, o, hx, hy, ho, fun o₁ o₂ hchain heq => hall o₁ o₂ hchain ?_⟩
  cases eq_of_beq heq
  exact h

theorem Refines.transGen {q r : Predicate} (h : q.Refines p) (hr : TransGen Entails p r) :
    TransGen Entails q r := by
  obtain ⟨c, hc, hcr⟩ := TransGen.head'_iff.1 hr
  exact .head' (h c hc) hcr

end Predicate

/-! ## One pair -/

/-- What settling does to two predicates. Each entails what it entailed before, and one that is
newly implied is entailed by the other, which is not. -/
structure SettlesSoundly (a b a' b' : Predicate) : Prop where
  first : a'.Refines a
  second : b'.Refines b
  first_implied : a'.status = .implied → a' = a ∨ (b'.status ≠ .implied ∧ b'.Entails a')
  second_implied : b'.status = .implied → b' = b ∨ (a'.status ≠ .implied ∧ a'.Entails b')

section
variable {a b a' b' : Predicate}

theorem SettlesSoundly.of_not_implied (hr : r = .both ∨ r = .first .skip ∨ r = .second .skip)
    (h : r.apply a b = some (a', b')) : SettlesSoundly a b a' b' := by
  rcases hr with rfl | rfl | rfl <;> cases h
  · exact ⟨.refl a, .refl b, fun _ => .inl rfl, fun _ => .inl rfl⟩
  · exact ⟨a.refines_status _, .refl b, (nomatch ·), fun _ => .inl rfl⟩
  · exact ⟨.refl a, b.refines_status _, fun _ => .inl rfl, (nomatch ·)⟩

/-- Two predicates with constants. -/
theorem SettlesSoundly.of_constants {x y : Value} (hcomp : competes a b) (hx : a.value = some x)
    (hy : b.value = some y) (ho : x.compareAtomic y = some o)
    (h : (resolveConstants a.op b.op o).apply a b = some (a', b')) : SettlesSoundly a b a' b' := by
  obtain ⟨hka, hkb, hane, hbne, -, -, hpos, -⟩ := competes_iff.1 hcomp
  have hsound : ∀ o₁ o₂, Chains o₁ o o₂ →
      (resolveConstants a.op b.op o).IsSound a.op b.op o₁ o₂ :=
    fun _ _ => resolveConstants_isSound hane hbne
  generalize resolveConstants a.op b.op o = r at hsound h
  have hswap : x.compareAtomic y = some o.swap.swap := by rw [Ordering.swap_swap, ho]
  have hback {o₁ o₂ : Ordering} (hchain : Chains o₁ o.swap o₂) : Chains o₂ o o₁ := by
    simpa using hchain.symm
  cases r with
  | both => exact .of_not_implied (.inl rfl) h
  | contradiction => cases h
  | first s =>
    cases h
    refine ⟨a.refines_status s, .refl b, fun _ => .inr ⟨by simp [hkb], ?_⟩, fun _ => .inl rfl⟩
    exact ⟨hpos.symm, y, x, o.swap, hy, hx, .inr hswap, fun _ _ hchain =>
      (hsound _ _ (hback hchain)).2⟩
  | second s =>
    cases h
    refine ⟨.refl a, b.refines_status s, fun _ => .inl rfl, fun _ => .inr ⟨by simp [hka], ?_⟩⟩
    exact ⟨hpos, x, y, o, hx, hy, .inl ho, fun _ _ hchain => (hsound _ _ hchain).2⟩
  | collapseFirst =>
    cases h
    have heq := ((hsound .eq o rfl).2 rfl).1
    refine ⟨Predicate.refines_collapsed heq, b.refines_status _, fun hs => ?_,
      fun _ => .inr ⟨by simp [hka], ?_⟩⟩
    · simp [hka] at hs
    · exact ⟨hpos, x, y, o, hx, hy, .inl ho, fun _ _ hchain hmet =>
        ((hsound _ _ hchain).2 (eq_of_beq hmet)).2⟩
  | collapseSecond =>
    cases h
    have heq := ((hsound o.swap .eq (Chains.swap_left o)).2 rfl).2
    refine ⟨a.refines_status _, Predicate.refines_collapsed heq,
      fun _ => .inr ⟨by simp [hkb], ?_⟩, fun hs => ?_⟩
    · exact ⟨hpos.symm, y, x, o.swap, hy, hx, .inr hswap, fun _ _ hchain hmet =>
        ((hsound _ _ (hback hchain)).2 (eq_of_beq hmet)).1⟩
    · simp [hkb] at hs

theorem preferEquality_not_implied (a b : Predicate) (hr : r = .both ∨ r = .second .skip) :
    (preferEquality a b).getD r = .both ∨
      (preferEquality a b).getD r = .first .skip ∨ (preferEquality a b).getD r = .second .skip := by
  unfold preferEquality
  split
  · exact .inr (.inr rfl)
  · exact .inr (.inl rfl)
  · exact hr.elim .inl fun h => .inr (.inr h)

/-- A pair on a field with one item. -/
theorem settlesSoundly_of_settle (hfan : fansOut a.position = false)
    (h : settle fansOut a b = some (a', b')) : SettlesSoundly a b a' b' := by
  rw [settle] at h
  split at h
  · next hcomp =>
    rw [Predicate.independent, hfan, Bool.false_and, resolvePair] at h
    simp only [Bool.false_eq_true, if_false] at h
    split at h
    · next x y hx hy =>
      split at h
      · cases h
      · next o ho => exact .of_constants hcomp hx hy ho h
    · refine .of_not_implied (preferEquality_not_implied a b ?_) h
      split
      · exact .inr rfl
      · exact .inl rfl
  · cases h
    exact ⟨.refl a, .refl b, fun _ => .inl rfl, fun _ => .inl rfl⟩

end

/-! ## A whole run -/

/-- Every implied predicate follows, perhaps by way of other implied ones, from one that is not
implied. -/
def AllEntailed (ps : List Predicate) : Prop :=
  ∀ p ∈ ps, p.status = .implied →
    ∃ q ∈ ps, q.status ≠ .implied ∧ TransGen Predicate.Entails q p

section
variable {ps qs : List Predicate} (hfan : ∀ pos, fansOut pos = false)
include hfan

/-- Settling a pair keeps this up. -/
theorem Settles.allEntailed (h : Settles fansOut ps qs) (hps : AllEntailed ps) :
    AllEntailed qs := by
  obtain ⟨a, ha, b, hb, a', ha', b', hb', hsettle, hqs, hkept⟩ := h.exists_pair
  have hs := settlesSoundly_of_settle (hfan a.position) hsettle
  -- A predicate that is not implied is still there, or there is one now that entails it.
  have hfollows {q r : Predicate} (hq : q ∈ ps) (hqi : q.status ≠ .implied)
      (hr : TransGen Predicate.Entails q r) :
      ∃ q' ∈ qs, q'.status ≠ .implied ∧ TransGen Predicate.Entails q' r := by
    rcases hkept q hq with hq | rfl | rfl
    · exact ⟨q, hq, hqi, hr⟩
    · by_cases hi : a'.status = .implied
      · rcases hs.first_implied hi with heq | ⟨hbi, hent⟩
        · exact absurd (heq ▸ hi) hqi
        · exact ⟨b', hb', hbi, .head hent (hs.first.transGen hr)⟩
      · exact ⟨a', ha', hi, hs.first.transGen hr⟩
    · by_cases hi : b'.status = .implied
      · rcases hs.second_implied hi with heq | ⟨hai, hent⟩
        · exact absurd (heq ▸ hi) hqi
        · exact ⟨a', ha', hai, .head hent (hs.second.transGen hr)⟩
      · exact ⟨b', hb', hi, hs.second.transGen hr⟩
  have hold {p : Predicate} (hp : p ∈ ps) (hi : p.status = .implied) :
      ∃ q ∈ qs, q.status ≠ .implied ∧ TransGen Predicate.Entails q p := by
    obtain ⟨q, hq, hqi, hqp⟩ := hps p hp hi
    exact hfollows hq hqi hqp
  intro p hp hi
  rcases hqs p hp with hp | rfl | rfl
  · exact hold hp hi
  · rcases hs.first_implied hi with rfl | ⟨hbi, hent⟩
    · exact hold ha hi
    · exact ⟨b', hb', hbi, .single hent⟩
  · rcases hs.second_implied hi with rfl | ⟨hai, hent⟩
    · exact hold hb hi
    · exact ⟨a', ha', hai, .single hent⟩

/-- What settling conflicts gives up as implied follows from what it does not. -/
theorem allEntailed_of_run (h : ReflTransGen (Settles fansOut) ps qs)
    (hps : ∀ p ∈ ps, p.status = .keep) : AllEntailed qs := by
  induction h with
  | refl =>
    intro p hp hi
    cases (hps p hp).symm.trans hi
  | tail _ hstep ih => exact hstep.allEntailed hfan ih

end

end ShardedQuery
