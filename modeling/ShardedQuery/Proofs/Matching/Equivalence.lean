import Mathlib.Algebra.Group.Nat.Even
import ShardedQuery.Proofs.Matching.Levels
import ShardedQuery.Proofs.Value.Plain

/-!
# Matching is an equivalence

In a graph whose constants hold no doubles, being alike is an equivalence of nodes, and two map
constructors are alike exactly if their entries can be paired (`Graph.alike_equivalence`).

The two facts depend on each other. The entries of the first constructor take the first free entries
of the second that match; that this search finds a pairing whenever there is one needs symmetry and
transitivity one level down (`Graph.matchEntries_iff`). So both are carried together from level to
level (`Graph.matchWithin_isPartial`).
-/

namespace ShardedQuery

open List

variable {es fs : List (NodeId × NodeId)} {R : NodeId → NodeId → Prop}

/-- The expression is no constant with doubles. -/
def Expr.isPlain : Expr → Bool
  | literal v => v.isPlain
  | _ => true

namespace Graph

/-! ## Relations between slots -/

/-- A relation that is symmetric and transitive. At depth zero nothing matches, not even a node
itself. -/
structure IsPartial {α : Type} (R : α → α → Prop) : Prop where
  symm : ∀ {a b}, R a b → R b a
  trans : ∀ {a b c}, R a b → R b c → R a c

section
variable {α : Type} {R : α → α → Prop} (hR : IsPartial R)
include hR

theorem IsPartial.forall₂ : IsPartial (Forall₂ R) where
  symm h := (h.imp fun _ _ hab => (hR.symm hab : flip R _ _)).flip
  trans {as bs cs} h := by
    induction h generalizing cs with
    | nil => exact fun h => h
    | cons hab _ ih =>
      intro h
      obtain ⟨c, cs', hbc, hrest, rfl⟩ := forall₂_cons_left_iff.1 h
      exact .cons (hR.trans hab hbc) (ih hrest)

/-- If two related elements are left out, the rest is still related: their partners were related to
each other. -/
theorem IsPartial.rel_of_cons {a b : α} {s t : Multiset α} (hab : R a b)
    (h : Multiset.Rel R (a ::ₘ s) (b ::ₘ t)) : Multiset.Rel R s t := by
  obtain ⟨b', t', hab', hst, heq⟩ := Multiset.rel_cons_left.1 h
  rcases Multiset.cons_eq_cons.1 heq with ⟨-, rfl⟩ | ⟨-, u, rfl, rfl⟩
  · exact hst
  · obtain ⟨a', s', hab'', hs', rfl⟩ := Multiset.rel_cons_right.1 hst
    exact .cons (hR.trans hab'' (hR.trans (hR.symm hab) hab')) hs'

end

theorem IsPartial.entries (hR : IsPartial R) : IsPartial (EntryMatched R) where
  symm h := ⟨hR.symm h.1, hR.symm h.2⟩
  trans h h' := ⟨hR.trans h.1 h'.1, hR.trans h.2 h'.2⟩

theorem paired_iff_rel :
    Paired R es fs ↔ Multiset.Rel (EntryMatched R) (es : Multiset (NodeId × NodeId)) fs := by
  constructor
  · rintro ⟨fs', hperm, hall⟩
    rw [← Multiset.coe_eq_coe.2 hperm]
    clear hperm
    induction hall with
    | nil => exact .zero
    | cons hef _ ih => exact .cons hef ih
  · intro h
    induction es generalizing fs with
    | nil =>
      obtain rfl : fs = [] := by simpa using h
      exact ⟨[], .nil, .nil⟩
    | cons e es ih =>
      rw [← Multiset.cons_coe] at h
      obtain ⟨f, t, hef, hrest, heq⟩ := Multiset.rel_cons_left.1 h
      induction t using Quotient.inductionOn with
      | h rest =>
        obtain ⟨fs', hperm, hall⟩ := ih hrest
        exact ⟨f :: fs', (hperm.cons f).trans (Multiset.coe_eq_coe.1 heq).symm, .cons hef hall⟩

theorem IsPartial.paired (hR : IsPartial R) : IsPartial (Paired R) where
  symm h := by
    rw [paired_iff_rel] at h ⊢
    exact Multiset.rel_flip.1 (h.mono fun _ _ _ _ hef => hR.entries.symm hef)
  trans h h' := by
    rw [paired_iff_rel] at h h' ⊢
    have : IsTrans (NodeId × NodeId) (EntryMatched R) := ⟨fun _ _ _ => hR.entries.trans⟩
    exact h.trans _ h'

/-! ## The search for a pairing -/

section
variable {same : NodeId → NodeId → Bool}

/-- The search finds a pairing if there is one. -/
theorem matchEntries_iff (hsame : IsPartial fun a b => same a b) :
    matchEntries same es fs ↔ Paired (fun a b => same a b) es fs := by
  refine ⟨paired_of_matchEntries, fun h => ?_⟩
  rw [paired_iff_rel] at h
  induction es generalizing fs with
  | nil =>
    obtain rfl : fs = [] := by simpa using h
    rfl
  | cons e es ih =>
    obtain ⟨k, v⟩ := e
    rw [← Multiset.cons_coe] at h
    rw [matchEntries]
    split
    · next hnone =>
      obtain ⟨f, hf, hef⟩ := Multiset.exists_mem_of_rel_of_mem h (Multiset.mem_cons_self _ _)
      exact absurd (Bool.and_eq_true_iff.2 hef) (takeFirst?_eq_none hnone f hf)
    · next rest hrest =>
      obtain ⟨f, hf, hperm⟩ := takeFirst?_eq_some hrest
      rw [Multiset.coe_eq_coe.2 hperm] at h
      exact ih (hsame.entries.rel_of_cons (Bool.and_eq_true_iff.1 hf) h)

theorem matchExpr_iff_matched (hsame : IsPartial fun a b => same a b) {e f : Expr} :
    matchExpr same e f ↔ Matched (fun a b => same a b) e f := by
  refine ⟨matched_of_matchExpr, fun h => ?_⟩
  cases h with
  | var h => exact h
  | literal h htype => simp [matchExpr, h, htype]
  | map has hbs h =>
    exact matchExpr_map_iff.2 ⟨_, _, _, rfl, has, hbs, (matchEntries_iff hsame).2 h⟩
  | form he hform h => exact (matchExpr_iff_form he).2 ⟨hform, h⟩

end

/-! ## One level -/

theorem matchVars_isPartial : IsPartial fun v w : Variable => matchVars v w where
  symm h := by
    rw [matchVars_iff] at h ⊢
    rcases h with ⟨hcontext, heq⟩ | ⟨number, s, t, hv, hw⟩
    · exact .inl ⟨heq ▸ hcontext, heq.symm⟩
    · exact .inr ⟨number, t, s, hw, hv⟩
  trans h h' := by
    rw [matchVars_iff] at h h' ⊢
    rcases h with ⟨hcontext, heq⟩ | ⟨number, s, t, hv, hw⟩
    · rcases h' with ⟨-, heq'⟩ | ⟨number, s, t, hw, -⟩
      · exact .inl ⟨hcontext, heq.trans heq'⟩
      · rw [heq, hw] at hcontext
        cases hcontext
    · rcases h' with ⟨hcontext, -⟩ | ⟨number', s', t', hw', hx⟩
      · rw [hw] at hcontext
        cases hcontext
      · rw [hw] at hw'
        cases hw'
        exact .inr ⟨number, s, t', hv, hx⟩

section
variable {e f k : Expr}

theorem Matched.symm (hR : IsPartial R) (he : e.isPlain) (hf : f.isPlain) (h : Matched R e f) :
    Matched R f e := by
  cases h with
  | var h => exact .var (matchVars_isPartial.symm h)
  | literal h htype =>
    rw [Value.beq_iff_widened he hf] at h
    exact .literal ((Value.beq_iff_widened hf he).2 h.symm) htype.symm
  | map has hbs h => exact .map hbs has (hR.paired.symm h)
  | form hby hform h =>
    refine .form ?_ hform.symm (hR.forall₂.symm h)
    rwa [← Expr.matchesByForm_form, ← hform, Expr.matchesByForm_form]

theorem Matched.trans (hR : IsPartial R) (he : e.isPlain) (hf : f.isPlain) (hk : k.isPlain)
    (h : Matched R e f) (h' : Matched R f k) : Matched R e k := by
  cases h with
  | var h =>
    cases h' with
    | var h' => exact .var (matchVars_isPartial.trans h h')
    | form hby => cases hby
  | literal h htype =>
    cases h' with
    | literal h' htype' =>
      rw [Value.beq_iff_widened he hf] at h
      rw [Value.beq_iff_widened hf hk] at h'
      exact .literal ((Value.beq_iff_widened he hk).2 (h.trans h')) (htype.trans htype')
    | form hby => cases hby
  | map has hbs h =>
    cases h' with
    | map hbs' hcs h' =>
      cases hbs.symm.trans hbs'
      exact .map has hcs (hR.paired.trans h h')
    | form hby => cases hby
  | form hby hform h =>
    have hby' : f.matchesByForm := by
      rwa [← Expr.matchesByForm_form, ← hform, Expr.matchesByForm_form]
    cases h' with
    | var | literal | map => cases hby'
    | form _ hform' h' => exact .form hby (hform.trans hform') (hR.forall₂.trans h h')

end

/-! ## All levels -/

/-- The constants of the graph hold no doubles. -/
def HasPlainConstants (g : Graph) : Prop := ∀ id, (g.expr id).isPlain

section
variable {g : Graph}

theorem hasPlainConstants_of_lt (h : ∀ id < g.size, (g.expr id).isPlain) : g.HasPlainConstants := by
  intro id
  rcases Nat.lt_or_ge id g.size with hlt | hge
  · exact h id hlt
  · rw [expr, node_of_size_le hge]
    rfl

/-- Matching down to a fixed depth is symmetric and transitive. -/
theorem matchWithin_isPartial (hg : g.HasPlainConstants) (n : Nat) :
    IsPartial fun a b => g.matchWithin n a b := by
  induction n with
  | zero => exact ⟨(by cases ·), fun h _ => by cases h⟩
  | succ n ih =>
    have hstep (a b : NodeId) : g.matchWithin (n + 1) a b ↔
        a = b ∨ Matched (fun a b => g.matchWithin n a b) (g.expr a) (g.expr b) := by
      rw [matchWithin, Bool.or_eq_true, beq_iff_eq, matchExpr_iff_matched ih]
    refine ⟨fun {a b} h => ?_, fun {a b c} h h' => ?_⟩
    · rw [hstep] at h ⊢
      exact h.imp Eq.symm (Matched.symm ih (hg a) (hg b))
    · rw [hstep] at h h' ⊢
      rcases h with rfl | h
      · exact h'
      · rcases h' with rfl | h'
        · exact .inr h
        · exact .inr (h.trans ih (hg a) (hg b) (hg c) h')

theorem alike_isPartial (hg : g.HasPlainConstants) : IsPartial fun a b => g.alike a b :=
  matchWithin_isPartial hg _

end

/-! ## The main statement -/

theorem entriesOf?_flatMap (es : List (NodeId × NodeId)) :
    entriesOf? (es.flatMap fun e => [e.1, e.2]) = some es := by
  induction es with
  | nil => rfl
  | cons e es ih =>
    rw [flatMap_cons, cons_append, cons_append, nil_append, entriesOf?, ih]
    rfl

theorem exists_entries : ∀ {as : List NodeId}, Even as.length →
    ∃ es : List (NodeId × NodeId), (es.flatMap fun e => [e.1, e.2]) = as
  | [], _ => ⟨[], rfl⟩
  | [_], h => by simp at h
  | k :: v :: rest, h => by
    have hrest : Even rest.length := by simpa [Nat.even_add_one] using h
    obtain ⟨es, rfl⟩ := exists_entries hrest
    exact ⟨(k, v) :: es, rfl⟩

/-- Being alike is an equivalence of the nodes of a graph whose constants hold no doubles. If the
graph has no cycles, two map constructors that are different nodes, each with entries of a key and a
value, are alike exactly if their entries can be paired. -/
theorem alike_equivalence {g : Graph} (hacyclic : ∀ v, g.AcyclicBelow v)
    (hplain : g.HasPlainConstants) :
    (Equivalence fun a b => g.alike a b) ∧
    ∀ a b as bs, a ≠ b → g.expr a = .map as → g.expr b = .map bs →
      Even as.length → Even bs.length →
      ∃ es fs : List (NodeId × NodeId), (es.flatMap fun e => [e.1, e.2]) = as ∧
        (fs.flatMap fun f => [f.1, f.2]) = bs ∧
        (g.alike a b ↔ Paired (fun a b => g.alike a b) es fs) := by
  have hpartial := alike_isPartial hplain
  refine ⟨⟨alike_self g, hpartial.symm, hpartial.trans⟩, fun a b as bs hne ha hb has hbs => ?_⟩
  obtain ⟨es, rfl⟩ := exists_entries has
  obtain ⟨fs, rfl⟩ := exists_entries hbs
  refine ⟨es, fs, rfl, rfl, ?_⟩
  rw [(hacyclic a).alike_eq b, ha, hb, Bool.or_eq_true, beq_iff_eq, or_iff_right hne,
    matchExpr_map_iff, ← matchEntries_iff hpartial]
  constructor
  · rintro ⟨_, _, _, hbs', hes, hfs, h⟩
    cases hbs'
    rw [entriesOf?_flatMap] at hes hfs
    cases hes
    cases hfs
    exact h
  · exact fun h => ⟨_, _, _, rfl, entriesOf?_flatMap es, entriesOf?_flatMap fs, h⟩

/-- Two map constructors with the same three entries, two of them alike, in different order, and a
third one that has the values of the first under other keys. -/
def shuffledMaps : Graph :=
  let (a, g) := ({} : Graph).addLiteral (.string "a")
  let (x, g) := g.addLiteral (.integer 1)
  let (b, g) := g.addLiteral (.string "b")
  let (y, g) := g.addLiteral (.integer 2)
  let (a', g) := g.addLiteral (.string "a")
  let (x', g) := g.addLiteral (.integer 1)
  let (_, g) := g.add (.map [a, x, b, y, a', x])
  let (_, g) := g.add (.map [a', x', a, x, b, y])
  (g.add (.map [a, y, b, x, a', x])).2

/-- The constructors with the same entries are alike, and their entries are paired. -/
theorem alike_equivalence_shuffledMaps :
    (∀ v, shuffledMaps.AcyclicBelow v) ∧ shuffledMaps.HasPlainConstants ∧
    shuffledMaps.alike 7 6 ∧ ¬ shuffledMaps.alike 6 8 ∧
    ∃ es fs : List (NodeId × NodeId), (es.flatMap fun e => [e.1, e.2]) = [0, 1, 2, 3, 4, 1] ∧
      (fs.flatMap fun f => [f.1, f.2]) = [4, 5, 0, 1, 2, 3] ∧
      Paired (fun a b => shuffledMaps.alike a b) es fs := by
  have hacyclic := acyclicBelow_of_lt (g := shuffledMaps) (by decide +kernel)
  have hplain : shuffledMaps.HasPlainConstants := hasPlainConstants_of_lt (by decide +kernel)
  have halike : shuffledMaps.alike 6 7 := by decide +kernel
  obtain ⟨hequivalence, hmaps⟩ := alike_equivalence hacyclic hplain
  obtain ⟨es, fs, hes, hfs, hiff⟩ := hmaps 6 7 _ _ (by decide) rfl rfl (by decide) (by decide)
  exact ⟨hacyclic, hplain, hequivalence.symm halike, by decide +kernel, es, fs, hes, hfs,
    hiff.1 halike⟩

end Graph

end ShardedQuery
