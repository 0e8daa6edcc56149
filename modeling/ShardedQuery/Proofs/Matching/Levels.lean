import Mathlib.Data.List.Forall2
import Mathlib.Data.Multiset.ZeroCons
import ShardedQuery.Proofs.Graph.Dependence
import ShardedQuery.Proofs.Graph.Reach

/-!
# One level of matching

Most expressions match if they are of one form and their slots match one by one: `Expr.form` is an
expression with its slots emptied. Variables, constants and map constructors have rules of their
own, and blocks and scans match only themselves. `Graph.Matched` states these rules, and
`Graph.matched_of_matchExpr` says that matching keeps to them.

Matching goes down to a fixed depth. In a graph without cycles below a node this is deep enough, so
that matching is its own next level (`Graph.AcyclicBelow.alike_eq`).
-/

namespace ShardedQuery

open List

variable {as bs : List NodeId} {f : Expr}

/-! ## Forms -/

namespace Expr

/-- The expression without what is in its slots. The context variables of a path step and what a
boundary knows about merging are not part of its form. -/
def form : Expr → Expr
  | slice _ low high _ => slice 0 (low.map fun _ => 0) (high.map fun _ => 0) []
  | filter _ condition _ => filter 0 (condition.map fun _ => 0) []
  | mapFilter part _ condition _ => mapFilter part 0 (condition.map fun _ => 0) []
  | receive r => receive { input := 0, distribution := r.distribution }
  | e => e.mapChildren fun _ => 0

/-- The expression matches those of its form whose slots match. -/
def matchesByForm : Expr → Bool
  | block _ | scan _ | var _ | literal _ | map _ => false
  | _ => true

theorem matchesByForm_form (e : Expr) : e.form.matchesByForm = e.matchesByForm := by
  cases e <;> rfl

end Expr

namespace Graph

/-- Two entries of map constructors match, key with key and value with value. -/
def EntryMatched (same : NodeId → NodeId → Prop) (e f : NodeId × NodeId) : Prop :=
  same e.1 f.1 ∧ same e.2 f.2

/-- The entries of two map constructors can be paired: a rearrangement of the second ones matches
the first ones, position by position. -/
def Paired (same : NodeId → NodeId → Prop) (es fs : List (NodeId × NodeId)) : Prop :=
  ∃ fs', fs'.Perm fs ∧ Forall₂ (EntryMatched same) es fs'

/-- The rules by which two expressions match, where `same` tells which nodes in slots do. -/
inductive Matched (same : NodeId → NodeId → Prop) : Expr → Expr → Prop
  | var {v w : Variable} (h : matchVars v w) : Matched same (.var v) (.var w)
  | literal {v w : Value} (h : v == w) (htype : v.itemType = w.itemType) :
      Matched same (.literal v) (.literal w)
  | map {as bs : List NodeId} {es fs : List (NodeId × NodeId)} (has : entriesOf? as = some es)
      (hbs : entriesOf? bs = some fs) (h : Paired same es fs) : Matched same (.map as) (.map bs)
  | form {e f : Expr} (he : e.matchesByForm) (hform : e.form = f.form)
      (h : Forall₂ same e.children f.children) : Matched same e f

/-! ## Lists of slots -/

section
variable {same : NodeId → NodeId → Bool}

theorem matchAll_iff : matchAll same as bs ↔ Forall₂ (fun a b => same a b) as bs := by
  induction as generalizing bs with
  | nil => cases bs <;> simp [matchAll]
  | cons a as ih => cases bs <;> simp [matchAll, ih]

theorem forall₂_append_iff {R : NodeId → NodeId → Prop} {cs ds : List NodeId}
    (hlength : as.length = bs.length) :
    Forall₂ R (as ++ cs) (bs ++ ds) ↔ Forall₂ R as bs ∧ Forall₂ R cs ds := by
  refine ⟨fun h => ⟨?_, ?_⟩, fun h => rel_append h.1 h.2⟩
  · simpa [hlength] using forall₂_take_append _ _ _ h
  · simpa [hlength] using forall₂_drop_append _ _ _ h

/-! ## Entries -/

theorem takeFirst?_eq_some {α : Type} {p : α → Bool} {xs ys : List α}
    (h : takeFirst? p xs = some ys) : ∃ x, p x ∧ xs.Perm (x :: ys) := by
  induction xs generalizing ys with
  | nil => cases h
  | cons x xs ih =>
    rw [takeFirst?] at h
    split at h
    · next hx =>
      cases h
      exact ⟨x, hx, .refl _⟩
    · obtain ⟨zs, hzs, rfl⟩ := Option.map_eq_some_iff.1 h
      obtain ⟨y, hy, hperm⟩ := ih hzs
      exact ⟨y, hy, (hperm.cons x).trans (.swap y x zs)⟩

theorem takeFirst?_eq_none {α : Type} {p : α → Bool} {xs : List α} (h : takeFirst? p xs = none) :
    ∀ x ∈ xs, ¬ p x := by
  induction xs with
  | nil => simp
  | cons x xs ih =>
    rw [takeFirst?] at h
    split at h
    · cases h
    · next hx =>
      intro y hy
      rcases mem_cons.1 hy with rfl | hy
      · exact hx
      · exact ih (Option.map_eq_none_iff.1 h) y hy

/-- Entries that are paired one after the other can be paired. -/
theorem paired_of_matchEntries {es fs : List (NodeId × NodeId)} (h : matchEntries same es fs) :
    Paired (fun a b => same a b) es fs := by
  induction es generalizing fs with
  | nil =>
    obtain rfl : fs = [] := isEmpty_iff.1 h
    exact ⟨[], .nil, .nil⟩
  | cons e es ih =>
    obtain ⟨k, v⟩ := e
    rw [matchEntries] at h
    split at h
    · cases h
    · next rest hrest =>
      obtain ⟨f, hf, hperm⟩ := takeFirst?_eq_some hrest
      obtain ⟨fs', hfs', hall⟩ := ih h
      exact ⟨f :: fs', (hfs'.cons f).trans hperm.symm, .cons (Bool.and_eq_true_iff.1 hf) hall⟩

/-! ## One level -/

omit same in
theorem matchVars_iff {v w : Variable} :
    matchVars v w ↔ (v.kind.isContext ∧ v.kind = w.kind) ∨
      ∃ number s t, v.kind = .external number s ∧ w.kind = .external number t := by
  rw [matchVars, Bool.or_eq_true, Bool.and_eq_true, decide_eq_true_iff]
  refine or_congr_right ?_
  cases v.kind <;> cases w.kind <;> simp
  exact eq_comm

theorem length_flatMap_pair (bs : List (NodeId × NodeId)) :
    (bs.flatMap fun b => [b.1, b.2]).length = 2 * bs.length := by
  induction bs with
  | nil => rfl
  | cons b bs ih =>
    rw [flatMap_cons, length_append, ih]
    simp only [length_cons, length_nil]
    omega

/-- Expressions of one form match if their slots do. -/
theorem matchExpr_iff_form {e : Expr} (he : e.matchesByForm) :
    matchExpr same e f ↔
      e.form = f.form ∧ Forall₂ (fun a b => same a b) e.children f.children := by
  cases e with
  | block | scan | var | literal | map => cases he
  | field | cast | promote | receive =>
    cases f <;> simp [matchExpr, Expr.form, Expr.mapChildren, Expr.children]
  | slice a l h ctx =>
    cases f <;> simp [matchExpr, Expr.form, Expr.mapChildren, Expr.children]
    next b l' h' _ =>
      cases l <;> cases l' <;> cases h <;> cases h' <;> simp [matchOptional, and_assoc]
  | filter a c ctx =>
    cases f <;> simp [matchExpr, Expr.form, Expr.mapChildren, Expr.children]
    next b c' _ => cases c <;> cases c' <;> simp [matchOptional]
  | mapFilter part a c ctx =>
    cases f <;> simp [matchExpr, Expr.form, Expr.mapChildren, Expr.children]
    next part' b c' _ => cases c <;> cases c' <;> simp [matchOptional, and_assoc]
  | call | array =>
    cases f <;> simp [matchExpr, Expr.form, Expr.mapChildren, Expr.children, matchAll_iff]
    exact fun h _ => h.length_eq
  | case bs o =>
    cases f <;> simp [matchExpr, Expr.form, Expr.mapChildren, Expr.children, matchAll_iff]
    next bs' o' =>
      have hlength (h : bs.length = bs'.length) : (bs.flatMap fun b => [b.1, b.2]).length =
          (bs'.flatMap fun b => [b.1, b.2]).length := by
        rw [length_flatMap_pair, length_flatMap_pair, h]
      have hoption : matchOptional same o o' ↔ o.map (fun _ => 0) = o'.map (fun _ => 0) ∧
          Forall₂ (fun a b => same a b) o.toList o'.toList := by
        cases o <;> cases o' <;> simp [matchOptional]
      rw [hoption]
      constructor
      · rintro ⟨hbs, ho, hall⟩
        have heq := hbs.length_eq
        rw [length_flatMap_pair, length_flatMap_pair] at heq
        exact ⟨⟨by omega, ho⟩, rel_append hbs hall⟩
      · rintro ⟨⟨hbs, ho⟩, hall⟩
        rw [forall₂_append_iff (hlength hbs)] at hall
        exact ⟨hall.1, ho, hall.2⟩
  | isOfType a ts n =>
    cases f <;> simp [matchExpr, Expr.form, Expr.mapChildren, Expr.children]
    exact fun _ => and_comm

theorem matchExpr_map_iff :
    matchExpr same (.map as) f ↔ ∃ bs es fs, f = .map bs ∧ entriesOf? as = some es ∧
      entriesOf? bs = some fs ∧ matchEntries same es fs := by
  cases f <;> simp [matchExpr]
  next bs => cases entriesOf? as <;> cases entriesOf? bs <;> simp

theorem matched_of_matchExpr {e : Expr} (h : matchExpr same e f) :
    Matched (fun a b => same a b) e f := by
  by_cases he : e.matchesByForm
  · exact .form he ((matchExpr_iff_form he).1 h).1 ((matchExpr_iff_form he).1 h).2
  · cases e <;> simp [Expr.matchesByForm] at he
    case block | scan => cases f <;> cases h
    case var v =>
      cases f <;> simp [matchExpr] at h
      exact .var h
    case literal v =>
      cases f <;> simp [matchExpr] at h
      exact .literal h.1 h.2
    case map as =>
      obtain ⟨bs, es, fs, rfl, has, hbs, hentries⟩ := matchExpr_map_iff.1 h
      exact .map has hbs (paired_of_matchEntries hentries)

end

/-! ## All levels -/

section
variable {g : Graph} {n : Nat} {a : NodeId}

/-- Going deeper than there are nodes below changes nothing. -/
theorem matchWithin_of_fitsIn (h : g.FitsIn n a) (m : Nat) (hle : n ≤ m) (b : NodeId) :
    g.matchWithin m a b = g.matchWithin n a b := by
  induction n generalizing m a b with
  | zero => cases h
  | succ n ih =>
    obtain ⟨m, rfl⟩ := Nat.exists_eq_add_of_le' ((Nat.succ_pos n).trans_le hle)
    rw [matchWithin, matchWithin,
      matchExpr_congr fun c hc d _ =>
        ih (h c (operands_subset_children hc)) m (Nat.le_of_succ_le_succ hle) d]

/-- Two nodes are alike if they are one node, or their expressions match. -/
theorem AcyclicBelow.alike_eq (h : g.AcyclicBelow a) (b : NodeId) :
    g.alike a b = (a == b || matchExpr g.alike (g.expr a) (g.expr b)) := by
  have hfits := h.fitsIn_size
  rw [alike, matchWithin, matchExpr_congr fun c hc d _ => ?_]
  exact (matchWithin_of_fitsIn (hfits c (operands_subset_children hc)) (g.size + 1)
    (Nat.le_succ _) d).symm

theorem AcyclicBelow.matched (h : g.AcyclicBelow a) {b : NodeId} (halike : g.alike a b) :
    a = b ∨ Matched (fun c d => g.alike c d) (g.expr a) (g.expr b) := by
  rw [h.alike_eq, Bool.or_eq_true, beq_iff_eq] at halike
  exact halike.imp_right matched_of_matchExpr

end

end Graph

end ShardedQuery
