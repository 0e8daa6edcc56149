import Mathlib.Order.Compare
import ShardedQuery.Proofs.Access.Choice
import ShardedQuery.Access.Selection

/-!
# The order of the analyses of a block

`Analysis.cmp` compares two analyses by the first criterion that applies to them. Two analyses that
are equally complete and equally covering are compared by `Analysis.rank`, a lexicographic order.
When one covers and the other does not, hints and the number of comparisons that bound the scan
decide instead.

The comparison is antisymmetric (`Analysis.cmp_swap`). It is transitive on a list of candidates
exactly if no candidate makes a detour (`Analysis.transitiveOn_iff`): `b` lies between `a` and `c`
only because its coverage differs from theirs, so that it is compared with them by another
criterion. A linear scan for the best candidate then finds one that no other beats
(`Analysis.not_beats_best`), and may miss it otherwise.
-/

namespace ShardedQuery

open List

variable {a first : Analysis} {g : Graph} {rest : List Analysis} {o : Options} {site : Site}
  {t : Table}

namespace Analysis

open Std

variable (preferred : AccessPath → Bool) {b c : Analysis}

/-! ## Two analyses -/

/-- A scan of the whole table. -/
def isFullScan (a : Analysis) : Bool := a.path.isPrimary && a.score == 0

/-- Lexicographic order by the score, and then by the ranks that decide between equal scores. -/
def rank : Analysis → Analysis → Ordering :=
  compareLex (compareOn score) <|
  compareLex (compareOn isFullScan) <|
  compareLex (compareOn fun a => preferred a.path) <|
  compareLex (compareOn fun a => !a.path.isMultiKey) <|
  fun a b => compareOn (fun x : Analysis => x.path.fields.length) b a

/-- Lexicographic order by hints and by the number of comparisons that bound the scan. This is
what an analysis that covers and one that does not are compared by. -/
def weight : Analysis → Analysis → Ordering :=
  compareLex (compareOn fun a => preferred a.path) (compareOn fun a => a.bounds.count)

instance : TransCmp (rank preferred) :=
  have : TransCmp fun a b => compareOn (fun x : Analysis => x.path.fields.length) b a :=
    TransCmp.opposite
  inferInstanceAs (TransCmp (compareLex _ _))

instance : TransCmp (weight preferred) := inferInstanceAs (TransCmp (compareLex _ _))

theorem cmp_of_isCompleteKey_ne (hkey : a.isCompleteKey ≠ b.isCompleteKey) :
    a.cmp preferred b = compare a.isCompleteKey b.isCompleteKey := by
  rw [cmp, if_pos (by simpa using hkey)]

section
variable (hkey : a.isCompleteKey = b.isCompleteKey)
include hkey

theorem cmp_of_covering_eq (hcov : a.covering = b.covering) :
    a.cmp preferred b = rank preferred a b := by
  by_cases hscore : a.score = b.score
  · simp [cmp, rank, tieBreak, isFullScan, compareLex, compareOn, hkey, hcov, hscore]
  · have hne : compare a.score b.score ≠ .eq := by simpa using hscore
    cases hcmp : compare a.score b.score <;>
      simp_all [cmp, rank, compareLex, compareOn]

theorem cmp_of_covering (ha : a.covering) (hb : b.covering = false) :
    a.cmp preferred b = if (weight preferred a b).isGE then .gt else .lt := by
  by_cases hhint : preferred a.path = preferred b.path
  · simp [cmp, weight, compareLex, compareOn, Nat.isGE_compare, *]
  · have hne : compare (preferred a.path) (preferred b.path) ≠ .eq := by simpa using hhint
    cases hcmp : compare (preferred a.path) (preferred b.path) <;>
      simp_all [cmp, weight, compareLex, compareOn]

/-- The analysis that does not cover wins by greater weight only. -/
theorem cmp_of_not_covering (ha : a.covering = false) (hb : b.covering) :
    a.cmp preferred b = if weight preferred a b = .gt then .gt else .lt := by
  by_cases hhint : preferred a.path = preferred b.path
  · rcases Nat.lt_or_ge b.bounds.count a.bounds.count with hlt | hge
    · simp [cmp, weight, compareLex, compareOn, Nat.compare_eq_gt.2 hlt, Nat.not_le.2 hlt, *]
    · have hne : compare a.bounds.count b.bounds.count ≠ .gt :=
        fun h => Nat.not_lt.2 hge (Nat.compare_eq_gt.1 h)
      simp [cmp, weight, compareLex, compareOn, *]
  · have hne : compare (preferred a.path) (preferred b.path) ≠ .eq := by simpa using hhint
    cases hcmp : compare (preferred a.path) (preferred b.path) <;>
      simp_all [cmp, weight, compareLex, compareOn]

end

/-- Comparing the other way round gives the opposite answer. -/
theorem cmp_swap (a b : Analysis) : a.cmp preferred b = (b.cmp preferred a).swap := by
  by_cases hkey : a.isCompleteKey = b.isCompleteKey
  · have hweight : weight preferred b a = (weight preferred a b).swap := OrientedCmp.eq_swap
    cases ha : a.covering <;> cases hb : b.covering
    case' false.false | true.true =>
      rw [cmp_of_covering_eq preferred hkey (ha.trans hb.symm),
        cmp_of_covering_eq preferred hkey.symm (hb.trans ha.symm)]
      exact OrientedCmp.eq_swap
    case false.true =>
      rw [cmp_of_not_covering preferred hkey ha hb, cmp_of_covering preferred hkey.symm hb ha,
        hweight]
      cases weight preferred a b <;> rfl
    case true.false =>
      rw [cmp_of_covering preferred hkey ha hb, cmp_of_not_covering preferred hkey.symm hb ha,
        hweight]
      cases weight preferred a b <;> rfl
  · rw [cmp_of_isCompleteKey_ne preferred hkey, cmp_of_isCompleteKey_ne preferred (Ne.symm hkey)]
    exact OrientedOrd.eq_swap

theorem isGE_iff_not_beats : (a.cmp preferred b).isGE ↔ b.cmp preferred a ≠ .gt := by
  rw [cmp_swap]
  cases b.cmp preferred a <;> simp

/-! ## Three analyses -/

/-- Among the candidates, one that is at least as good as a second, which is at least as good as a
third, is at least as good as the third. -/
def TransitiveOn (candidates : List Analysis) : Prop :=
  ∀ a ∈ candidates, ∀ b ∈ candidates, ∀ c ∈ candidates,
    (a.cmp preferred b).isGE → (b.cmp preferred c).isGE → (a.cmp preferred c).isGE

/-- `a` beats `b` and `b` beats `c`, but `a` does not beat `c`. Of equally complete analyses, `b`
alone covers, or alone does not: it is compared with both others by weight, and they are compared
with each other by rank. -/
structure IsDetour (a b c : Analysis) : Prop where
  key_left : a.isCompleteKey = b.isCompleteKey
  key_right : b.isCompleteKey = c.isCompleteKey
  covering_eq : a.covering = c.covering
  covering_ne : b.covering ≠ a.covering
  left : a.cmp preferred b = .gt
  right : b.cmp preferred c = .gt
  weight_gt : weight preferred a c = .gt
  rank_ne : rank preferred a c ≠ .gt

variable {preferred}

theorem cmp_ne_eq_of_covering_ne (hkey : a.isCompleteKey = b.isCompleteKey)
    (hcov : a.covering ≠ b.covering) : a.cmp preferred b ≠ .eq := by
  cases ha : a.covering <;> cases hb : b.covering <;> rw [ha, hb] at hcov
  case false.false | true.true => exact absurd rfl hcov
  case false.true => rw [cmp_of_not_covering preferred hkey ha hb]; split <;> simp
  case true.false => rw [cmp_of_covering preferred hkey ha hb]; split <;> simp

section
variable (hab : a.isCompleteKey = b.isCompleteKey) (hbc : b.isCompleteKey = c.isCompleteKey)
  (hac : a.covering = c.covering) (hcov : b.covering ≠ a.covering)
include hab hbc hac hcov

/-- What beats an analysis of the other coverage that beats a third has more weight than the
third. -/
theorem weight_of_beats (hleft : a.cmp preferred b = .gt)
    (hright : b.cmp preferred c = .gt) : weight preferred a c = .gt := by
  -- One of the two wins is by greater weight, and the other by no less.
  cases ha : a.covering
  case false =>
    have hb : b.covering := by simpa [ha] using hcov
    rw [cmp_of_not_covering preferred hab ha hb] at hleft
    rw [cmp_of_covering preferred hbc hb (hac ▸ ha)] at hright
    exact TransCmp.gt_of_gt_of_isGE (b := b) (by grind) (by grind)
  case true =>
    have hb : b.covering = false := by simpa [ha] using hcov
    rw [cmp_of_covering preferred hab ha hb] at hleft
    rw [cmp_of_not_covering preferred hbc hb (hac ▸ ha)] at hright
    exact TransCmp.gt_of_isGE_of_gt (b := b) (by grind) (by grind)

/-- Without a detour, what beats an analysis of the other coverage beats all that it beats. -/
theorem beats_of_not_isDetour (hdetour : ¬ IsDetour preferred a b c)
    (hleft : a.cmp preferred b = .gt) (hright : b.cmp preferred c = .gt) :
    a.cmp preferred c = .gt := by
  rw [cmp_of_covering_eq preferred (hab.trans hbc) hac]
  by_contra hrank
  exact hdetour ⟨hab, hbc, hac, hcov, hleft, hright,
    weight_of_beats hab hbc hac hcov hleft hright, hrank⟩

end

/-- A complete key is at least as good as what an incomplete one is. -/
theorem isGE_of_key_ne (hkey : ¬ (a.isCompleteKey = b.isCompleteKey ∧
      b.isCompleteKey = c.isCompleteKey))
    (hab : (a.cmp preferred b).isGE) (hbc : (b.cmp preferred c).isGE) :
    (a.cmp preferred c).isGE := by
  have hge {x y : Analysis} (h : (x.cmp preferred y).isGE) :
      x.isCompleteKey = y.isCompleteKey ∨ x.isCompleteKey ∧ y.isCompleteKey = false := by
    by_cases heq : x.isCompleteKey = y.isCompleteKey
    · exact .inl heq
    · rw [cmp_of_isCompleteKey_ne preferred heq] at h
      revert h heq
      cases x.isCompleteKey <;> cases y.isCompleteKey <;> decide
  have hac : a.isCompleteKey ∧ c.isCompleteKey = false := by
    have h1 := hge hab
    have h2 := hge hbc
    grind
  rw [cmp_of_isCompleteKey_ne preferred (by simp [hac]), hac.1, hac.2]
  rfl

/-- The comparison is transitive on candidates exactly if none of them makes a detour. -/
theorem transitiveOn_iff (candidates : List Analysis) :
    TransitiveOn preferred candidates ↔
      ∀ a ∈ candidates, ∀ b ∈ candidates, ∀ c ∈ candidates, ¬ IsDetour preferred a b c := by
  constructor
  · intro htrans a ha b hb c hc hdetour
    -- `c` is at least as good as `a`, which beats `b`; but `b` beats `c`.
    have hca : (c.cmp preferred a).isGE := by
      rw [isGE_iff_not_beats, cmp_of_covering_eq preferred
        (hdetour.key_left.trans hdetour.key_right) hdetour.covering_eq]
      exact hdetour.rank_ne
    have hcb := htrans c hc a ha b hb hca (by simp [hdetour.left])
    exact (isGE_iff_not_beats preferred).1 hcb hdetour.right
  · intro hnone a ha b hb c hc hab hbc
    by_cases hkey : a.isCompleteKey = b.isCompleteKey ∧ b.isCompleteKey = c.isCompleteKey
    case neg => exact isGE_of_key_ne hkey hab hbc
    obtain ⟨hkab, hkbc⟩ := hkey
    have hstrict {x y : Analysis} (hk : x.isCompleteKey = y.isCompleteKey)
        (hcov : x.covering ≠ y.covering) (h : (x.cmp preferred y).isGE) :
        x.cmp preferred y = .gt := by
      have hne : x.cmp preferred y ≠ .eq := cmp_ne_eq_of_covering_ne hk hcov
      cases hcmp : x.cmp preferred y <;> simp_all
    by_cases hcab : a.covering = b.covering
    · by_cases hcbc : b.covering = c.covering
      · rw [cmp_of_covering_eq preferred hkab hcab] at hab
        rw [cmp_of_covering_eq preferred hkbc hcbc] at hbc
        rw [cmp_of_covering_eq preferred (hkab.trans hkbc) (hcab.trans hcbc)]
        exact TransCmp.isGE_trans hab hbc
      · -- If `c` beat `a`, so would `b`, by way of `c`.
        rw [isGE_iff_not_beats]
        intro hca
        have hba := beats_of_not_isDetour hkbc (hkab.trans hkbc).symm hcab.symm (Ne.symm hcbc)
          (hnone b hb c hc a ha) (hstrict hkbc hcbc hbc) hca
        exact (isGE_iff_not_beats preferred).1 hab hba
    · by_cases hcbc : b.covering = c.covering
      · -- If `c` beat `a`, it would beat `b`, by way of `a`.
        rw [isGE_iff_not_beats]
        intro hca
        have hcb := beats_of_not_isDetour (hkab.trans hkbc).symm hkab hcbc.symm
          (fun h => hcab (h.trans hcbc.symm)) (hnone c hc a ha b hb) hca (hstrict hkab hcab hab)
        exact (isGE_iff_not_beats preferred).1 hbc hcb
      · have hcac : a.covering = c.covering := by
          rw [Bool.eq_not.2 hcab, Bool.eq_not.2 (Ne.symm hcbc)]
        rw [beats_of_not_isDetour hkab hkbc hcac (Ne.symm hcab) (hnone a ha b hb c hc)
          (hstrict hkab hcab hab) (hstrict hkbc hcbc hbc)]
        rfl

/-! ## The candidate that is kept -/

/-- What is left of two candidates after the second was compared with the first. -/
def winner (preferred : AccessPath → Bool) (first a : Analysis) : Analysis :=
  if a.cmp preferred first = .gt then a else first

theorem best_cons (first a : Analysis) (rest : List Analysis) :
    best preferred first (a :: rest) = best preferred (winner preferred first a) rest :=
  rfl

theorem winner_mem (first a : Analysis) (rest : List Analysis) :
    winner preferred first a ∈ first :: a :: rest := by
  unfold winner
  split <;> simp

theorem cmp_self (a : Analysis) : (a.cmp preferred a).isGE := by
  have := cmp_swap preferred a a
  cases h : a.cmp preferred a <;> simp_all

theorem winner_isGE (first a : Analysis) :
    ((winner preferred first a).cmp preferred first).isGE ∧
      ((winner preferred first a).cmp preferred a).isGE := by
  unfold winner
  split
  case isTrue hbeats => exact ⟨by simp [hbeats], cmp_self a⟩
  case isFalse hbeats => exact ⟨cmp_self first, (isGE_iff_not_beats preferred).2 hbeats⟩

/-- One of the candidates is kept. -/
theorem best_mem (first : Analysis) (rest : List Analysis) :
    best preferred first rest ∈ first :: rest := by
  induction rest generalizing first with
  | nil => simp [best]
  | cons a rest ih =>
    rw [best_cons]
    rcases mem_cons.1 (ih (winner preferred first a)) with hfirst | hrest
    · rw [hfirst]
      exact winner_mem first a rest
    · exact .tail _ (.tail _ hrest)

theorem TransitiveOn.mono {xs ys : List Analysis} (h : TransitiveOn preferred ys) (hsub : xs ⊆ ys) :
    TransitiveOn preferred xs :=
  fun a ha b hb c hc => h a (hsub ha) b (hsub hb) c (hsub hc)

/-- Where the comparison is transitive, the candidate that is kept is at least as good as each
other. -/
theorem best_isGE (htrans : TransitiveOn preferred (first :: rest)) :
    ∀ a ∈ first :: rest, ((best preferred first rest).cmp preferred a).isGE := by
  induction rest generalizing first with
  | nil =>
    intro a ha
    rw [mem_singleton.1 ha]
    exact cmp_self first
  | cons next rest ih =>
    have hwinner : winner preferred first next ∈ first :: next :: rest := winner_mem first next rest
    have hsub : winner preferred first next :: rest ⊆ first :: next :: rest := by
      intro x hx
      rcases mem_cons.1 hx with rfl | hx
      · exact hwinner
      · exact .tail _ (.tail _ hx)
    have hkept := ih (htrans.mono hsub)
    -- What the winner of the first two is no worse than, the one that is kept is no worse than.
    have hthrough {x : Analysis} (hx : x ∈ first :: next :: rest)
        (h : ((winner preferred first next).cmp preferred x).isGE) :
        ((best preferred first (next :: rest)).cmp preferred x).isGE :=
      htrans _ (best_mem first (next :: rest)) _ hwinner _ hx
        (hkept _ (.head _)) h
    intro a ha
    rcases mem_cons.1 ha with rfl | ha'
    · exact hthrough ha (winner_isGE a next).1
    · rcases mem_cons.1 ha' with rfl | hrest
      · exact hthrough ha (winner_isGE first a).2
      · exact hkept a (.tail _ hrest)

/-- Where the comparison is transitive, no candidate beats the one that is kept. -/
theorem not_beats_best (htrans : TransitiveOn preferred (first :: rest)) (ha : a ∈ first :: rest) :
    a.cmp preferred (best preferred first rest) ≠ .gt :=
  (isGE_iff_not_beats preferred).1 (best_isGE htrans a ha)

end Analysis

namespace Selection

/-- The access paths that hints prefer. -/
def prefers (hints : List Hint) (p : AccessPath) : Bool :=
  hints.any fun h => !h.isForce && hintNames h p

theorem analyseAll_cons {p : AccessPath} {ps : List AccessPath} {as : List Analysis}
    (h : analyseAll g t o site (p :: ps) = .ok (some (a :: as))) :
    Analysis.run g t o.weights site p = .ok (some a) ∧
      analyseAll g t o site ps = .ok (some as) := by
  unfold analyseAll at h
  cases hrun : Analysis.run g t o.weights site p with
  | error e => simp [hrun, bind, Except.bind] at h
  | ok found =>
    cases found with
    | none => simp [hrun, bind, Except.bind, pure, Except.pure] at h
    | some first =>
      cases hall : analyseAll g t o site ps with
      | error e => simp [hrun, hall, bind, Except.bind] at h
      | ok others =>
        cases others <;>
          simp_all [bind, Except.bind, pure, Except.pure]

theorem decideAccess_eq_best {scan : NodeId} {hints : List Hint} {primary : Analysis}
    {others : List Analysis} (hkey : primary.isCompleteKey = false)
    (hforce : hints.find? (·.isForce) = none) (hshard : primary.isCompleteShardKey t = false)
    (hall : analyseAll g t o site (t.indexes.map AccessPath.secondary) = .ok (some others)) :
    decideAccess g t o site scan hints primary none =
      .ok (.access t site scan (Analysis.best (prefers hints) primary others) .keep) := by
  simp only [decideAccess, hkey, hforce, hshard, hall, Bool.false_eq_true, if_false]
  rfl

/-- Where nothing but the comparison decides, one of the analyses of all access paths is kept. The
comparison is antisymmetric. It is transitive on these analyses exactly if they make no detour, and
then none of them beats the one that is kept; one that none beats draws with it. -/
theorem decideAccess_keeps_unbeaten {g : Graph} {t : Table} {o : Options} {site : Site}
    {scan : NodeId} {hints : List Hint} {primary : Analysis} {others : List Analysis}
    (hall : analyseAll g t o site (AccessPath.all t) = .ok (some (primary :: others)))
    (hkey : primary.isCompleteKey = false) (hforce : hints.find? (·.isForce) = none)
    (hshard : primary.isCompleteShardKey t = false) :
    (∀ a b : Analysis, a.cmp (prefers hints) b = (b.cmp (prefers hints) a).swap) ∧
    (Analysis.TransitiveOn (prefers hints) (primary :: others) ↔
      ∀ a ∈ primary :: others, ∀ b ∈ primary :: others, ∀ c ∈ primary :: others,
        ¬ Analysis.IsDetour (prefers hints) a b c) ∧
    ∃ kept ∈ primary :: others,
      decideAccess g t o site scan hints primary none = .ok (.access t site scan kept .keep) ∧
      (Analysis.TransitiveOn (prefers hints) (primary :: others) →
        ∀ a ∈ primary :: others, a.cmp (prefers hints) kept ≠ .gt ∧
          ((∀ b ∈ primary :: others, b.cmp (prefers hints) a ≠ .gt) →
            a.cmp (prefers hints) kept = .eq)) := by
  have hothers := (analyseAll_cons hall).2
  refine ⟨Analysis.cmp_swap _, Analysis.transitiveOn_iff _,
    Analysis.best (prefers hints) primary others, Analysis.best_mem primary others,
    decideAccess_eq_best hkey hforce hshard hothers, ?_⟩
  intro htrans a ha
  have hnot := Analysis.not_beats_best htrans ha
  refine ⟨hnot, fun hunbeaten => ?_⟩
  have hge := (Analysis.isGE_iff_not_beats (prefers hints)).2
    (hunbeaten (Analysis.best (prefers hints) primary others) (Analysis.best_mem primary others))
  cases hcmp : a.cmp (prefers hints) (Analysis.best (prefers hints) primary others) <;> simp_all

/-! ## Given tables -/

/-- A table of four integer columns. -/
def rankedTable (indexes : List Index) : Table :=
  idTable [("a", .integer), ("b", .integer), ("x", .integer)] indexes

/-- `SELECT id FROM t WHERE a = 1 AND b >= 2 AND b <= 5`. -/
def rankedSample : ScanBlock :=
  .over (rankedTable []).rowType ["id"] fun row g =>
    let tests : List (String × Comparison × Int32) := [("a", .eq, 1), ("b", .ge, 2), ("b", .le, 5)]
    tests.foldl (fun (cs, g) (name, op, i) =>
      let (column, g) := g.addField row name
      let (bound, g) := g.addLiteral (.integer i)
      let (c, g) := g.addCall (.compare op false) [column, bound]
      (cs ++ [c], g)) ([], g)

/-- There are analyses of all access paths, and they pass a test. -/
def allFoundWith (r : Except CompileError (Option (List Analysis)))
    (test : Analysis → List Analysis → Bool) : Bool :=
  match r with
  | .ok (some (primary :: others)) => test primary others
  | _ => false

theorem exists_of_allFoundWith (r : Except CompileError (Option (List Analysis)))
    (test : Analysis → List Analysis → Bool) (h : allFoundWith r test) :
    ∃ primary others, r = .ok (some (primary :: others)) ∧ test primary others := by
  unfold allFoundWith at h
  split at h
  · exact ⟨_, _, rfl, h⟩
  · cases h

/-- A table with two indexes that do not cover the block. Both are worth the same to it. -/
def plainTable : Table := rankedTable [integerIndex "u" ["a", "x"], integerIndex "w" ["b", "x"]]

theorem decideAccess_keeps_unbeaten_plain :
    ∃ primary others kept,
      analyseAll rankedSample.graph plainTable {} rankedSample.site (AccessPath.all plainTable) =
        .ok (some (primary :: others)) ∧
      primary.isCompleteKey = false ∧ primary.isCompleteShardKey plainTable = false ∧
      decideAccess rankedSample.graph plainTable {} rankedSample.site rankedSample.scan
        [.prefer (.index "w")] primary none =
        .ok (.access plainTable rankedSample.site rankedSample.scan kept .keep) ∧
      ∀ a ∈ primary :: others, a.cmp (prefers [.prefer (.index "w")]) kept ≠ .gt := by
  obtain ⟨primary, others, hall, htest⟩ := exists_of_allFoundWith
    (analyseAll rankedSample.graph plainTable {} rankedSample.site (AccessPath.all plainTable))
    (fun primary others => !primary.isCompleteKey && !primary.isCompleteShardKey plainTable
      && (primary :: others).all (!·.covering)) (by decide +kernel)
  simp only [Bool.and_eq_true, Bool.not_eq_true', all_eq_true] at htest
  obtain ⟨⟨hkey, hshard⟩, hcovering⟩ := htest
  have hforce : [Hint.prefer (.index "w")].find? (·.isForce) = none := rfl
  obtain ⟨-, htrans, kept, -, hkept, hunbeaten⟩ :=
    decideAccess_keeps_unbeaten hall hkey hforce hshard
  refine ⟨primary, others, kept, hall, hkey, hshard, hkept, fun a ha => ?_⟩
  refine (hunbeaten (htrans.2 fun a ha b hb c _ hdetour => ?_) a ha).1
  exact hdetour.covering_ne ((hcovering b hb).trans (hcovering a ha).symm)

/-- The same table with a third index, which covers the block. -/
def coveredTable : Table :=
  rankedTable (plainTable.indexes ++ [integerIndex "v" ["a", "x", "b"]])

/-- The third index beats the first, which draws with the second. But the second bounds the scan
at both ends and beats the third, which is kept. -/
theorem decideAccess_keeps_beaten :
    ∃ primary others kept better,
      analyseAll rankedSample.graph coveredTable {} rankedSample.site
        (AccessPath.all coveredTable) = .ok (some (primary :: others)) ∧
      decideAccess rankedSample.graph coveredTable {} rankedSample.site rankedSample.scan []
        primary none =
        .ok (.access coveredTable rankedSample.site rankedSample.scan kept .keep) ∧
      kept.path.name? = some "v" ∧ better ∈ others ∧ better.path.name? = some "w" ∧
      better.cmp (prefers []) kept = .gt := by
  obtain ⟨primary, others, hall, htest⟩ := exists_of_allFoundWith
    (analyseAll rankedSample.graph coveredTable {} rankedSample.site (AccessPath.all coveredTable))
    (fun primary others =>
      let kept := Analysis.best (prefers []) primary others
      !primary.isCompleteKey && !primary.isCompleteShardKey coveredTable
        && kept.path.name? = some "v"
        && others.any fun a => a.path.name? = some "w" ∧ a.cmp (prefers []) kept = .gt)
    (by decide +kernel)
  simp only [Bool.and_eq_true, Bool.not_eq_true', any_eq_true, decide_eq_true_eq] at htest
  obtain ⟨⟨⟨hkey, hshard⟩, hkept⟩, better, hmem, hname, hbeats⟩ := htest
  exact ⟨primary, others, _, better, hall,
    decideAccess_eq_best hkey rfl hshard (analyseAll_cons hall).2, hkept, hmem, hname, hbeats⟩

end Selection

end ShardedQuery
