import ShardedQuery.Proofs.Access.CompleteKey
import ShardedQuery.Proofs.ItemType.Subtype

/-!
# Comparisons that can never succeed

Operands whose types are not comparable are never found in any order: a comparison relates atomic
values of one kind only (`Value.comparable_of_compareAtomic`), and what is above the type of such a
value is a wildcard or of its kind (`ItemType.comparable_of_isSubtypeOf`). So a block with such a
comparison among its conjuncts selects no row, and nothing is lost when it becomes empty
(`accepts_eq_false_of_hasMismatch`).
-/

namespace ShardedQuery

open List

variable {g : Graph} {w : Value} {a b t u : ItemType}

namespace ItemType

/-! ## Types -/

theorem comparable_of_isWildcard (h : a.isWildcard ∨ b.isWildcard) : comparable a b := by
  unfold comparable
  rw [if_pos (by simpa using h)]

theorem comparable_of_isNumeric (ha : a.isNumeric) (hb : b.isNumeric) : comparable a b := by
  unfold comparable
  simp [ha, hb]

theorem comparable_symm (h : comparable a b) : comparable b a := by
  fun_induction comparable a b with
  | case1 a b hw => exact comparable_of_isWildcard (by simpa [or_comm] using hw)
  | case2 a b _ he => unfold comparable; simp [he.symm]
  | case3 a b _ _ hn =>
    rw [Bool.and_eq_true] at hn
    exact comparable_of_isNumeric hn.2 hn.1
  | case4 | case5 | case6 | case7 => rfl
  | case8 a b _ _ _ ih | case9 a b _ _ _ ih =>
    unfold comparable
    simp [isWildcard, isNumeric, ih h]
  | case10 => unfold comparable; simp
  | case11 => cases h

theorem comparable_comm (a b : ItemType) : comparable a b = comparable b a :=
  Bool.eq_iff_iff.2 ⟨comparable_symm, comparable_symm⟩

/-- Above an atomic type are the wildcards and itself, and for numbers other numbers. -/
theorem above_of_isAtomic (ht : t.isAtomic) (h : t.isSubtypeOf u) :
    u.isWildcard ∨ u = t ∨ (t.isNumeric ∧ u.isNumeric) := by
  fun_induction isSubtypeOf t u with
  | case1 t u htop =>
    obtain rfl | rfl | rfl := htop
    · exact .inr (.inl rfl)
    · exact .inl rfl
    · cases ht
  | case2 | case5 => exact .inl rfl
  | case3 t => exact .inr (.inr ⟨h, rfl⟩)
  | case4 t => exact .inr (.inr ⟨of_decide_eq_true h ▸ rfl, rfl⟩)
  | case6 | case7 => cases ht
  | case8 => cases h

/-- An atomic type is comparable with numbers if it is a wildcard or a type of numbers. -/
theorem isNumeric_of_comparable (ht : t.isAtomic) (hu : u.isNumeric)
    (h : comparable t u) : t.isWildcard ∨ t.isNumeric := by
  cases t with
  | anyAtomic => exact .inl rfl
  | integer | long | double | number => exact .inr rfl
  | boolean | string | timestamp | binary =>
    cases u with
    | integer | long | double | number => cases h
    | _ => cases hu
  | _ => cases ht

/-- Types above comparable atomic types are comparable. This is not so for other types: the empty
sequence is below all types and comparable with all of them. -/
theorem comparable_of_isSubtypeOf {t' u' : ItemType} (ht : t.isAtomic) (hu : u.isAtomic)
    (h : comparable t u) (htt' : t.isSubtypeOf t') (huu' : u.isSubtypeOf u') :
    comparable t' u' := by
  obtain hw | rfl | ⟨hnt, hnt'⟩ := above_of_isAtomic ht htt'
  · exact comparable_of_isWildcard (.inl hw)
  · obtain hw | rfl | ⟨hnu, hnu'⟩ := above_of_isAtomic hu huu'
    · exact comparable_of_isWildcard (.inr hw)
    · exact h
    · obtain hw | hnt := isNumeric_of_comparable ht hnu h
      · exact comparable_of_isWildcard (.inl hw)
      · exact comparable_of_isNumeric hnt hnu'
  · obtain hw | rfl | ⟨_, hnu'⟩ := above_of_isAtomic hu huu'
    · exact comparable_of_isWildcard (.inr hw)
    · obtain hw | hnu := isNumeric_of_comparable hu hnt (comparable_symm h)
      · exact comparable_of_isWildcard (.inr hw)
      · exact comparable_of_isNumeric hnt' hnu
    · exact comparable_of_isNumeric hnt' hnu'

end ItemType

/-! ## Values -/

/-- Values that a comparison finds in order are atomic, and their types are comparable. -/
theorem Value.comparable_of_compareAtomic {v : Value} {o : Ordering}
    (h : v.compareAtomic w = some o) :
    v.itemType.isAtomic ∧ w.itemType.isAtomic ∧ v.itemType.comparable w.itemType := by
  cases v with
  | boolean =>
    cases w with
    | boolean => exact ⟨rfl, rfl, rfl⟩
    | _ => cases h
  | integer | long | double =>
    cases w with
    | integer | long | double => exact ⟨rfl, rfl, rfl⟩
    | _ => cases h
  | string =>
    cases w with
    | string => exact ⟨rfl, rfl, rfl⟩
    | _ => cases h
  | timestamp =>
    cases w with
    | timestamp => exact ⟨rfl, rfl, rfl⟩
    | _ => cases h
  | binary =>
    cases w with
    | binary => exact ⟨rfl, rfl, rfl⟩
    | _ => cases h
  | null | jsonNull | array | map | empty => cases w <;> cases h

theorem Value.compareAtomic_eq_none {v : Value} (h : t.comparable u = false)
    (hv : v.itemType.isSubtypeOf t) (hw : w.itemType.isSubtypeOf u) : v.compareAtomic w = none := by
  cases ho : v.compareAtomic w with
  | none => rfl
  | some o =>
    obtain ⟨hva, hwa, hvw⟩ := comparable_of_compareAtomic ho
    rw [ItemType.comparable_of_isSubtypeOf hva hwa hvw hv hw] at h
    cases h

/-! ## Blocks -/

/-- A comparison accepts the items of its operands, one of the items on the right in the place of the
constant. Without `any`, there is one such item only. -/
def Comparison.accepts (op : Comparison) (any : Bool) (vs ws : List Value) : Bool :=
  if any then ws.any (compares true op.holds (vs.map Standing.ofValue))
  else
    match ws with
    | [w] => compares false op.holds (vs.map Standing.ofValue) w
    | _ => false

theorem compares_eq_false (any : Bool) (accepts : Ordering → Bool) {items : List Standing}
    (h : ∀ r ∈ items, r w = none) : compares any accepts items w = false := by
  unfold compares
  split
  · rw [any_eq_false]
    intro r hr
    rw [h r hr]
    exact Bool.false_ne_true
  · split
    · next r =>
      rw [h r mem_cons_self]
      rfl
    · rfl

theorem Comparison.accepts_eq_false (op : Comparison) (any : Bool) {vs ws : List Value}
    (h : ∀ v ∈ vs, ∀ w ∈ ws, v.compareAtomic w = none) : op.accepts any vs ws = false := by
  have hnone (w : Value) (hw : w ∈ ws) (any : Bool) :
      compares any op.holds (vs.map Standing.ofValue) w = false := by
    refine compares_eq_false any op.holds fun r hr => ?_
    obtain ⟨v, hv, rfl⟩ := mem_map.1 hr
    exact h v hv w hw
  unfold accepts
  split
  · rw [any_eq_false]
    exact fun w hw => Bool.not_eq_true _ ▸ hnone w hw true
  · split
    · next w => exact hnone w (.head _) false
    · rfl

/-- The items are of the type of a node. -/
def Graph.MayYield (g : Graph) (id : NodeId) (vs : List Value) : Prop :=
  ∀ v ∈ vs, v.itemType.isSubtypeOf (g.exprType id).item

theorem operandTypes?_eq_some {rowVar l r : NodeId} (h : operandTypes? g rowVar l r = some (t, u)) :
    t = (g.exprType l).item ∧ u = (g.exprType r).item := by
  unfold operandTypes? at h
  split at h
  · cases h
    exact ⟨rfl, rfl⟩
  · cases h

/-- A mismatch is in a comparison between nodes whose types are not comparable, on whichever side the
path is. -/
theorem exists_of_mismatch? {rowVar c : NodeId} {types : ItemType × ItemType}
    (h : mismatch? g rowVar c = some types) :
    ∃ op any l r, g.expr c = .call (.compare op any) [l, r] ∧
      (g.exprType l).item.comparable (g.exprType r).item = false := by
  unfold mismatch? at h
  split at h
  · next op any l r he =>
    refine ⟨op, any, l, r, he, ?_⟩
    split at h
    · next t u htypes =>
      split at h
      · cases h
      · next hcomp =>
        rw [Bool.not_eq_true] at hcomp
        obtain hlr | ⟨_, hrl⟩ := Option.or_eq_some_iff.1 htypes
        · obtain ⟨rfl, rfl⟩ := operandTypes?_eq_some hlr
          exact hcomp
        · obtain ⟨rfl, rfl⟩ := operandTypes?_eq_some hrl
          rw [ItemType.comparable_comm, hcomp]
    · cases h
  · cases h

theorem exists_of_hasMismatch {site : Site} (h : hasMismatch g site false = .ok true) :
    ∃ c ∈ g.conjuncts site.block, ∃ types, mismatch? g site.rowVar c = some types := by
  simp only [hasMismatch] at h
  split at h
  · cases h
  · next c t u hfound =>
    obtain ⟨c', hc', hmap⟩ := exists_of_findSome?_eq_some hfound
    obtain ⟨types, htypes, -⟩ := Option.map_eq_some_iff.1 hmap
    exact ⟨c', hc', types, htypes⟩

/-- Items of types that are not comparable are never found in order, and comparability does not look
at the order of its operands. So a block that becomes empty for the types of a comparison had a
conjunct that accepts no items of these types, hence no row. -/
theorem accepts_eq_false_of_hasMismatch :
    (∀ t u : ItemType, t.comparable u = u.comparable t) ∧
    (∀ {t u : ItemType} {v w : Value}, t.comparable u = false →
      v.itemType.isSubtypeOf t → w.itemType.isSubtypeOf u → v.compareAtomic w = none) ∧
    ∀ {g : Graph} {site : Site}, hasMismatch g site false = .ok true →
      ∃ c ∈ g.conjuncts site.block, ∃ op any l r, g.expr c = .call (.compare op any) [l, r] ∧
        ∀ vs ws, g.MayYield l vs → g.MayYield r ws → op.accepts any vs ws = false := by
  refine ⟨ItemType.comparable_comm, Value.compareAtomic_eq_none, fun {g site} h => ?_⟩
  obtain ⟨c, hc, types, hmis⟩ := exists_of_hasMismatch h
  obtain ⟨op, any, l, r, he, hcomp⟩ := exists_of_mismatch? hmis
  refine ⟨c, hc, op, any, l, r, he, fun vs ws hvs hws => ?_⟩
  exact op.accepts_eq_false any fun v hv w hw =>
    Value.compareAtomic_eq_none hcomp (hvs v hv) (hws w hw)

/-- `a = 1 AND "x" <any b`, where `b` is an integer. -/
def mismatchedGraph : Graph :=
  (Layout.script ⟨[pairTable]⟩
    [.draft, .scanTable "t" "t" [], .value (.field 1 "a"), .value (.field 1 "b"),
      .value (.literal (.integer 1)), .value (.literal (.string "x")),
      .value (.call (.compare .eq false) [2, 4]), .value (.call (.compare .lt true) [5, 3]),
      .restrict 6, .restrict 7, .build]).graph

theorem accepts_eq_false_of_hasMismatch_text :
    (hasMismatch mismatchedGraph ⟨9, 1⟩ false = .ok true ∧
      ((Selection.decide mismatchedGraph ⟨[pairTable]⟩ { strict := false } 9).toOption.any
        fun s => s matches .empty)) ∧
    (∃ c ∈ mismatchedGraph.conjuncts 9, ∃ op any l r,
      mismatchedGraph.expr c = .call (.compare op any) [l, r] ∧
        ∀ vs ws, mismatchedGraph.MayYield l vs → mismatchedGraph.MayYield r ws →
          op.accepts any vs ws = false) ∧
    ItemType.comparable (.array .number) (.map .json) = false ∧
    (Value.array [.integer 1, .double (.ofInt 2)]).compareAtomic (.map [("k", .jsonNull)]) = none := by
  obtain ⟨-, hvalues, hblocks⟩ := accepts_eq_false_of_hasMismatch
  have hmis : hasMismatch mismatchedGraph ⟨9, 1⟩ false = .ok true := by rfl
  refine ⟨⟨hmis, by decide +kernel⟩, hblocks hmis, rfl, ?_⟩
  exact hvalues (t := .array .number) (u := .map .json) rfl (by decide +kernel) (by decide +kernel)

end ShardedQuery
