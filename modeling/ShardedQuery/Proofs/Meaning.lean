import ShardedQuery.Proofs.Access.Rewrite
import ShardedQuery.Proofs.Value.Exact

/-!
# What conditions and scans mean

A condition of a WHERE clause compares a path with a constant. All that the comparison needs to
know about an item of the path is how it stands to the constant, so an item is given by its
`Standing`: the order between the item and each constant that it can be compared with. Integers
stand to constants by `Standing.ofInt`, values by `Standing.ofValue`; both are coherent, which is
what the conflicts between comparisons are settled by.

`Graph.meets` evaluates a comparison, and `Graph.admits` what a scan asks of an index entry.
-/

namespace ShardedQuery

/-! ## Standings -/

/-- How an item stands to each constant, if the two can be compared. -/
abbrev Standing := Value → Option Ordering

namespace Standing

/-- The standing of an integer, whatever its width. -/
def ofInt (x : Int) : Standing := fun w => w.toInt?.map (compare x)

/-- The standing of a value. -/
def ofValue (v : Value) : Standing := v.compareAtomic

/-- The item stands to the constants as an item of a linear order does. -/
structure IsCoherent (r : Standing) : Prop where
  /-- Constants that can be compared stand to the item alike. -/
  chains : ∀ {w₁ w₂ o}, w₁.isExact → w₂.isExact → w₁.compareAtomic w₂ = some o →
    (r w₁ = none ∧ r w₂ = none) ∨ ∃ o₁ o₂, r w₁ = some o₁ ∧ r w₂ = some o₂ ∧ Chains o₁ o o₂
  /-- Constants that the item can be compared with can be compared with each other. -/
  comparable : ∀ {w₁ w₂ o₁ o₂}, w₁.isExact → w₂.isExact → r w₁ = some o₁ → r w₂ = some o₂ →
    ∃ o, w₁.compareAtomic w₂ = some o

/-- A standing that agrees with the order of a key on the exact values. -/
theorem isCoherent_of_key {r : Standing} {k : ExactKey}
    (hr : ∀ w j, w.exactKey? = some j → r w = k.compare? j) : r.IsCoherent := by
  constructor
  · intro w₁ w₂ o h₁ h₂ hw
    obtain ⟨j, hj⟩ := Option.isSome_iff_exists.1 h₁
    obtain ⟨l, hl⟩ := Option.isSome_iff_exists.1 h₂
    rw [Value.compareAtomic_eq hj hl] at hw
    have hjl := ExactKey.compare?_isSome_iff.1 (Option.isSome_iff_exists.2 ⟨o, hw⟩)
    rw [hr w₁ j hj, hr w₂ l hl]
    cases hkj : k.compare? j with
    | some o₁ =>
      obtain ⟨o₂, hkl, hchain⟩ := ExactKey.compare?_chains hkj hw
      exact .inr ⟨o₁, o₂, rfl, hkl, hchain⟩
    | none =>
      refine .inl ⟨rfl, ?_⟩
      rw [← Option.not_isSome_iff_eq_none, ExactKey.compare?_isSome_iff] at hkj ⊢
      exact hjl ▸ hkj
  · intro w₁ w₂ o₁ o₂ h₁ h₂ hr₁ hr₂
    obtain ⟨j, hj⟩ := Option.isSome_iff_exists.1 h₁
    obtain ⟨l, hl⟩ := Option.isSome_iff_exists.1 h₂
    rw [hr w₁ j hj] at hr₁
    rw [hr w₂ l hl] at hr₂
    have hkj := ExactKey.compare?_isSome_iff.1 (Option.isSome_iff_exists.2 ⟨o₁, hr₁⟩)
    have hkl := ExactKey.compare?_isSome_iff.1 (Option.isSome_iff_exists.2 ⟨o₂, hr₂⟩)
    rw [Value.compareAtomic_eq hj hl, ← Option.isSome_iff_exists, ExactKey.compare?_isSome_iff]
    exact hkj.symm.trans hkl

theorem isCoherent_ofInt (x : Int) : (ofInt x).IsCoherent := by
  refine isCoherent_of_key (k := .number x) ?_
  intro w j hj
  cases w <;> simp only [Value.exactKey?, reduceCtorEq, Option.some.injEq] at hj <;> subst hj <;>
    rfl

/-- Values other than doubles are coherent; those without an order stand to no constant. -/
theorem isCoherent_ofValue {v : Value} (hv : ∀ x, v ≠ .double x) : (ofValue v).IsCoherent := by
  cases hk : v.exactKey? with
  | some k => exact isCoherent_of_key fun w j hj => Value.compareAtomic_eq hk hj
  | none =>
    have hnone : ∀ w : Value, ofValue v w = none := by
      intro w
      cases v with
      | double x => exact absurd rfl (hv x)
      | null | jsonNull | array | map | empty => cases w <;> rfl
      | _ => cases hk
    exact ⟨fun _ _ _ => .inl ⟨hnone _, hnone _⟩, fun _ _ h => nomatch (hnone _).symm.trans h⟩

end Standing

/-! ## Comparisons -/

/-- Some item of a path stands to a constant as accepted; without `any`, the path has one item
only and this item does. -/
def compares (any : Bool) (accepts : Ordering → Bool) (items : List Standing) (w : Value) : Bool :=
  if any then items.any fun r => (r w).any accepts
  else
    match items with
    | [r] => (r w).any accepts
    | _ => false

/-- What a predicate is about: which items of which index field it looks at. -/
structure Subject where
  position : Nat
  mapKey : Option String
  any : Bool
  widened : Bool
  unnested : Option NodeId
  deriving DecidableEq

namespace Predicate

def subject (p : Predicate) : Subject := ⟨p.position, p.mapKey, p.any, p.widened, p.unnested⟩

/-- The items meet the predicate. A predicate whose operand is no constant asks nothing here. -/
def IsMet (p : Predicate) (items : List Standing) : Prop :=
  ∀ w, p.value = some w → compares p.any p.op.holds items w

/-- The constant of the predicate, if it has one, is compared without rounding. -/
def IsExact (p : Predicate) : Prop := ∀ w, p.value = some w → w.isExact

theorem isMet_iff {p : Predicate} {w : Value} (hw : p.value = some w) (items : List Standing) :
    p.IsMet items ↔ compares p.any p.op.holds items w := by
  refine ⟨fun h => h w hw, fun h v hv => ?_⟩
  cases Option.some.inj (hw.symm.trans hv)
  exact h

end Predicate

namespace Graph

/-- A comparison of a path with a constant is met, where `items` gives the items of each path. The
constant may be on either side. Nothing else is met. -/
def meets (g : Graph) (items : NodeId → List Standing) (c : NodeId) : Bool :=
  match g.expr c with
  | .call (.compare op any) [a, b] =>
    match g.expr a, g.expr b with
    | _, .literal w => compares any op.holds (items a) w
    | .literal w, _ => compares any (fun o => op.holds o.swap) (items b) w
    | _, _ => false
  | _ => false

/-- A comparison is met alike where it has the same operands with the same items. -/
theorem meets_congr {g h : Graph} {items items' : NodeId → List Standing} {c : NodeId}
    (hc : h.expr c = g.expr c)
    (hargs : ∀ a ∈ g.children c, h.expr a = g.expr a ∧ items' a = items a) :
    h.meets items' c = g.meets items c := by
  unfold children at hargs
  unfold meets
  rw [hc]
  split
  · next op any a b he =>
    obtain ⟨ha, hia⟩ := hargs a (by simp [he, Expr.children])
    obtain ⟨hb, hib⟩ := hargs b (by simp [he, Expr.children])
    rw [ha, hb, hia, hib]
  · rfl

/-- An item stands as accepted to the constant at a node. -/
def standsTo (g : Graph) (r : Standing) (accepts : Ordering → Bool) (id : NodeId) : Bool :=
  match g.expr id with
  | .literal w => (r w).any accepts
  | _ => false

/-- An index entry lies within the keys and the range of a scan, where `entry` gives the item at
each index position. -/
def admits (g : Graph) (scan : NodeId) (entry : Nat → Standing) : Bool :=
  (g.scan? scan).any fun s =>
    (s.keys.zipIdx.all fun (key, pos) => g.standsTo (entry pos) Comparison.eq.holds key)
      && s.range.all fun r =>
        (r.start.all (g.standsTo (entry r.position)
            (if r.startInclusive then Comparison.ge else Comparison.gt).holds))
          && r.stop.all (g.standsTo (entry r.position)
            (if r.stopInclusive then Comparison.le else Comparison.lt).holds)

end Graph

end ShardedQuery
