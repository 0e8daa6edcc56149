import ShardedQuery.Proofs.ItemType.Subtype
import ShardedQuery.Proofs.Layout.Script

/-!
# Types of parts in another order

The type of a container is the union of the types of its parts, taken from the left, and so is the type
of a case expression. A union is not always the least type above its operands: the one of `integer` and
`string` is `anyAtomic`, though both are below `json`. It is, unless an upper bound ends in `json`
(`ItemType.IsUnion.le_or`), and so the order of parts that do not end in `json` does not show
(`types_reordered`).
-/

namespace ShardedQuery

open List

/-- A fold that starts with the first element does not depend on the order of the elements. -/
theorem foldl_head_perm {α : Type} {f : α → α → α} {x y : α} {xs ys : List α}
    (hcomm : ∀ a ∈ x :: xs, ∀ b ∈ x :: xs, f a b = f b a)
    (hright : ∀ a ∈ x :: xs, ∀ b ∈ x :: xs, ∀ z, f (f z a) b = f (f z b) a)
    (hperm : (x :: xs).Perm (y :: ys)) : xs.foldl f x = ys.foldl f y := by
  -- Nothing is there before the first element.
  let step (z : Option α) (a : α) : Option α := some (z.elim a (f · a))
  have hstart (z : α) (zs : List α) : zs.foldl step (some z) = some (zs.foldl f z) := by
    induction zs generalizing z with
    | nil => rfl
    | cons a zs ih => exact ih (f z a)
  have hfold := hperm.foldl_eq' (f := step) (fun a ha b hb z => ?_) none
  · exact Option.some.inj ((hstart x xs).symm.trans (hfold.trans (hstart y ys)))
  · cases z with
    | none => exact congrArg some (hcomm a ha b hb)
    | some z => exact congrArg some (hright a ha b hb z)

namespace ItemType

variable {a b c w x y z : ItemType}

/-- The type is `json`, inside of any number of containers. -/
def endsInJson : ItemType → Bool
  | json => true
  | array a => a.endsInJson
  | map a => a.endsInJson
  | _ => false

theorem ne_empty_of_not_le (h : ¬a ≤ b) : a ≠ empty :=
  fun he => h (he ▸ empty_le b)

theorem le_or_le_of_le_long (ha : a ≤ long) (hb : b ≤ long) : a ≤ b ∨ b ≤ a := by
  cases le_iff.1 ha with
  | refl => exact .inr hb
  | bottom => exact .inl (empty_le b)
  | widen =>
    cases le_iff.1 hb with
    | refl => exact .inl ha
    | bottom => exact .inr (empty_le _)
    | widen => exact .inl (le_refl _)

/-- A union is below every upper bound of its operands that does not end in `json`. -/
theorem IsUnion.le_or (h : IsUnion a b c) (ha : a ≤ w) (hb : b ≤ w) : c ≤ w ∨ w.endsInJson := by
  induction h generalizing w with
  | right => exact .inl hb
  | left => exact .inl ha
  | numbers hab hba hna hnb =>
    cases le_iff.1 ha with
    | refl => exact absurd hb hba
    | top => exact .inl (le_any _)
    | bottom | array | map => cases hna
    | atomic => exact .inl (le_iff.2 (.atomic rfl))
    | numeric => exact .inl (le_refl _)
    | widen => exact (le_or_le_of_le_long ha hb).elim (absurd · hab) (absurd · hba)
    | scalar => exact .inr rfl
  | @atoms a b hab hba haa _ hn =>
    have hnumeric (hw : w.isNumeric) : a.isNumeric ∧ b.isNumeric :=
      ⟨((le_iff.1 ha).isNumeric hw).resolve_left (ne_empty_of_not_le hab),
        ((le_iff.1 hb).isNumeric hw).resolve_left (ne_empty_of_not_le hba)⟩
    cases le_iff.1 ha with
    | refl => exact absurd hb hba
    | top => exact .inl (le_any _)
    | bottom | array | map => cases haa
    | atomic => exact .inl (le_refl _)
    | numeric | widen => exact absurd (hnumeric rfl) hn
    | scalar => exact .inr rfl
  | arrays _ ih =>
    obtain rfl | ⟨v, rfl, hv⟩ := array_le_iff.1 ha
    · exact .inl (le_any _)
    · exact (ih hv (array_le_array.1 hb)).imp array_le_array.2 id
  | maps _ ih =>
    obtain rfl | ⟨v, rfl, hv⟩ := map_le_iff.1 ha
    · exact .inl (le_any _)
    · exact (ih hv (map_le_map.1 hb)).imp map_le_map.2 id
  | @apart a b hab hba haa harrays hmaps =>
    have hatomic (hw : w.isAtomic) : a.isAtomic ∧ b.isAtomic :=
      ⟨((le_iff.1 ha).isAtomic hw).resolve_left (ne_empty_of_not_le hab),
        ((le_iff.1 hb).isAtomic hw).resolve_left (ne_empty_of_not_le hba)⟩
    cases le_iff.1 ha with
    | refl => exact absurd hb hba
    | top => exact .inl (le_refl _)
    | bottom => exact absurd (empty_le _) hab
    | atomic | numeric | widen => exact absurd (hatomic rfl) haa
    | scalar => exact .inr rfl
    | array =>
      obtain rfl | ⟨b, rfl, -⟩ := le_array_iff.1 hb
      · exact absurd (empty_le _) hba
      · exact absurd ⟨rfl, rfl⟩ harrays
    | map =>
      obtain rfl | ⟨b, rfl, -⟩ := le_map_iff.1 hb
      · exact absurd (empty_le _) hba
      · exact absurd ⟨rfl, rfl⟩ hmaps

theorem IsUnion.eq_or_of_endsInJson (h : IsUnion a b c) (hc : c.endsInJson) : c = a ∨ c = b := by
  induction h with
  | right => exact .inr rfl
  | left => exact .inl rfl
  | numbers | atoms | apart => cases hc
  | arrays _ ih | maps _ ih => exact (ih hc).imp (congrArg _) (congrArg _)

theorem union_eq_left_of_endsInJson (hx : x.endsInJson = false) (h : (union z x).endsInJson) :
    union z x = z := by
  refine ((isUnion_union z x).eq_or_of_endsInJson h).resolve_right fun heq => ?_
  rw [heq, hx] at h
  cases h

theorem union_right_comm_le (hx : x.endsInJson = false) (hy : y.endsInJson = false) :
    union (union z y) x ≤ union (union z x) y := by
  have hz : z ≤ union (union z x) y := le_trans (le_union_left z x) (le_union_left _ y)
  have hxle : x ≤ union (union z x) y := le_trans (le_union_right z x) (le_union_left _ y)
  have hyle : y ≤ union (union z x) y := le_union_right _ y
  by_cases hjson : (union (union z x) y).endsInJson
  · -- Then all three are below `z`.
    have htop := union_eq_left_of_endsInJson hy hjson
    rw [htop] at hjson
    rw [htop, union_eq_left_of_endsInJson hx hjson] at hxle hyle ⊢
    rw [union_eq_left hyle, union_eq_left hxle]
  · have hzy := ((isUnion_union z y).le_or hz hyle).resolve_right hjson
    exact ((isUnion_union _ x).le_or hzy hxle).resolve_right hjson

theorem union_right_comm (hx : x.endsInJson = false) (hy : y.endsInJson = false) :
    union (union z x) y = union (union z y) x :=
  le_antisymm (union_right_comm_le hy hx) (union_right_comm_le hx hy)

theorem unionAll_perm {fallback : ItemType} {ts us : List ItemType} (hperm : ts.Perm us)
    (hts : ∀ t ∈ ts, t.endsInJson = false) : unionAll fallback ts = unionAll fallback us := by
  cases ts with
  | nil => rw [hperm.nil_eq]
  | cons t ts =>
    cases us with
    | nil => cases hperm.eq_nil
    | cons u us =>
      exact foldl_head_perm (fun a _ b _ => union_comm a b)
        (fun a ha b hb z => union_right_comm (hts a ha) (hts b hb)) hperm

end ItemType

/-! ## Branches of a case expression -/

namespace Quantifier

theorem union_comm (p q : Quantifier) : p.union q = q.union p := by
  cases p <;> cases q <;> rfl

theorem union_left_comm (p q r : Quantifier) : p.union (q.union r) = q.union (p.union r) := by
  cases p <;> cases q <;> cases r <;> rfl

theorem optional_union (q : Quantifier) : optional.union (optional.union q) = optional.union q := by
  cases q <;> rfl

end Quantifier

namespace SeqType

/-- Types of branches, none of which ends in `json`. Those of empty sequences are equally frequent once
they are optional. -/
structure AreJoinable (ts : List SeqType) : Prop where
  items : ∀ t ∈ ts, t.item.endsInJson = false
  empties : ∀ a ∈ ts, ∀ b ∈ ts, a.isEmpty → b.isEmpty →
    a.quantifier.union .optional = b.quantifier.union .optional

variable {a b z : SeqType}

theorem isEmpty_iff : z.isEmpty ↔ z.item = .empty := decide_eq_true_iff

theorem item_union : (a.union b).item = a.item.union b.item := by
  unfold union
  split
  · next ha => rw [isEmpty_iff.1 ha, ItemType.union_eq_right (ItemType.empty_le _)]; rfl
  · split
    · next hb => rw [isEmpty_iff.1 hb, ItemType.union_eq_left (ItemType.empty_le _)]; rfl
    · rfl

theorem isEmpty_union : (a.union b).isEmpty ↔ a.isEmpty ∧ b.isEmpty := by
  rw [isEmpty_iff, isEmpty_iff, isEmpty_iff, item_union]
  refine ⟨fun h => ⟨?_, ?_⟩, fun ⟨ha, hb⟩ => by rw [ha, hb, ItemType.union_self]⟩
  · exact (ItemType.le_iff.1 (h ▸ ItemType.le_union_left a.item b.item)).eq_empty
  · exact (ItemType.le_iff.1 (h ▸ ItemType.le_union_right a.item b.item)).eq_empty

theorem quantifier_union : (a.union b).quantifier =
    if a.isEmpty then b.quantifier.union .optional
    else if b.isEmpty then a.quantifier.union .optional else a.quantifier.union b.quantifier := by
  unfold union
  split
  · rfl
  · split <;> rfl

section
variable (hempty : a.isEmpty → b.isEmpty →
  a.quantifier.union .optional = b.quantifier.union .optional)
include hempty

theorem union_comm : a.union b = b.union a := by
  refine congrArg₂ mk ?_ ?_
  · exact item_union.trans ((ItemType.union_comm _ _).trans item_union.symm)
  · have hquantifier : (a.union b).quantifier = (b.union a).quantifier := by
      simp only [quantifier_union]
      cases ha : a.isEmpty <;> cases hb : b.isEmpty <;> simp [Quantifier.union_comm]
      simpa [Quantifier.union_comm] using (hempty ha hb).symm
    exact hquantifier

theorem union_right_comm (ha : a.item.endsInJson = false) (hb : b.item.endsInJson = false) :
    (z.union a).union b = (z.union b).union a := by
  have hitem : ((z.union a).union b).item = ((z.union b).union a).item := by
    simp only [item_union, ItemType.union_right_comm ha hb]
  have hquantifier : ((z.union a).union b).quantifier = ((z.union b).union a).quantifier := by
    simp only [quantifier_union, isEmpty_union]
    cases z.isEmpty <;> cases hae : a.isEmpty <;> cases hbe : b.isEmpty <;>
      simp [Quantifier.union_left_comm, Quantifier.union_comm, Quantifier.optional_union]
    simpa [Quantifier.union_comm] using (hempty hae hbe).symm
  exact congrArg₂ mk hitem hquantifier

end

theorem AreJoinable.foldl_perm {t u : SeqType} {ts us : List SeqType} (h : AreJoinable (t :: ts))
    (hperm : (t :: ts).Perm (u :: us)) : ts.foldl union t = us.foldl union u :=
  foldl_head_perm (fun a ha b hb => union_comm (h.empties a ha b hb))
    (fun a ha b hb _ => union_right_comm (h.empties a ha b hb) (h.items a ha) (h.items b hb)) hperm

theorem AreJoinable.ofBranches_perm {results results' : List SeqType}
    {otherwise otherwise' : Option SeqType} (h : AreJoinable (results ++ otherwise.toList))
    (hsome : otherwise.isSome = otherwise'.isSome)
    (hperm : (results ++ otherwise.toList).Perm (results' ++ otherwise'.toList)) :
    ofBranches results otherwise = ofBranches results' otherwise' := by
  cases otherwise with
  | none =>
    obtain rfl : otherwise' = none := by simpa using hsome.symm
    rw [Option.toList_none, append_nil] at h hperm
    rw [append_nil] at hperm
    cases results with
    | nil => rw [hperm.nil_eq]
    | cons t ts =>
      cases results' with
      | nil => cases hperm.eq_nil
      | cons u us => exact congrArg (·.union .empty) (h.foldl_perm hperm)
  | some e =>
    obtain ⟨e', rfl⟩ := Option.isSome_iff_exists.1 hsome.symm
    have hlength : results.length = results'.length := by simpa using hperm.length_eq
    cases results with
    | nil =>
      obtain rfl : results' = [] := eq_nil_of_length_eq_zero hlength.symm
      rw [singleton_perm_singleton.1 hperm]
    | cons t ts =>
      cases results' with
      | nil => cases hlength
      | cons u us => simpa [ofBranches, foldl_append] using h.foldl_perm hperm

end SeqType

/-- The parts of an array, the arguments of a constructor and the branches of a case expression can
stand in any order, if no part has a type that ends in `json` and branches that are empty sequences are
equally frequent. -/
theorem types_reordered (g h : Graph) (t : NodeId → SeqType) (a b : NodeId) :
    (∀ items items' : List Value, items.Perm items' →
      (∀ v ∈ items, v.itemType.endsInJson = false) →
      (Value.array items).itemType = (Value.array items').itemType) ∧
    (∀ args args' c c', g.expr a = .array args c → h.expr b = .array args' c' → args.Perm args' →
      (∀ u ∈ args, (t u).item.endsInJson = false) → g.typeRule t a = h.typeRule t b) ∧
    (∀ args args', g.expr a = .map args → h.expr b = .map args' →
      (secondOfPairs args).Perm (secondOfPairs args') →
      (∀ u ∈ secondOfPairs args, (t u).item.endsInJson = false) →
      g.typeRule t a = h.typeRule t b) ∧
    ∀ branches branches' otherwise otherwise', g.expr a = .case branches otherwise →
      h.expr b = .case branches' otherwise' → otherwise.isSome = otherwise'.isSome →
      (branches.map (·.2) ++ otherwise.toList).Perm (branches'.map (·.2) ++ otherwise'.toList) →
      SeqType.AreJoinable ((branches.map (·.2) ++ otherwise.toList).map t) →
      g.typeRule t a = h.typeRule t b := by
  have hunion {us us' : List NodeId} (hperm : us.Perm us')
      (hus : ∀ u ∈ us, (t u).item.endsInJson = false) :
      ItemType.unionAll .any (us.map fun u => (t u).item) =
        .unionAll .any (us'.map fun u => (t u).item) :=
    ItemType.unionAll_perm (hperm.map _) (by simpa using hus)
  refine ⟨fun items items' hperm hitems => ?_, fun args args' c c' ha hb hperm hargs => ?_,
    fun args args' ha hb hperm hargs => ?_,
    fun branches branches' otherwise otherwise' ha hb hsome hperm hjoin => ?_⟩
  · simp only [Value.itemType, Value.itemTypes_eq_map]
    rw [ItemType.unionAll_perm (hperm.map Value.itemType) (by simpa using hitems)]
  · simp only [Graph.typeRule, ha, hb, hunion hperm hargs]
  · simp only [Graph.typeRule, ha, hb, hunion hperm hargs]
  · simp only [Graph.typeRule, ha, hb]
    have hmap (bs : List (NodeId × NodeId)) (o : Option NodeId) :
        (bs.map (·.2) ++ o.toList).map t = (bs.map fun b => t b.2) ++ (o.map t).toList := by
      cases o <;> simp
    have hperm' := hperm.map t
    rw [hmap, hmap] at hperm'
    rw [hmap] at hjoin
    exact hjoin.ofBranches_perm (by simpa using hsome) hperm'

/-- Constructors and case expressions over `1`, `"a"` and the JSON null, then case expressions over the
empty sequence and a slice of it and over `1`, `"a"` and the empty sequence, each in two orders. -/
def reorderedParts : Graph :=
  (Layout.script ⟨[]⟩
    [.value (.literal (.integer 1)), .value (.literal (.string "a")), .value (.literal .jsonNull),
      .value (.array [0, 1, 2] false), .value (.array [0, 2, 1] false),
      .value (.map [1, 0, 1, 1, 1, 2]), .value (.map [1, 0, 1, 2, 1, 1]),
      .value (.literal (.boolean true)),
      .value (.case [(7, 0), (7, 1)] (some 2)), .value (.case [(7, 0), (7, 2)] (some 1)),
      .value (.literal .empty), .pathStep (.slice 10 none none []),
      .value (.case [(7, 10)] (some 11)), .value (.case [(7, 11)] (some 10)),
      .value (.case [(7, 0), (7, 1)] (some 10)), .value (.case [(7, 10), (7, 0)] (some 1))]).graph

theorem types_reordered_numbers :
    (Value.array [.integer 1, .string "a", .double (.ofInt 2)]).itemType =
      (Value.array [.double (.ofInt 2), .integer 1, .string "a"]).itemType ∧
    SeqType.AreJoinable ([0, 1, 10].map reorderedParts.exprType) ∧
    reorderedParts.derivedType 14 = reorderedParts.derivedType 15 := by
  obtain ⟨harrays, -, -, hcases⟩ :=
    types_reordered reorderedParts reorderedParts reorderedParts.exprType 14 15
  have hjoin : SeqType.AreJoinable ([0, 1, 10].map reorderedParts.exprType) :=
    ⟨by decide +kernel, by decide +kernel⟩
  refine ⟨harrays _ _ ?_ (by decide +kernel), hjoin, hcases [(7, 0), (7, 1)] [(7, 10), (7, 0)]
    (some 10) (some 1) rfl rfl rfl (by decide) hjoin⟩
  exact perm_append_singleton _ [Value.integer 1, .string "a"]

/-- The type of `1`, `"a"` and the JSON null together depends on their order, and so does the number of
items of empty branches. -/
theorem types_reordered_ne :
    (¬∀ items items' : List Value, items.Perm items' →
      (Value.array items).itemType = (Value.array items').itemType) ∧
    [3, 4, 5, 6].map reorderedParts.derivedType =
      [.one (.array .any), .one (.array .json), .one (.map .any), .one (.map .json)] ∧
    [8, 9, 12, 13].map reorderedParts.derivedType =
      [.one .any, .one .json, .star .empty, .optional .empty] := by
  refine ⟨fun h => ?_, by decide +kernel, by decide +kernel⟩
  have hperm : [Value.integer 1, .string "a", .jsonNull].Perm [.integer 1, .jsonNull, .string "a"] :=
    .cons _ (.swap _ _ _)
  exact absurd (h _ _ hperm) (by decide +kernel)

end ShardedQuery
