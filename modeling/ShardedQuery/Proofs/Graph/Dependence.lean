import Mathlib.Data.Finset.Card
import ShardedQuery.Graph.Matching
import ShardedQuery.Proofs.Graph.Links

/-!
# What a node depends on

The typing rule of a node looks at the types of the nodes in `Graph.reads`. A graph is `Ordered` by
a rank if every node has a greater rank than the nodes it uses: its children, the variables it
declares, and the node a variable takes its type from. The slots of a scan do not count: a filter
that was handed to a scan mentions the variable over that scan.

In an ordered graph the number of levels that `typeWithin` and `matchWithin` look down does not
matter, once it is the number of nodes. So `exprType` is the one solution of the typing rules that
agrees with the kept types (`exprType_eq`, `exprType_unique`). For this it is enough that the nodes
are `Ranked` by what they read.
-/

namespace ShardedQuery.Graph

open List

variable {a b u v : NodeId} {g h : Graph} {t t' : NodeId → SeqType} {rank rank' : NodeId → Nat}
  {A : NodeId → Prop} {e : Expr} {same same' : NodeId → NodeId → Bool}

/-! ## The nodes a typing rule looks at -/

/-- The nodes whose types the typing rule of a node looks at. -/
def reads (g : Graph) (id : NodeId) : List NodeId :=
  match g.expr id with
  | .block b => if b.star then b.firstVar?.toList else b.select.map (·.expr)
  | .scan _ => []
  | .var _ => (g.varSource? id).toList
  | e => e.children

theorem mem_reads_of_varSource? (hu : g.varSource? v = some u) : u ∈ g.reads v := by
  have hsource := hu
  unfold varSource? at hu
  split at hu
  · cases hu
  · next x hx => simp [reads, var?_eq_some.1 hx, hsource]

theorem mem_secondOfPairs {α : Type} {x : α} {xs : List α} (h : x ∈ secondOfPairs xs) : x ∈ xs := by
  fun_induction secondOfPairs xs with
  | case1 k v rest ih =>
    rcases mem_cons.1 h with rfl | h
    · simp
    · exact .tail _ (.tail _ (ih h))
  | case2 => cases h

/-- The nodes whose types decide the type of a node. Of the nodes that it reads these are all, unless
its type is the same whatever stands in its slots. -/
def typeInputs (g : Graph) (id : NodeId) : List NodeId :=
  match g.expr id with
  | .block b => if b.star then b.firstVar?.toList else b.select.map (·.expr)
  | .var _ => (g.varSource? id).toList
  | .field input _ | .slice input _ _ _ | .filter input _ _ | .mapFilter .values input _ _ => [input]
  | .call f args => if f.isBoolean then [] else args
  | .case branches otherwise => branches.map (·.2) ++ otherwise.toList
  | .receive r => [r.input]
  | .array args _ => args
  | .map args => secondOfPairs args
  | _ => []

theorem typeInputs_subset_reads (h : u ∈ g.typeInputs v) : u ∈ g.reads v := by
  unfold typeInputs at h
  unfold reads
  split at h
  case h_12 => cases h
  case h_1 he | h_2 he | h_10 he =>
    rw [he]
    exact h
  case h_3 he | h_4 he | h_5 he | h_6 he | h_9 he =>
    rw [he, mem_singleton.1 h]
    exact mem_cons_self
  case h_7 he =>
    rw [he]
    split at h
    · cases h
    · exact h
  case h_8 he =>
    rw [he]
    simp only [Expr.children, mem_append, mem_map, mem_flatMap] at h ⊢
    obtain ⟨b, hb, rfl⟩ | h := h
    · exact .inl ⟨b, hb, by simp⟩
    · exact .inr h
  case h_11 he =>
    rw [he]
    exact mem_secondOfPairs h

/-- The typing rule of a node looks at nothing but the nodes that decide it. -/
theorem typeRule_congr_typeInputs {id : NodeId} (h : ∀ u ∈ g.typeInputs id, t u = t' u) :
    g.typeRule t id = g.typeRule t' id := by
  unfold typeRule
  unfold typeInputs at h
  split
  case h_1 b hb =>
    simp only [hb] at h
    split
    · next hstar =>
      cases hfirst : b.firstVar? with
      | none => rfl
      | some v => simp only [Option.map_some, h v (by simp [hstar, hfirst])]
    · next hstar =>
      rw [if_neg hstar] at h
      congr 2
      exact map_congr_left fun f hf => by rw [h _ (mem_map_of_mem hf)]
  case h_3 v hv =>
    simp only [hv] at h
    rw [Option.map_congr fun u hu => h u (by simp [Option.mem_def.1 hu])]
  case h_4 input _ he | h_5 input _ _ _ he | h_6 input _ _ he | h_8 input _ _ he | h_15 he =>
    simp only [he] at h
    rw [h _ (mem_singleton_self _)]
  case h_9 f args he =>
    simp only [he] at h
    split
    · rfl
    · next hf =>
      rw [if_neg hf] at h
      rw [map_congr_left h]
  case h_11 branches otherwise he =>
    simp only [he, mem_append, mem_map, Option.mem_toList] at h
    have helse : otherwise.map t = otherwise.map t' := Option.map_congr fun e he => h e (.inr he)
    rw [helse, map_congr_left fun b hb => h b.2 (.inl ⟨b, hb, rfl⟩)]
  case h_16 args _ he | h_17 args he =>
    simp only [he] at h
    congr 3
    exact map_congr_left fun a ha => by rw [h a ha]
  all_goals rfl

/-- The typing rule of a node looks at nothing but the nodes it reads. -/
theorem typeRule_congr {id : NodeId} (h : ∀ u ∈ g.reads id, t u = t' u) :
    g.typeRule t id = g.typeRule t' id :=
  typeRule_congr_typeInputs fun u hu => h u (typeInputs_subset_reads hu)

/-! ## Nodes with the same rule -/

/-- The node has the same typing rule in the two graphs. -/
structure SameRule (g h : Graph) (v : NodeId) : Prop where
  typeRule_eq : ∀ t, h.typeRule t v = g.typeRule t v
  reads_eq : h.reads v = g.reads v

theorem SameRule.trans {k : Graph} (h₁ : SameRule g h v) (h₂ : SameRule h k v) : SameRule g k v :=
  ⟨fun t => (h₂.typeRule_eq t).trans (h₁.typeRule_eq t), h₂.reads_eq.trans h₁.reads_eq⟩

/-- The rule is that of the expression, and for a variable of the node it takes its type from. -/
theorem SameRule.of_expr_eq (hexpr : h.expr v = g.expr v)
    (hsource : (g.expr v).isVar → h.varSource? v = g.varSource? v) : SameRule g h v := by
  cases he : g.expr v with
  | var x =>
    have hsource := hsource (by rw [he]; rfl)
    refine ⟨fun t => ?_, by simp only [reads, hexpr, he, hsource]⟩
    have hh : h.expr v = .var x := hexpr.trans he
    simp only [typeRule, he, hh, hsource]
  | mapFilter part =>
    cases part <;>
      exact ⟨fun t => by simp only [typeRule, hexpr, he], by simp only [reads, hexpr, he]⟩
  | _ => exact ⟨fun t => by simp only [typeRule, hexpr, he], by simp only [reads, hexpr, he]⟩

/-- Only the select list counts for the type of a block, or the first variable. -/
theorem SameRule.of_block {b b' : Block} (hg : g.block? v = some b) (hh : h.block? v = some b')
    (hstar : b'.star = b.star) (hselect : b'.select = b.select)
    (hfirst : b.star → b'.firstVar? = b.firstVar?) : SameRule g h v := by
  have hg := block?_eq_some.1 hg
  have hh := block?_eq_some.1 hh
  refine ⟨fun t => ?_, ?_⟩
  · simp only [typeRule, hg, hh, hstar, hselect]
    split
    · next hs => rw [hfirst hs]
    · rfl
  · simp only [reads, hg, hh, hstar, hselect]
    split
    · next hs => rw [hfirst hs]
    · rfl

theorem SameRule.of_scan {s s' : TableScan} (hg : g.scan? v = some s) (hh : h.scan? v = some s')
    (htype : s'.rowType = s.rowType) : SameRule g h v := by
  have hg := scan?_eq_some.1 hg
  have hh := scan?_eq_some.1 hh
  exact ⟨fun t => by simp only [typeRule, hg, hh, htype], by simp only [reads, hg, hh]⟩

/-! ## Ranks -/

/-- The nodes a node uses: its children, the variables it declares and, for a variable, the node it
takes its type from. The slots of a scan do not count. -/
def uses (g : Graph) (id : NodeId) : List NodeId :=
  (if (g.expr id).isScan then [] else g.children id) ++ (g.expr id).declared
    ++ (g.varSource? id).toList

theorem mem_uses_of_child {c : NodeId} (hscan : (g.expr v).isScan = false)
    (hc : c ∈ g.children v) : c ∈ g.uses v := by
  simp [uses, hscan, hc]

theorem reads_subset_uses {id : NodeId} (h : u ∈ g.reads id) : u ∈ g.uses id := by
  unfold reads at h
  unfold uses children
  split at h
  case h_1 b hb =>
    rw [hb]
    split at h
    · obtain ⟨e, he, rfl⟩ := Option.map_eq_some_iff.1 (Option.mem_toList.1 h)
      have : e.var ∈ (Expr.block b).declared := mem_map_of_mem (mem_of_head? he)
      simp [this]
    · have : u ∈ (Expr.block b).children := by
        simp only [Expr.children, mem_append]
        tauto
      simp [Expr.isScan, this]
  case h_2 => cases h
  case h_3 v hv => exact mem_append_right _ h
  case h_4 hblock hscan hvar =>
    have : (g.expr id).isScan = false := by
      cases he : g.expr id with
      | scan s => exact absurd he (hscan s)
      | _ => rfl
    simp [this, h]

/-- Nodes have greater ranks than the nodes they use. -/
structure Ordered (g : Graph) (rank : NodeId → Nat) : Prop where
  rank_lt : ∀ v, ∀ u ∈ g.uses v, rank u < rank v
  mem : ∀ v, ∀ u ∈ g.uses v, u < g.size

section
variable (hs : SameExprs g h)
include hs

theorem SameExprs.domain?_eq (v : NodeId) : h.domain? v = g.domain? v := by
  have hexpr : h.expr = g.expr := funext hs.expr_eq
  simp only [domain?, var?, block?, hexpr]

theorem SameExprs.varSource?_eq (v : NodeId) : h.varSource? v = g.varSource? v := by
  simp only [varSource?, var?, hs.domain?_eq, hs.expr_eq]

theorem SameExprs.sameRule (v : NodeId) : SameRule g h v :=
  .of_expr_eq (hs.expr_eq v) fun _ => hs.varSource?_eq v

theorem SameExprs.uses_eq (v : NodeId) : h.uses v = g.uses v := by
  simp only [uses, children, hs.varSource?_eq, hs.expr_eq]

theorem SameExprs.ordered (ho : g.Ordered rank) : h.Ordered rank :=
  ⟨fun v u hu => ho.rank_lt v u (hs.uses_eq v ▸ hu),
    fun v u hu => hs.size_eq ▸ ho.mem v u (hs.uses_eq v ▸ hu)⟩

end

/-- The number of nodes below a node in the order of ranks. -/
def level (g : Graph) (rank : NodeId → Nat) (v : NodeId) : Nat :=
  ((Finset.range g.size).filter fun w => rank w < rank v).card

theorem level_le (g : Graph) (rank : NodeId → Nat) (v : NodeId) : g.level rank v ≤ g.size :=
  (Finset.card_filter_le _ _).trans (Finset.card_range _).le

theorem level_lt (hu : u < g.size) (h : rank u < rank v) : g.level rank u < g.level rank v := by
  refine Finset.card_lt_card ⟨fun w hw => ?_, fun hsub => ?_⟩
  · obtain ⟨hlt, hw⟩ := Finset.mem_filter.1 hw
    exact Finset.mem_filter.2 ⟨hlt, hw.trans h⟩
  · have := Finset.mem_filter.1 (hsub (Finset.mem_filter.2 ⟨Finset.mem_range.2 hu, h⟩))
    exact this.2.false

theorem Ordered.level_lt (ho : g.Ordered rank) (h : u ∈ g.uses v) :
    g.level rank u < g.level rank v :=
  Graph.level_lt (ho.mem v u h) (ho.rank_lt v u h)

/-! ## Types -/

/-- Nodes without a kept type have greater ranks than the nodes that decide their types, and there are
no more ranks than nodes. -/
structure Ranked (g : Graph) (rank : NodeId → Nat) : Prop where
  lt : ∀ v, g.type? v = none → ∀ u ∈ g.typeInputs v, rank u < rank v
  le : ∀ v, rank v ≤ g.size

/-- To keep further types does no harm. -/
theorem SameExprs.ranked (hs : SameExprs g h) (hkept : ∀ v, h.type? v = none → g.type? v = none)
    (hr : g.Ranked rank) : h.Ranked rank := by
  refine ⟨fun v hv u hu => hr.lt v (hkept v hv) u ?_, fun v => hs.size_eq ▸ hr.le v⟩
  rwa [typeInputs, hs.expr_eq, hs.varSource?_eq] at hu

section
variable (hr : g.Ranked rank)
include hr

theorem Ranked.typeWithin_eq {d d' : Nat} (hd : rank v < d) (hd' : rank v < d') :
    g.typeWithin d v = g.typeWithin d' v := by
  induction d generalizing d' v with
  | zero => cases hd
  | succ d ih =>
    obtain ⟨k, rfl⟩ : ∃ k, d' = k + 1 := ⟨d' - 1, by omega⟩
    simp only [typeWithin]
    split
    · rfl
    · next hnone =>
      refine typeRule_congr_typeInputs fun u hu => ?_
      have := hr.lt v hnone u hu
      exact ih (by omega) (by omega)

/-- The type of a node is the kept one, or the one its typing rule derives. -/
theorem Ranked.exprType_eq (v : NodeId) :
    g.exprType v = (g.type? v).getD (g.derivedType v) := by
  rw [exprType, typeWithin]
  cases hkept : g.type? v with
  | some t => rfl
  | none =>
    refine typeRule_congr_typeInputs fun u hu => ?_
    have := hr.lt v hkept u hu
    have := hr.le v
    exact hr.typeWithin_eq (by omega) (by omega)

theorem Ranked.exprType_of_unkept (h : g.type? v = none) : g.exprType v = g.derivedType v := by
  rw [hr.exprType_eq, h]
  rfl

/-- On a set of nodes that holds what its members read, the typing rules and the kept types leave
no choice. -/
theorem Ranked.exprType_unique (hA : ∀ v, A v → ∀ u ∈ g.reads v, A u)
    (ht : ∀ v, A v → t v = (g.type? v).getD (g.typeRule t v)) (hv : A v) : t v = g.exprType v := by
  induction hn : rank v using Nat.strong_induction_on generalizing v with
  | _ n ih =>
    subst hn
    rw [ht v hv, hr.exprType_eq]
    cases hkept : g.type? v with
    | some t => rfl
    | none =>
      refine typeRule_congr_typeInputs fun u hu => ?_
      exact ih _ (hr.lt v hkept u hu) (hA v hv u (typeInputs_subset_reads hu)) rfl

end

section
variable (ho : g.Ordered rank)
include ho

theorem Ordered.ranked : g.Ranked (g.level rank) :=
  ⟨fun _ _ _ hu => ho.level_lt (reads_subset_uses (typeInputs_subset_reads hu)), g.level_le rank⟩

theorem Ordered.exprType_eq (v : NodeId) : g.exprType v = (g.type? v).getD (g.derivedType v) :=
  ho.ranked.exprType_eq v

theorem Ordered.exprType_of_unkept (h : g.type? v = none) : g.exprType v = g.derivedType v :=
  ho.ranked.exprType_of_unkept h

end

/-! ## Matching -/

theorem matchExpr_of_isBlock (same : NodeId → NodeId → Bool) (e e' : Expr)
    (h : e.isBlock ∨ e'.isBlock) : matchExpr same e e' = false := by
  cases e <;> cases e' <;> simp_all [Expr.isBlock, matchExpr]

/-- The operands that are matched when two nodes are: blocks and scans match only themselves. -/
def operands : Expr → List NodeId
  | .block _ | .scan _ => []
  | e => e.children

theorem operands_subset_children (h : u ∈ operands e) : u ∈ e.children := by
  unfold operands at h
  split at h
  · cases h
  · cases h
  · exact h

theorem matchAll_congr {as bs : List NodeId}
    (h : ∀ a ∈ as, ∀ b ∈ bs, same a b = same' a b) : matchAll same as bs = matchAll same' as bs := by
  induction as generalizing bs with
  | nil => cases bs <;> rfl
  | cons a as ih =>
    cases bs with
    | nil => rfl
    | cons b bs =>
      rw [matchAll, matchAll, h a mem_cons_self b mem_cons_self,
        ih fun a ha b hb => h a (.tail _ ha) b (.tail _ hb)]

theorem matchOptional_congr {a b : Option NodeId}
    (h : ∀ x ∈ a, ∀ y ∈ b, same x y = same' x y) :
    matchOptional same a b = matchOptional same' a b := by
  cases a <;> cases b <;> simp_all [matchOptional]

theorem mem_of_entriesOf? {args : List NodeId} {es : List (NodeId × NodeId)}
    (h : entriesOf? args = some es) {e : NodeId × NodeId} (he : e ∈ es) : e.1 ∈ args ∧ e.2 ∈ args := by
  fun_induction entriesOf? args generalizing es with
  | case1 =>
    cases h
    cases he
  | case2 => cases h
  | case3 k v rest ih =>
    obtain ⟨fs, hfs, rfl⟩ := Option.map_eq_some_iff.1 h
    rcases mem_cons.1 he with rfl | he
    · simp
    · have := ih hfs he
      simp [this]

theorem takeFirst?_congr {α : Type} {p q : α → Bool} {xs : List α} (h : ∀ x ∈ xs, p x = q x) :
    takeFirst? p xs = takeFirst? q xs := by
  induction xs with
  | nil => rfl
  | cons x xs ih =>
    rw [takeFirst?, takeFirst?, h x mem_cons_self,
      ih fun y hy => h y (.tail _ hy)]

theorem mem_of_takeFirst? {α : Type} {p : α → Bool} {xs rest : List α}
    (h : takeFirst? p xs = some rest) {y : α} (hy : y ∈ rest) : y ∈ xs := by
  fun_induction takeFirst? p xs generalizing rest with
  | case1 => cases h
  | case2 x xs hp =>
    cases h
    exact .tail _ hy
  | case3 x xs hp ih =>
    obtain ⟨rest', hrest, rfl⟩ := Option.map_eq_some_iff.1 h
    rcases mem_cons.1 hy with rfl | hy
    · simp
    · exact .tail _ (ih hrest hy)

theorem matchEntries_congr {as bs : List (NodeId × NodeId)}
    (h : ∀ a ∈ as, ∀ b ∈ bs, same a.1 b.1 = same' a.1 b.1 ∧ same a.2 b.2 = same' a.2 b.2) :
    matchEntries same as bs = matchEntries same' as bs := by
  induction as generalizing bs with
  | nil => rfl
  | cons a as ih =>
    have htake : takeFirst? (fun e => same a.1 e.1 && same a.2 e.2) bs =
        takeFirst? (fun e => same' a.1 e.1 && same' a.2 e.2) bs :=
      takeFirst?_congr fun b hb => by
        have := h a (.head _) b hb
        rw [this.1, this.2]
    rw [matchEntries, matchEntries, htake]
    split
    · rfl
    · next rest hrest =>
      exact ih fun a ha b hb => h a (.tail _ ha) b (mem_of_takeFirst? hrest hb)

/-- Matching looks at nothing but the operands. -/
theorem matchExpr_congr {e' : Expr} (h : ∀ a ∈ operands e, ∀ b ∈ operands e', same a b = same' a b) :
    matchExpr same e e' = matchExpr same' e e' := by
  have hopt {p q : Option NodeId} (hp : p.toList ⊆ operands e) (hq : q.toList ⊆ operands e') :
      matchOptional same p q = matchOptional same' p q :=
    matchOptional_congr fun x hx y hy => h x (hp (Option.mem_toList.2 hx)) y
      (hq (Option.mem_toList.2 hy))
  unfold matchExpr
  split
  case h_1 | h_2 => rfl
  case h_3 | h_9 | h_10 | h_11 | h_12 => simp only [h _ mem_cons_self _ mem_cons_self]
  case h_4 a l hi _ b l' hi' _ =>
    have hlow : matchOptional same l l' = matchOptional same' l l' :=
      hopt (by simp [operands, Expr.children]) (by simp [operands, Expr.children])
    have hhigh : matchOptional same hi hi' = matchOptional same' hi hi' :=
      hopt (by simp [operands, Expr.children]) (by simp [operands, Expr.children])
    rw [h _ mem_cons_self _ mem_cons_self, hlow, hhigh]
  case h_5 a p _ b q _ | h_6 _ a p _ _ b q _ =>
    have hcond : matchOptional same p q = matchOptional same' p q :=
      hopt (by simp [operands, Expr.children]) (by simp [operands, Expr.children])
    rw [h _ mem_cons_self _ mem_cons_self, hcond]
  case h_7 | h_13 => exact congrArg (_ && ·) (matchAll_congr h)
  case h_8 bs e bs' e' =>
    have hbranches : matchAll same (bs.flatMap fun b => [b.1, b.2])
        (bs'.flatMap fun b => [b.1, b.2]) = matchAll same' (bs.flatMap fun b => [b.1, b.2])
        (bs'.flatMap fun b => [b.1, b.2]) :=
      matchAll_congr fun x hx y hy => h x (mem_append_left _ hx) y (mem_append_left _ hy)
    have helse : matchOptional same e e' = matchOptional same' e e' :=
      hopt (by simp [operands, Expr.children]) (by simp [operands, Expr.children])
    rw [hbranches, helse]
  case h_14 as bs =>
    split
    · next es fs hes hfs =>
      refine matchEntries_congr fun a ha b hb => ?_
      have ha := mem_of_entriesOf? hes ha
      have hb := mem_of_entriesOf? hfs hb
      exact ⟨h _ ha.1 _ hb.1, h _ ha.2 _ hb.2⟩
    · rfl
  case h_15 => rfl

theorem operands_subset_uses {id : NodeId} (h : u ∈ operands (g.expr id)) : u ∈ g.uses id := by
  unfold uses children
  cases he : g.expr id with
  | block b | scan s =>
    rw [he] at h
    cases h
  | _ =>
    rw [he] at h
    simp only [Expr.isScan, mem_append]
    exact .inl (.inl h)

theorem alike_self (g : Graph) (a : NodeId) : g.alike a a := by
  simp [alike, matchWithin]

section
variable (hg : g.Ordered rank) (hh : h.Ordered rank')
  (hA : ∀ v, A v → ∀ u ∈ operands (g.expr v), A u)
  (hexpr : ∀ v, A v → h.expr v = g.expr v ∨ ((g.expr v).isBlock ∧ (h.expr v).isBlock)) (ha : A a)
  (hb : A b)
include hg hh hA hexpr ha hb

/-- Two ordered graphs match nodes alike if they agree, blocks apart, on a set of nodes that holds
the operands of its members. -/
theorem matchWithin_eq_of_agree {d d' : Nat} (hd : g.level rank a < d) (hd' : h.level rank' a < d') :
    g.matchWithin d a b = h.matchWithin d' a b := by
  induction d generalizing d' a b with
  | zero => cases hd
  | succ d ih =>
    obtain ⟨k, rfl⟩ : ∃ k, d' = k + 1 := ⟨d' - 1, by omega⟩
    simp only [matchWithin]
    congr 1
    rcases hexpr a ha with hea | hea
    · rcases hexpr b hb with heb | heb
      · rw [hea, heb]
        refine matchExpr_congr fun x hx y hy => ?_
        have hg := hg.level_lt (operands_subset_uses hx)
        have hh := hh.level_lt (operands_subset_uses (hea.symm ▸ hx))
        exact ih (hA a ha x hx) (hA b hb y hy) (by omega) (by omega)
      · rw [matchExpr_of_isBlock _ _ _ (.inr heb.1), matchExpr_of_isBlock _ _ _ (.inr heb.2)]
    · rw [matchExpr_of_isBlock _ _ _ (.inl hea.1), matchExpr_of_isBlock _ _ _ (.inl hea.2)]

theorem alike_eq_of_agree : g.alike a b = h.alike a b :=
  matchWithin_eq_of_agree hg hh hA hexpr ha hb (Nat.lt_succ_of_le (level_le ..))
    (Nat.lt_succ_of_le (level_le ..))

end

theorem exprType_of_kept {t : SeqType} (h : g.type? v = some t) : g.exprType v = t := by
  rw [exprType, typeWithin, h]

end ShardedQuery.Graph
