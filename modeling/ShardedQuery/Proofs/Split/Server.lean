import ShardedQuery.Proofs.Graph.Tally
import ShardedQuery.Split

/-!
# The server part of a split block

Turning a block into its server part edits that block alone: columns are added to its select list,
and its window is replaced. `Graph.EditsBlock` says what such edits leave as it was, and what they
add: fields of the row variable, a literal, or a sum. Each change of a slot goes with a change of a
parent list. `Graph.Accounts` says that the links of the block still agree with its slots, and
`Graph.Turns` is what every stage of the server part keeps.
-/

namespace ShardedQuery.Graph

open List

variable {a block e id rowVar : NodeId} {g h k : Graph} {operands : List NodeId} {b : Block}
  {f : SelectField} {v : Variable} {name : String}

/-! ## Edits at one block -/

/-- What edits of a block add: a field of an operand, a literal, or a sum of operands. -/
def IsAdded (operands : List NodeId) (e : Expr) : Prop :=
  (∃ u ∈ operands, ∃ name, e = .field u name) ∨ (∃ x, e = .literal x) ∨
    ∃ a ∈ operands, ∃ b ∈ operands, e = .call .add [a, b]

theorem IsAdded.mem_operands {e : Expr} {c : NodeId} (he : IsAdded operands e) (hc : c ∈ e.children) :
    c ∈ operands := by
  rcases he with ⟨u, hu, name, rfl⟩ | ⟨x, rfl⟩ | ⟨a, ha, b, hb, rfl⟩
  · rw [mem_singleton.1 hc]
    exact hu
  · cases hc
  · simp only [Expr.children, mem_cons, not_mem_nil, or_false] at hc
    rcases hc with rfl | rfl
    · exact ha
    · exact hb

/-- A node over the given operands, as edits of a block add it: alive, of no kept type, and known to
its operands. -/
structure IsFresh (operands : List NodeId) (g : Graph) (v : NodeId) : Prop where
  live : g.isLive v
  type : g.type? v = none
  expr : IsAdded operands (g.expr v)
  slots : g.RecordsSlots v

/-- `h` has grown out of `g` by edits of one block: other nodes have kept all but their links to the
block and to new nodes. -/
structure EditsBlock (block : NodeId) (operands : List NodeId) (g h : Graph) : Prop where
  size_le : g.size ≤ h.size
  root_eq : h.root = g.root
  expr_eq : ∀ v, v < g.size → v ≠ block → h.expr v = g.expr v
  type_eq : ∀ v, v < g.size → h.type? v = g.type? v
  live_eq : ∀ v, v < g.size → h.isLive v = g.isLive v
  count_eq : ∀ v p, v < g.size → p < g.size → p ≠ block →
    (h.parents v).count p = (g.parents v).count p
  mem_parents : ∀ v p, p ∈ h.parents v → p ∈ g.parents v ∨ p = block ∨
    (g.size ≤ p ∧ p < h.size ∧ v ∈ h.children p)
  fresh : ∀ v, g.size ≤ v → v < h.size → IsFresh operands h v

namespace EditsBlock

theorem refl (g : Graph) : EditsBlock block operands g g :=
  ⟨le_rfl, rfl, fun _ _ _ => rfl, fun _ _ => rfl, fun _ _ => rfl, fun _ _ _ _ _ => rfl,
    fun _ _ hp => .inl hp, fun _ hge hlt => absurd hge (not_le.2 hlt)⟩

theorem lt_size (he : EditsBlock block operands g h) {v : NodeId} (hv : v < g.size) : v < h.size :=
  hv.trans_le he.size_le

/-- What is no block is kept. -/
theorem expr_kept (he : EditsBlock block operands g h) (hb : g.block? block = some b) {v : NodeId}
    {x : Expr} (hv : v < g.size) (hx : g.expr v = x) (hnot : x.isBlock = false) : h.expr v = x := by
  refine (he.expr_eq v hv ?_).trans hx
  rintro rfl
  rw [← hx, block?_eq_some.1 hb] at hnot
  cases hnot

theorem trans (hblock : block < g.size) (hops : ∀ u ∈ operands, u < g.size)
    (h₁ : EditsBlock block operands g h) (h₂ : EditsBlock block operands h k) :
    EditsBlock block operands g k := by
  have hlt {v : NodeId} (hv : v < g.size) : v < h.size := h₁.lt_size hv
  refine
    { size_le := h₁.size_le.trans h₂.size_le
      root_eq := h₂.root_eq.trans h₁.root_eq
      expr_eq := fun v hv hne => (h₂.expr_eq v (hlt hv) hne).trans (h₁.expr_eq v hv hne)
      type_eq := fun v hv => (h₂.type_eq v (hlt hv)).trans (h₁.type_eq v hv)
      live_eq := fun v hv => (h₂.live_eq v (hlt hv)).trans (h₁.live_eq v hv)
      count_eq := fun v p hv hp hne =>
        (h₂.count_eq v p (hlt hv) (hlt hp) hne).trans (h₁.count_eq v p hv hp hne)
      mem_parents := fun v p hp => ?_
      fresh := fun v hge hv => ?_ }
  · have hsize := h₂.size_le
    have hsize' := h₁.size_le
    rcases h₂.mem_parents v p hp with hp | hp | hp
    · rcases h₁.mem_parents v p hp with hp | hp | hp
      · exact .inl hp
      · exact .inr (.inl hp)
      · have hne : p ≠ block := Nat.ne_of_gt (hblock.trans_le hp.1)
        refine .inr (.inr ⟨hp.1, hp.2.1.trans_le hsize, ?_⟩)
        rw [children, h₂.expr_eq p hp.2.1 hne]
        exact hp.2.2
    · exact .inr (.inl hp)
    · exact .inr (.inr ⟨hsize'.trans hp.1, hp.2⟩)
  · rcases Nat.lt_or_ge v h.size with hvh | hvh
    · -- A node of the first edits is an old one for the second.
      have hne : v ≠ block := Nat.ne_of_gt (hblock.trans_le hge)
      have hf := h₁.fresh v hge hvh
      have hexpr := h₂.expr_eq v hvh hne
      refine ⟨(h₂.live_eq v hvh).trans hf.live, (h₂.type_eq v hvh).trans hf.type,
        hexpr ▸ hf.expr, fun c hc => ?_⟩
      have hchildren : k.children v = h.children v := congrArg Expr.children hexpr
      rw [hchildren]
      rcases Nat.lt_or_ge c h.size with hch | hch
      · rw [h₂.count_eq c v hch hvh hne]
        exact hf.slots c (h₂.live_eq c hch ▸ hc)
      · have hnot : c ∉ h.children v := fun hmem =>
          not_lt.2 hch (hlt (hops c (hf.expr.mem_operands hmem)))
        rw [count_eq_zero_of_not_mem hnot]
        exact Nat.zero_le _
    · exact h₂.fresh v hvh hv

/-- A change of one node that leaves its kept type and its life alone. Only the block may change its
expression, and only entries for the block may come or go. -/
theorem modify {f : Node → Node} (htype : ∀ n, (f n).type = n.type)
    (hlive : ∀ n, (f n).live = n.live) (hexpr : id ≠ block → ∀ n, (f n).expr = n.expr)
    (hcount : ∀ n p, p ≠ block → (f n).parents.count p = n.parents.count p) :
    EditsBlock block operands g (g.modify id f) := by
  have hsize := g.size_modify id f
  refine
    { size_le := hsize.symm.le
      root_eq := rfl
      expr_eq := fun v _ hne => ?_
      type_eq := fun v _ => ?_
      live_eq := fun v _ => ?_
      count_eq := fun v p _ _ hne => ?_
      mem_parents := fun v p hp => ?_
      fresh := fun v hge hlt => absurd hge (not_le.2 (hsize ▸ hlt)) }
  · simp only [Graph.expr, node_modify]
    split
    case isTrue hid => exact hexpr (hid.1 ▸ hne) _
    case isFalse => rfl
  · simp only [type?, node_modify]
    split <;> simp only [htype]
  · simp only [isLive, node_modify]
    split <;> simp only [hlive]
  · simp only [parents, node_modify]
    split
    · exact hcount _ p hne
    · rfl
  · by_cases hpb : p = block
    · exact .inr (.inl hpb)
    · simp only [parents, node_modify] at hp ⊢
      split at hp
      · exact .inl (count_pos_iff.1 (hcount _ p hpb ▸ count_pos_iff.2 hp))
      · exact .inl hp

theorem link (c : NodeId) : EditsBlock block operands g (g.link block c) :=
  modify (fun _ => rfl) (fun _ => rfl) (fun _ _ => rfl) fun n p hp => by
    simp [count_append, Ne.symm hp]

theorem unlink (c : NodeId) : EditsBlock block operands g (g.unlink block c) :=
  modify (fun _ => rfl) (fun _ => rfl) (fun _ _ => rfl) fun n p hp => by
    simp [count_withoutOne, Ne.symm hp]

theorem modifyBlock (f : Block → Block) : EditsBlock block operands g (g.modifyBlock block f) :=
  modify (fun _ => rfl) (fun _ => rfl) (fun hne => absurd rfl hne) fun _ _ _ => rfl

theorem foldl {α : Type} {step : Graph → α → Graph} (hblock : block < g.size)
    (hops : ∀ u ∈ operands, u < g.size)
    (hstep : ∀ g x, EditsBlock block operands g (step g x)) (xs : List α) :
    EditsBlock block operands g (xs.foldl step g) := by
  induction xs generalizing g with
  | nil => exact .refl g
  | cons x xs ih =>
    have hone := hstep g x
    exact hone.trans hblock hops (ih (hone.lt_size hblock) fun u hu => hone.lt_size (hops u hu))

/-- Adding a node over the operands. -/
theorem add (hops : ∀ u ∈ operands, u < g.size) {e : Expr} (he : IsAdded operands e) :
    EditsBlock block operands g (g.add e).2 := by
  have hsize := g.size_add e
  have hcount (v p : NodeId) := count_parents_add (v := v) (fun c hc => hops c (he.mem_operands hc)) p
  refine
    { size_le := by omega
      root_eq := root_add e
      expr_eq := fun v hv _ => expr_add_of_lt e hv
      type_eq := fun v _ => type?_add e
      live_eq := fun v hv => isLive_add_of_lt e hv
      count_eq := fun v p _ hp _ => by rw [hcount, if_neg hp.ne, Nat.add_zero]
      mem_parents := fun v p hp => ?_
      fresh := fun v hge hlt => ?_ }
  · rw [← count_pos_iff, hcount] at hp
    by_cases hpg : p = g.size
    · subst hpg
      rw [if_pos rfl, Nat.add_pos_iff_pos_or_pos, count_pos_iff, count_pos_iff] at hp
      rw [children_add, if_pos rfl, hsize]
      exact hp.imp_right fun hp => .inr ⟨le_rfl, Nat.lt_succ_self _, hp⟩
    · rw [if_neg hpg, Nat.add_zero, count_pos_iff] at hp
      exact .inl hp
  · obtain rfl : v = g.size := by omega
    have hexpr : (g.add e).2.expr g.size = e := g.expr_add_self e
    refine ⟨isLive_add_iff.2 (.inl rfl), ?_, hexpr.symm ▸ he, fun c _ => ?_⟩
    · rw [type?_add, type?, node_of_size_le le_rfl]
      rfl
    · rw [children, hexpr, hcount, if_pos rfl]
      exact Nat.le_add_left _ _

theorem constantInt?_eq {b' : Block} (hedits : EditsBlock block operands g h)
    (hb : g.block? block = some b) (hb' : h.block? block = some b') {v : NodeId} (hv : v < g.size) :
    h.constantInt? v = g.constantInt? v := by
  by_cases hvb : v = block
  · rw [hvb, constantInt?, block?_eq_some.1 hb', constantInt?, block?_eq_some.1 hb]
    rfl
  · rw [constantInt?, hedits.expr_eq v hv hvb, constantInt?]

end EditsBlock

/-! ## Slots of one block -/

/-- The slots hold nodes of the graph, and the living ones know that the block uses them. -/
structure Records (g : Graph) (block : NodeId) (slots : List NodeId) : Prop where
  lt : ∀ c ∈ slots, c < g.size
  count_le : ∀ c, g.isLive c → slots.count c ≤ (g.parents c).count block

/-- Links of a block that agree with `slots` agree with `slots'` later: those of the block, whatever
the other nodes have, or those of all nodes. -/
structure Accounts (block : NodeId) (g : Graph) (slots : List NodeId) (h : Graph)
    (slots' : List NodeId) : Prop where
  records : g.Records block slots → h.Records block slots'
  tallied : g.TalliedBut block slots → h.TalliedBut block slots'

section
variable {slots slots' : List NodeId}

theorem Records.mono (hr : g.Records block slots) (hle : ∀ c, slots'.count c ≤ slots.count c) :
    g.Records block slots' := by
  refine ⟨fun c hc => hr.lt c ?_, fun c hc => (hle c).trans (hr.count_le c hc)⟩
  exact count_pos_iff.1 ((count_pos_iff.2 hc).trans_le (hle c))

namespace Accounts

theorem refl : Accounts block g slots g slots := ⟨id, id⟩

theorem trans {slots'' : List NodeId} (h₁ : Accounts block g slots h slots')
    (h₂ : Accounts block h slots' k slots'') : Accounts block g slots k slots'' :=
  ⟨h₂.records ∘ h₁.records, h₂.tallied ∘ h₁.tallied⟩

theorem of_perm (hperm : slots.Perm slots') : Accounts block g slots g slots' :=
  ⟨fun hr => hr.mono fun c => Nat.le_of_eq (hperm.count_eq c).symm, fun ht => ht.perm hperm⟩

theorem modifyBlock (f : Block → Block) : Accounts block g slots (g.modifyBlock block f) slots := by
  refine ⟨fun hr => ⟨fun c hc => ?_, fun c hc => ?_⟩, fun ht => ht.modifyBlock f⟩
  · rw [Graph.modifyBlock, modifyExpr, size_modify]
    exact hr.lt c hc
  · rw [Graph.modifyBlock, isLive_modifyExpr] at hc
    rw [Graph.modifyBlock, parents_modifyExpr]
    exact hr.count_le c hc

theorem add (hblock : block < g.size) {e : Expr} (he : ∀ c ∈ e.children, c < g.size) :
    Accounts block g slots (g.add e).2 slots := by
  refine ⟨fun hr => ⟨fun c hc => ?_, fun c hc => ?_⟩, fun ht => ht.add hblock he⟩
  · rw [size_add]
    exact Nat.lt_succ_of_lt (hr.lt c hc)
  · rw [count_parents_add he, if_neg hblock.ne]
    rcases isLive_add_iff.1 hc with rfl | hc
    · rw [count_eq_zero_of_not_mem fun hmem => (hr.lt _ hmem).false]
      exact Nat.zero_le _
    · exact hr.count_le c hc

theorem linkAll (as : List NodeId) (hlt : ∀ a ∈ as, a < g.size) :
    Accounts block g slots (as.foldl (fun g a => g.link block a) g) (as.reverse ++ slots) := by
  refine ⟨fun hr => ⟨fun c hc => ?_, fun c hc => ?_⟩, fun ht => ht.linkAll as hlt⟩
  · rw [(SameExprs.foldl (fun g a => SameExprs.link g block a) as g).size_eq]
    exact (mem_append.1 hc).elim (fun hc => hlt c (mem_reverse.1 hc)) (hr.lt c)
  · rw [isLive_linkAll] at hc
    rw [parents, node_linkAll block (lt_size_of_isLive hc), count_append, count_append,
      count_reverse, count_replicate_self, Nat.add_comm]
    exact Nat.add_le_add_right (hr.count_le c hc) _

theorem unlinkAll (as : List NodeId) :
    Accounts block g (slots ++ as) (as.foldl (fun g a => g.unlink block a) g) slots := by
  refine ⟨fun hr => ⟨fun c hc => ?_, fun c hc => ?_⟩, fun ht => (ht.unlinkAll as).perm ?_⟩
  · rw [(SameExprs.foldl (fun g a => SameExprs.unlink g block a) as g).size_eq]
    exact hr.lt c (mem_append_left _ hc)
  · rw [isLive_unlinkAll] at hc
    have hold := hr.count_le c hc
    rw [count_append] at hold
    rw [count_parents_unlinkAll block (lt_size_of_isLive hc)]
    exact Nat.le_sub_of_add_le hold
  · rw [perm_iff_count]
    intro c
    rw [count_diff, count_append, Nat.add_sub_cancel]

end Accounts

end

/-- The node is the block `b`, whose links agree with its slots, and the operands are nodes of the
graph. -/
structure IsEditable (block : NodeId) (operands : List NodeId) (g : Graph) (b : Block) : Prop where
  block_eq : g.block? block = some b
  operands_lt : ∀ u ∈ operands, u < g.size
  records : g.Records block (Expr.block b).children

/-- Edits that turn the block `b` into `b'`. -/
structure Turns (block : NodeId) (operands : List NodeId) (g : Graph) (b : Block) (h : Graph)
    (b' : Block) : Prop extends EditsBlock block operands g h where
  block_eq : h.block? block = some b'
  accounts : Accounts block g (Expr.block b).children h (Expr.block b').children

theorem block?_congr (he : h.expr block = g.expr block) : h.block? block = g.block? block := by
  unfold block?
  rw [he]

section
variable {b' : Block}

theorem IsEditable.block_lt (hs : IsEditable block operands g b) : block < g.size :=
  lt_size_of_block? hs.block_eq

theorem IsEditable.slots (hs : IsEditable block operands g b) : g.RecordsSlots block :=
  fun c hc => children_of_block? hs.block_eq ▸ hs.records.count_le c hc

namespace Turns

theorem editable (ht : Turns block operands g b h b') (hs : IsEditable block operands g b) :
    IsEditable block operands h b' :=
  ⟨ht.block_eq, fun u hu => ht.lt_size (hs.operands_lt u hu), ht.accounts.records hs.records⟩

section
variable (hs : IsEditable block operands g b)
include hs

theorem refl : Turns block operands g b g b :=
  ⟨.refl g, hs.block_eq, .refl⟩

theorem nil : Turns block operands g b g { b with select := b.select ++ [] } := by
  rw [append_nil]
  exact .refl hs

theorem trans {b'' : Block} (h₁ : Turns block operands g b h b')
    (h₂ : Turns block operands h b' k b'') : Turns block operands g b k b'' :=
  ⟨h₁.toEditsBlock.trans hs.block_lt hs.operands_lt h₂.toEditsBlock, h₂.block_eq,
    h₁.accounts.trans h₂.accounts⟩

theorem add {e : Expr} (he : IsAdded operands e) : Turns block operands g b (g.add e).2 b :=
  ⟨.add hs.operands_lt he, (block?_congr (expr_add_of_lt e hs.block_lt)).trans hs.block_eq,
    .add hs.block_lt fun c hc => hs.operands_lt c (he.mem_operands hc)⟩

/-- The block is linked to more nodes and gets slots for them. -/
theorem relink (as : List NodeId) (hlt : ∀ a ∈ as, a < g.size) {f : Block → Block}
    (hcount : ∀ c, (Expr.block (f b)).children.count c =
      as.count c + (Expr.block b).children.count c) :
    Turns block operands g b ((as.foldl (fun g a => g.link block a) g).modifyBlock block f)
      (f b) := by
  have hsame := SameExprs.foldl (fun g a => SameExprs.link g block a) as g
  refine ⟨?_, block?_modifyBlock ((block?_congr (hsame.expr_eq block)).trans hs.block_eq) f,
    ((Accounts.linkAll as hlt).trans (.modifyBlock f)).trans (.of_perm ?_)⟩
  · exact .trans hs.block_lt hs.operands_lt
      (.foldl hs.block_lt hs.operands_lt (fun _ a => .link a) as) (.modifyBlock f)
  · rw [perm_iff_count]
    intro c
    rw [count_append, count_reverse, hcount]

end

end Turns

end

/-! ## Columns -/

/-- The fields are columns of the row variable that `h` has and `g` has not. -/
structure AreColumns (rowVar : NodeId) (g h : Graph) (fields : List SelectField) : Prop where
  lt : ∀ f ∈ fields, g.size ≤ f.expr ∧ f.expr < h.size
  expr : ∀ f ∈ fields, h.expr f.expr = .field rowVar f.name

/-- Columns that were added to a graph and linked to a block, which does not have them yet. -/
structure AddsColumns (block rowVar : NodeId) (operands : List NodeId) (g h : Graph)
    (fields : List SelectField) : Prop
    extends EditsBlock block operands g h, AreColumns rowVar g h fields where
  block_eq : h.expr block = g.expr block
  accounts : ∀ slots, Accounts block g slots h ((fields.map (·.expr)).reverse ++ slots)

theorem size_withColumn : (g.withColumn block rowVar name).size = g.size + 1 := by
  rw [withColumn, size_link, addField, size_add]

theorem expr_withColumn (v : NodeId) : (g.withColumn block rowVar name).expr v =
    if v = g.size then .field rowVar name else g.expr v := by
  rw [withColumn, (SameExprs.link _ _ _).expr_eq, addField, expr_add_eq]

theorem addColumns_spec (hrow : rowVar ∈ operands) (names : List String) :
    ∀ {g : Graph}, block < g.size → (∀ u ∈ operands, u < g.size) →
      (g.addColumns block rowVar names).1.map (·.name) = names ∧
      AddsColumns block rowVar operands g (g.addColumns block rowVar names).2
        (g.addColumns block rowVar names).1 := by
  induction names with
  | nil =>
    intro g _ _
    exact ⟨rfl, .refl g, ⟨by simp [addColumns], by simp [addColumns]⟩, rfl, fun _ => .refl⟩
  | cons name names ih =>
    intro g hblock hops
    have hcol : EditsBlock block operands g (g.withColumn block rowVar name) :=
      .trans hblock hops (.add hops (.inl ⟨rowVar, hrow, name, rfl⟩)) (.link g.size)
    have haccounts (slots : List NodeId) : Accounts block g slots
        (g.withColumn block rowVar name) (g.size :: slots) :=
      (Accounts.add (e := .field rowVar name) hblock
        fun c hc => mem_singleton.1 hc ▸ hops rowVar hrow).trans
        (.linkAll [g.size] fun a ha => by
          rw [mem_singleton.1 ha, size_add]
          exact Nat.lt_succ_self _)
    have hself : g.size < (g.withColumn block rowVar name).size := by
      rw [size_withColumn]
      exact Nat.lt_succ_self _
    obtain ⟨hnames, hcols⟩ := ih (hcol.lt_size hblock) fun u hu => hcol.lt_size (hops u hu)
    rw [addColumns]
    refine ⟨by rw [map_cons, hnames], hcol.trans hblock hops hcols.toEditsBlock,
      ⟨fun f hf => ?_, fun f hf => ?_⟩, ?_, fun slots => ?_⟩
    · rcases mem_cons.1 hf with rfl | hf
      · exact ⟨le_rfl, hcols.lt_size hself⟩
      · have := hcols.lt f hf
        exact ⟨(Nat.le_of_lt hself).trans this.1, this.2⟩
    · rcases mem_cons.1 hf with rfl | hf
      · rw [hcols.expr_eq g.size hself hblock.ne', expr_withColumn, if_pos rfl]
      · exact hcols.expr f hf
    · rw [hcols.block_eq, expr_withColumn, if_neg hblock.ne]
    · rw [map_cons, reverse_cons, append_assoc]
      exact (haccounts slots).trans (hcols.accounts _)

/-! ## Reading a block after an edit -/

theorem mem_children_of_mem_select (hf : f ∈ b.select) : f.expr ∈ (Expr.block b).children := by
  have := mem_map_of_mem (f := (·.expr)) hf
  simp only [Expr.children, mem_append]
  tauto

theorem mem_children_of_mem_sort {key : SortKey} (hkey : key ∈ b.sort) :
    key.expr ∈ (Expr.block b).children := by
  have := mem_map_of_mem (f := (·.expr)) hkey
  simp only [Expr.children, mem_append]
  tauto

theorem children_window (b : Block) : (Expr.block b).children =
    (Expr.block { b with offset := none, limit := none }).children ++
      (b.offset.toList ++ b.limit.toList) := by
  simp [Expr.children]

/-! ## Expanding the star -/

theorem expandStar_of_record (hb : g.block? block = some b) (hstar : b.star)
    {fields : List (String × ItemType)} (htype : (g.exprType rowVar).item = .record fields) :
    g.expandStar block rowVar =
      (g.addColumns block rowVar (fields.map (·.1))).2.modifyBlock block fun b =>
        { b with
          select := (g.addColumns block rowVar (fields.map (·.1))).1
          star := false } := by
  simp [expandStar, hb, hstar, htype]

/-- What becomes of a block whose star may be expanded. A block with a star has no select list that
could be lost. -/
structure IsExpanded (block rowVar : NodeId) (operands : List NodeId) (b : Block) (g h : Graph)
    (b' : Block) : Prop extends EditsBlock block operands g h, IsEditable block operands h b' where
  tallied : (b.star → b.select = []) → g.TalliedBut block (Expr.block b).children →
    h.TalliedBut block (Expr.block b').children
  cases : (h = g ∧ b' = b ∧ (b.star → ∀ fields, (g.exprType rowVar).item ≠ .record fields)) ∨
    ∃ fields select, b.star ∧ (g.exprType rowVar).item = .record fields ∧
      b' = { b with select := select, star := false } ∧
      select.map (·.name) = fields.map (·.1) ∧ AreColumns rowVar g h select

theorem exists_isExpanded (hs : IsEditable block operands g b) (hrow : rowVar ∈ operands) :
    ∃ b', IsExpanded block rowVar operands b g (g.expandStar block rowVar) b' := by
  have hb := hs.block_eq
  have hlt := hs.block_lt
  have hsame (heq : g.expandStar block rowVar = g)
      (hnot : b.star → ∀ fields, (g.exprType rowVar).item ≠ .record fields) :
      ∃ b', IsExpanded block rowVar operands b g (g.expandStar block rowVar) b' := by
    rw [heq]
    exact ⟨b, .refl g, hs, fun _ => id, .inl ⟨rfl, rfl, hnot⟩⟩
  cases hstar : b.star with
  | false =>
    exact hsame (by simp [expandStar, hb, hstar]) fun h => by
      rw [hstar] at h
      cases h
  | true =>
    cases htype : (g.exprType rowVar).item with
    | record fields =>
      obtain ⟨hnames, hcols⟩ := addColumns_spec hrow (fields.map (·.1)) hlt hs.operands_lt
      have hblock := (block?_congr hcols.block_eq).trans hb
      rw [expandStar_of_record hb hstar htype]
      generalize g.addColumns block rowVar (fields.map (·.1)) = added at hnames hcols hblock ⊢
      have hedits := hcols.toEditsBlock.trans hlt hs.operands_lt
        (.modifyBlock fun b => { b with select := added.1, star := false })
      have haccounts := (hcols.accounts (Expr.block b).children).trans
        (.modifyBlock fun b => { b with select := added.1, star := false })
      refine ⟨_, hedits, ⟨block?_modifyBlock hblock _, fun u hu => hedits.lt_size (hs.operands_lt u hu),
        (haccounts.records hs.records).mono fun c => ?_⟩,
        fun hselect ht => (haccounts.tallied ht).perm (perm_iff_count.2 fun c => ?_),
        .inr ⟨fields, _, hstar, htype, rfl, hnames, fun f hf => ?_, fun f hf => ?_⟩⟩
      · simp only [Expr.children, count_append, count_reverse]
        omega
      · simp only [Expr.children, hselect hstar, count_append, map_nil, count_nil,
          count_reverse]
        omega
      · rw [modifyBlock, modifyExpr, size_modify]
        exact hcols.lt f hf
      · have hne : f.expr ≠ block := Nat.ne_of_gt (hlt.trans_le (hcols.lt f hf).1)
        rw [modifyBlock, expr_modifyExpr, if_neg fun h => hne h.1]
        exact hcols.expr f hf
    | _ =>
      exact hsame (by simp [expandStar, hb, hstar, htype]) fun _ fields h => by
        cases htype.symm.trans h

/-! ## Sort columns -/

/-- The two graphs differ in blocks only. -/
def SameButBlocks (g h : Graph) : Prop :=
  ∀ v, h.expr v = g.expr v ∨ ((g.expr v).isBlock ∧ (h.expr v).isBlock)

theorem SameButBlocks.trans (h₁ : SameButBlocks g h) (h₂ : SameButBlocks h k) :
    SameButBlocks g k := by
  intro v
  rcases h₂ v with h₂ | h₂
  · rw [h₂]
    exact h₁ v
  · rcases h₁ v with h₁ | h₁
    · exact .inr ⟨h₁ ▸ h₂.1, h₂.2⟩
    · exact .inr ⟨h₁.1, h₂.2⟩

/-- What blocks contain does not count for matching. -/
theorem matchWithin_congr (hexpr : SameButBlocks g h) (d : Nat) (a b : NodeId) :
    h.matchWithin d a b = g.matchWithin d a b := by
  induction d generalizing a b with
  | zero => rfl
  | succ d ih =>
    have hsame : h.matchWithin d = g.matchWithin d := funext fun a => funext (ih a)
    simp only [matchWithin, hsame]
    congr 1
    rcases hexpr a with ha | ha
    · rcases hexpr b with hb | hb
      · rw [ha, hb]
      · rw [matchExpr_of_isBlock _ _ _ (.inr hb.1), matchExpr_of_isBlock _ _ _ (.inr hb.2)]
    · rw [matchExpr_of_isBlock _ _ _ (.inl ha.1), matchExpr_of_isBlock _ _ _ (.inl ha.2)]

theorem alike_congr (hsize : h.size = g.size) (hexpr : SameButBlocks g h)
    (a b : NodeId) : h.alike a b = g.alike a b := by
  rw [alike, alike, hsize, matchWithin_congr hexpr]

/-- What nothing uses is removed; what the block uses, or what is dead, stays as it is. -/
theorem destroyIfUnused_eq_self (h : g.isLive id → g.parents id ≠ []) :
    g.destroyIfUnused id = g := by
  unfold destroyIfUnused
  split
  case isTrue hempty =>
    have hdead : g.isLive id = false := by
      rw [← Bool.not_eq_true]
      exact fun hl => h hl (isEmpty_iff.1 hempty)
    rw [destroy, sweep, hdead]
    cases g.slotCount <;> rfl
  case isFalse => rfl

theorem size_withField (f : SelectField) : (g.withField block f).size = g.size := by
  rw [withField, modifyBlock, modifyExpr, size_modify, size_link]

theorem Turns.withField (hs : IsEditable block operands g b) (hf : f.expr < g.size) :
    Turns block operands g b (g.withField block f)
      { b with select := b.select ++ [f] } := by
  refine .relink hs [f.expr] (fun a ha => mem_singleton.1 ha ▸ hf) fun c => ?_
  simp only [Expr.children, count_append, map_append, map_cons, map_nil]
  omega

theorem sameButBlocks_modifyBlock (hs : SameExprs g h) (f : Block → Block) :
    SameButBlocks g (h.modifyBlock block f) := by
  intro v
  rw [modifyBlock, expr_modifyExpr, hs.expr_eq]
  split
  · cases hv : g.expr v with
    | block b => exact .inr ⟨rfl, rfl⟩
    | _ => exact .inl rfl
  · exact .inl rfl

theorem findOrAppend_of_none (hb : g.block? block = some b)
    (hfind : b.select.findIdx? (fun f => g.alike f.expr e) = none) :
    g.findOrAppend block e name = (b.select.length, g.withField block ⟨name, e⟩) := by
  simp [findOrAppend, hb, hfind]

/-- An expression that the block uses is found among its select fields or appended to them. -/
theorem findOrAppend_spec (hs : IsEditable block operands g b) (he : e ∈ (Expr.block b).children)
    (name : String) :
    ∃ extra, Turns block operands g b (g.findOrAppend block e name).2
        { b with select := b.select ++ extra } ∧
      (g.findOrAppend block e name).2.size = g.size ∧
      SameButBlocks g (g.findOrAppend block e name).2 ∧ (∀ f ∈ extra, f.expr = e) ∧
      ∃ f, (b.select ++ extra)[(g.findOrAppend block e name).1]? = some f ∧
        g.alike f.expr e := by
  cases hfind : b.select.findIdx? fun f => g.alike f.expr e with
  | some pos =>
    -- What the block uses stays.
    have hknown (hl : g.isLive e) : g.parents e ≠ [] := ne_nil_of_mem
      (count_pos_iff.1 ((count_pos_iff.2 he).trans_le (hs.records.count_le e hl)))
    have heq : g.findOrAppend block e name = (pos, g) := by
      simp [findOrAppend, hs.block_eq, hfind, destroyIfUnused_eq_self hknown]
    obtain ⟨hlt, halike, -⟩ := findIdx?_eq_some_iff_getElem.1 hfind
    rw [heq]
    exact ⟨[], .nil hs, rfl, fun _ => .inl rfl, by simp, b.select[pos], by simp [hlt], halike⟩
  | none =>
    rw [findOrAppend_of_none hs.block_eq hfind]
    exact ⟨[⟨name, e⟩], .withField hs (hs.records.lt e he), size_withField _,
      sameButBlocks_modifyBlock (SameExprs.link g block e) _, by simp, ⟨name, e⟩, by simp,
      alike_self g e⟩

theorem getElem?_append_of_eq_some {α : Type} {xs : List α} {i : Nat} {x : α}
    (h : xs[i]? = some x) (ys : List α) : (xs ++ ys)[i]? = some x := by
  rw [List.getElem?_append_left (List.getElem?_eq_some_iff.1 h).1, h]

/-- The sort keys stand among the select fields at the given positions. -/
theorem sortColumns_spec (keys : List SortKey) :
    ∀ {g : Graph} {b : Block} (k : Nat), IsEditable block operands g b →
      (∀ key ∈ keys, key ∈ b.sort) →
      ∃ extra, Turns block operands g b (g.sortColumns block k keys).2
          { b with select := b.select ++ extra } ∧
        (g.sortColumns block k keys).2.size = g.size ∧
        SameButBlocks g (g.sortColumns block k keys).2 ∧
        (∀ f ∈ extra, ∃ key ∈ keys, f.expr = key.expr) ∧
        Forall₂ (fun pos key => ∃ f, (b.select ++ extra)[pos]? = some f ∧
          g.alike f.expr key.expr) (g.sortColumns block k keys).1 keys := by
  induction keys with
  | nil =>
    intro g b k hs _
    exact ⟨[], .nil hs, rfl, fun _ => .inl rfl, by simp, .nil⟩
  | cons key keys ih =>
    intro g b k hs hkeys
    have hkey := mem_children_of_mem_sort (hkeys key (.head _))
    obtain ⟨extra, hone, hsize, hsame, hextra, f, hf, halike⟩ :=
      findOrAppend_spec hs hkey s!"sort_gen{k}"
    obtain ⟨rest, hmore, hsize', hsame', hrest, hpos⟩ := ih (k + 1) (hone.editable hs)
      fun key' hmem => hkeys key' (.tail _ hmem)
    refine ⟨extra ++ rest, ?_, hsize'.trans hsize, hsame.trans hsame', ?_,
      .cons ⟨f, ?_, halike⟩ (hpos.imp fun pos key' ⟨f', hf', halike'⟩ => ⟨f', ?_, ?_⟩)⟩
    · rw [← append_assoc]
      exact hone.trans hs hmore
    · intro f' hf'
      rcases mem_append.1 hf' with hf' | hf'
      · exact ⟨key, .head _, hextra f' hf'⟩
      · obtain ⟨key', hkey', heq⟩ := hrest f' hf'
        exact ⟨key', .tail _ hkey', heq⟩
    · rw [← append_assoc]
      exact getElem?_append_of_eq_some hf rest
    · rw [← append_assoc]
      exact hf'
    · rw [← alike_congr hsize hsame]
      exact halike'

/-! ## Key columns -/

section
variable (hv : g.expr rowVar = .var v) (hkind : v.kind = .row)
include hv hkind

/-- A FROM variable matches nothing but itself. -/
theorem matchWithin_row {d : Nat} (h : g.matchWithin d a rowVar) : a = rowVar := by
  cases d with
  | zero => simp [matchWithin] at h
  | succ d =>
    simp only [matchWithin, Bool.or_eq_true, beq_iff_eq] at h
    refine h.resolve_right fun hmatch => ?_
    rw [hv] at hmatch
    cases ha : g.expr a with
    | var w =>
      rw [ha] at hmatch
      cases hw : w.kind <;>
        simp [matchExpr, matchVars, hkind, hw, VarKind.isContext] at hmatch
    | _ => simp [ha, matchExpr] at hmatch

/-- What matches a column of the row variable is one. -/
theorem expr_of_alike_column (he : g.expr e = .field rowVar name) (hne : a ≠ e) (h : g.alike a e) :
    g.expr a = .field rowVar name := by
  simp only [alike, matchWithin, Bool.or_eq_true, beq_iff_eq] at h
  have hmatch := h.resolve_left hne
  rw [he] at hmatch
  cases ha : g.expr a with
  | field input n =>
    simp only [ha, matchExpr, Bool.and_eq_true, beq_iff_eq] at hmatch
    rw [hmatch.1, matchWithin_row hv hkind hmatch.2]
  | _ => simp [ha, matchExpr] at hmatch

/-- The column is not among the select fields. -/
theorem findIdx?_column_eq_none (hs : IsEditable block operands g b)
    (hnone : b.select.findIdx? (fun f => g.isColumn rowVar name f.expr) = none) :
    b.select.findIdx? (fun f => (g.addField rowVar name).2.alike f.expr g.size) = none := by
  rw [findIdx?_eq_none_iff] at hnone ⊢
  intro f hf
  have hlt : f.expr < g.size := hs.records.lt _ (mem_children_of_mem_select hf)
  have hvar : rowVar < g.size := lt_size_of_expr (by rw [hv]; simp)
  rw [← Bool.not_eq_true]
  intro halike
  have hcolumn : (g.addField rowVar name).2.expr f.expr = .field rowVar name :=
    expr_of_alike_column ((expr_add_of_lt _ hvar).trans hv) hkind (g.expr_add_self _)
      hlt.ne halike
  rw [addField, expr_add_of_lt _ hlt, ← isColumn_iff, hnone f hf] at hcolumn
  cases hcolumn

end

/-- The select field for the `k`-th column of the key, if the column is the next node. -/
def keyField (g : Graph) (k : Nat) : SelectField := ⟨s!"pk_gen{k}", g.size⟩

theorem expr_keyField (k : Nat) : (g.keyField k).expr = g.size := rfl

/-- The graph in which the block selects one more column of the key. -/
def withKeyColumn (g : Graph) (block rowVar : NodeId) (k : Nat) (name : String) : Graph :=
  (g.addField rowVar name).2.withField block (g.keyField k)

/-- Where the key columns are put. -/
structure KeyColumns (block rowVar : NodeId) (operands : List NodeId) (b : Block) (g h : Graph)
    (extra : List SelectField) (positions : List Nat) (names : List String) : Prop
    extends Turns block operands g b h { b with select := b.select ++ extra } where
  lt : ∀ f ∈ extra, g.size ≤ f.expr ∧ f.expr < h.size
  columns : ∀ f ∈ extra, ∃ name, h.expr f.expr = .field rowVar name
  positions : Forall₂ (fun pos name => ∃ f, (b.select ++ extra)[pos]? = some f ∧
    h.expr f.expr = .field rowVar name) positions names

/-- One column of the key is found among the select fields or appended to them. -/
theorem exists_keyColumn (hv : g.expr rowVar = .var v) (hkind : v.kind = .row)
    (hrow : rowVar ∈ operands) (hs : IsEditable block operands g b) (k : Nat) (name : String) :
    ∃ extra pos h, KeyColumns block rowVar operands b g h extra [pos] [name] ∧
      ∀ names, g.keyColumns block rowVar k (name :: names) =
        (pos :: (h.keyColumns block rowVar (k + 1) names).1,
          (h.keyColumns block rowVar (k + 1) names).2) := by
  cases hfind : b.select.findIdx? fun f => g.isColumn rowVar name f.expr with
  | some pos =>
    obtain ⟨hlt, hcolumn, -⟩ := findIdx?_eq_some_iff_getElem.1 hfind
    exact ⟨[], pos, g, ⟨.nil hs, by simp, by simp, .cons ⟨b.select[pos], by simp [hlt],
      isColumn_iff.1 hcolumn⟩ .nil⟩, fun names => by simp [keyColumns, hs.block_eq, hfind]⟩
  | none =>
    have hadded : Turns block operands g b (g.addField rowVar name).2 b :=
      .add hs (.inl ⟨rowVar, hrow, name, rfl⟩)
    have hself : (g.addField rowVar name).2.expr g.size = .field rowVar name := g.expr_add_self _
    have hlast : (g.keyField k).expr < (g.addField rowVar name).2.size := by
      rw [addField, size_add, expr_keyField]
      exact Nat.lt_succ_self _
    have hfield : Turns block operands (g.addField rowVar name).2 b
        (g.withKeyColumn block rowVar k name) _ := .withField (hadded.editable hs) hlast
    have hexpr : (g.withKeyColumn block rowVar k name).expr (g.keyField k).expr =
        .field rowVar name :=
      (hfield.expr_eq _ hlast hs.block_lt.ne').trans hself
    have hstep : (g.addField rowVar name).2.findOrAppend block (g.addField rowVar name).1
        s!"pk_gen{k}" = (b.select.length, g.withKeyColumn block rowVar k name) :=
      findOrAppend_of_none hadded.block_eq (findIdx?_column_eq_none hv hkind hs hfind)
    refine ⟨[g.keyField k], b.select.length, g.withKeyColumn block rowVar k name,
      ⟨hadded.trans hs hfield, fun f hf => ?_, fun f hf => ?_,
        .cons ⟨g.keyField k, by simp, hexpr⟩ .nil⟩,
      fun names => ?_⟩
    · rw [mem_singleton.1 hf]
      exact ⟨le_rfl, hfield.lt_size hlast⟩
    · rw [mem_singleton.1 hf]
      exact ⟨name, hexpr⟩
    · simp only [keyColumns, hs.block_eq, hfind, Option.map_some, Option.getD_some, hstep]

/-- The columns of the key stand among the select fields at the given positions. -/
theorem keyColumns_spec (hkind : v.kind = .row) (hrow : rowVar ∈ operands) (names : List String) :
    ∀ {g : Graph} {b : Block} (k : Nat), IsEditable block operands g b → g.expr rowVar = .var v →
      ∃ extra, KeyColumns block rowVar operands b g (g.keyColumns block rowVar k names).2 extra
        (g.keyColumns block rowVar k names).1 names := by
  induction names with
  | nil =>
    intro g b k hs _
    exact ⟨[], .nil hs, by simp, by simp, .nil⟩
  | cons name names ih =>
    intro g b k hs hv
    obtain ⟨extra, pos, h, hone, heq⟩ := exists_keyColumn hv hkind hrow hs k name
    have hs' := hone.editable hs
    obtain ⟨rest, hrest⟩ := ih (k + 1) hs'
      (hone.expr_kept hs.block_eq (hs.operands_lt rowVar hrow) hv rfl)
    rw [heq]
    refine ⟨extra ++ rest, ?_, ?_, ?_, ?_⟩
    · rw [← append_assoc]
      exact hone.toTurns.trans hs hrest.toTurns
    · intro f hf
      rcases mem_append.1 hf with hf | hf
      · have := hone.lt f hf
        exact ⟨this.1, hrest.lt_size this.2⟩
      · have := hrest.lt f hf
        exact ⟨hone.size_le.trans this.1, this.2⟩
    · intro f hf
      rcases mem_append.1 hf with hf | hf
      · obtain ⟨n, hn⟩ := hone.columns f hf
        exact ⟨n, hrest.expr_kept hone.block_eq (hone.lt f hf).2 hn rfl⟩
      · exact hrest.columns f hf
    · obtain _ | ⟨⟨f, hf, hfe⟩, -⟩ := hone.positions
      refine .cons ⟨f, ?_, hrest.expr_kept hone.block_eq ?_ hfe rfl⟩
        (hrest.positions.imp fun pos name ⟨f', hf', hfe'⟩ => ?_)
      · rw [← append_assoc]
        exact getElem?_append_of_eq_some hf rest
      · exact hs'.records.lt f.expr (mem_children_of_mem_select (mem_of_getElem? hf))
      · rw [← append_assoc]
        exact ⟨f', hf', hfe'⟩

/-! ## The window -/

/-- Other nodes in the slots make no other constant. -/
theorem constantInt?_mapChildren {f : NodeId → NodeId} {u v : NodeId}
    (he : h.expr v = (g.expr u).mapChildren f) : h.constantInt? v = g.constantInt? u := by
  rw [constantInt?, he, constantInt?]
  cases g.expr u <;> rfl

theorem isAdded_windowEnd {o l : NodeId} (ho : o ∈ operands) (hl : l ∈ operands) :
    IsAdded operands (g.windowEnd o l) := by
  unfold windowEnd
  split
  · split
    · exact .inr (.inl ⟨_, rfl⟩)
    · exact .inr (.inr ⟨o, ho, l, hl, rfl⟩)
  · exact .inr (.inr ⟨o, ho, l, hl, rfl⟩)

theorem Turns.withoutWindow (hs : IsEditable block operands g b) :
    Turns block operands g b (g.withoutWindow block b.offset b.limit)
      { b with offset := none, limit := none } := by
  have hsize : (g.modifyBlock block fun b => { b with offset := none, limit := none }).size =
      g.size := by rw [modifyBlock, modifyExpr, size_modify]
  have hunlink := SameExprs.foldl (fun g e => SameExprs.unlink g block e)
    (b.offset.toList ++ b.limit.toList)
    (g.modifyBlock block fun b => { b with offset := none, limit := none })
  refine ⟨.trans hs.block_lt hs.operands_lt (.modifyBlock _) (.foldl (hsize ▸ hs.block_lt)
      (fun u hu => hsize ▸ hs.operands_lt u hu) (fun _ e => .unlink e) _),
    (block?_congr (hunlink.expr_eq block)).trans (block?_modifyBlock hs.block_eq _), ?_⟩
  rw [children_window b]
  exact (Accounts.modifyBlock _).trans (.unlinkAll _)

theorem Turns.withLimit {limit : Option NodeId}
    (hs : IsEditable block operands g { b with offset := none, limit := none })
    (hlt : ∀ e ∈ limit, e < g.size) :
    Turns block operands g { b with offset := none, limit := none } (g.withLimit block limit)
      { b with offset := none, limit := limit } := by
  refine .relink hs limit.toList (fun e he => hlt e (Option.mem_toList.1 he)) fun c => ?_
  simp only [Expr.children, count_append, Option.toList_none, count_nil]
  omega

/-- The limit of the server part: none without a limit, the limit itself without an offset, and else
a new node, the end of the window. -/
theorem exists_limits (hs : IsEditable block operands g b)
    (hwindow : ∀ e ∈ b.offset.toList ++ b.limit.toList, e ∈ operands) :
    ∃ limit, Turns block operands g b (g.limitServer block b.offset b.limit)
        { b with offset := none, limit := limit } ∧
      (b.limit = none → limit = none) ∧ (b.offset = none → limit = b.limit) ∧
      ∀ o ∈ b.offset, ∀ l ∈ b.limit, ∃ e, limit = some e ∧ g.size ≤ e ∧
        (g.limitServer block b.offset b.limit).expr e = g.windowEnd o l := by
  have hw : Turns block operands g b (g.withoutWindow block b.offset b.limit) _ := .withoutWindow hs
  unfold limitServer
  cases ho : b.offset with
  | none =>
    rw [ho] at hw
    refine ⟨b.limit, hw.trans hs (.withLimit (hw.editable hs) fun e he => ?_), id, fun _ => rfl,
      fun o h => by cases h⟩
    exact hw.lt_size (hs.operands_lt e (hwindow e (by simp [Option.mem_def.1 he])))
  | some o =>
    cases hl : b.limit with
    | none =>
      rw [ho, hl] at hw
      exact ⟨none, hw.trans hs (.withLimit (hw.editable hs) fun e he => by cases he),
        fun _ => rfl, fun _ => rfl, fun _ _ l h => by cases h⟩
    | some l =>
      rw [ho, hl] at hw hwindow
      generalize g.withoutWindow block (some o) (some l) = k at hw ⊢
      have hoffset : o ∈ operands := hwindow o (by simp)
      have hlimit : l ∈ operands := hwindow l (by simp)
      have hconst {u : NodeId} (hu : u ∈ operands) :=
        hw.constantInt?_eq hs.block_eq hw.block_eq (hs.operands_lt u hu)
      have hend : k.windowEnd o l = g.windowEnd o l := by
        rw [windowEnd, hconst hoffset, hconst hlimit, windowEnd]
      have hs' := hw.editable hs
      have hadd : Turns block operands k _ (k.add (g.windowEnd o l)).2 _ :=
        .add hs' (isAdded_windowEnd hoffset hlimit)
      have hlast : k.size < (k.add (g.windowEnd o l)).2.size := by
        rw [size_add]
        exact Nat.lt_succ_self _
      have hlim : Turns block operands (k.add (g.windowEnd o l)).2 _
          ((k.add (g.windowEnd o l)).2.withLimit block (some k.size)) _ :=
        .withLimit (hadd.editable hs') fun e he => by
          rw [← Option.some.inj he]
          exact hlast
      simp only [hend]
      refine ⟨_, hw.trans hs (hadd.trans hs' hlim), fun h => (by cases h), fun h => (by cases h), ?_⟩
      rintro _ ⟨⟩ _ ⟨⟩
      refine ⟨_, rfl, hw.size_le, ?_⟩
      rw [hlim.expr_eq _ hlast (hw.lt_size hs.block_lt).ne', expr_add_self]

end ShardedQuery.Graph
