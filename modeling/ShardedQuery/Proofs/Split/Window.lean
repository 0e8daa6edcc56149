import ShardedQuery.Proofs.Split.Outcome

/-!
# The window of a split block

A block with an offset and a limit returns one window of its rows. When the block is split, each
shard returns its rows up to the end of the window, the boundary merges what the shards return and
the client part cuts the window out of the merge. This is the window of all rows, whatever the
shards hold: the first `n` rows of a merge depend on nothing but the first `n` rows of each shard.

The merge repeatedly takes the smallest of the first rows, that of the first shard on a draw. The
order may be any: what is shown needs neither a total order nor sorted shards.
-/

namespace ShardedQuery

open List

variable {n : Nat} {v : NodeId} {limit offset : Option Nat} {i : Int} {e : Option NodeId}
  {g : Graph}

/-! ## Merging -/

section
variable {α : Type*} (le : α → α → Bool)

/-- The smallest of the first rows, that of the first list on a draw, and the rows left. -/
def takeLeast : List (List α) → Option (α × List (List α))
  | [] => none
  | [] :: shards => (takeLeast shards).map fun (y, rest) => (y, [] :: rest)
  | (x :: xs) :: shards =>
    match takeLeast shards with
    | none => some (x, xs :: shards)
    | some (y, rest) =>
      if le x y then some (x, xs :: shards) else some (y, (x :: xs) :: rest)

/-- The first `n` rows of a merge. -/
def mergeFirst : Nat → List (List α) → List α
  | 0, _ => []
  | n + 1, shards =>
    match takeLeast le shards with
    | none => []
    | some (x, rest) => x :: mergeFirst n rest

/-- All rows, merged. -/
def mergeShards (shards : List (List α)) : List α :=
  mergeFirst le shards.flatten.length shards

variable {le}

/-- One row less is left. -/
theorem length_flatten_of_takeLeast {shards rest : List (List α)} {x : α}
    (h : takeLeast le shards = some (x, rest)) :
    shards.flatten.length = rest.flatten.length + 1 := by
  fun_induction takeLeast le shards generalizing x rest with
  | case1 => cases h
  | case2 shards ih =>
    obtain ⟨⟨y, rest'⟩, hy, heq⟩ := Option.map_eq_some_iff.1 h
    cases heq
    simpa using ih hy
  | case3 x' xs shards hnone ih =>
    cases h
    simp only [flatten_cons, length_append, length_cons]
    omega
  | case4 x' xs shards y rest' hsome hle ih =>
    cases h
    simp only [flatten_cons, length_append, length_cons]
    omega
  | case5 x' xs shards y rest' hsome hle ih =>
    cases h
    have := ih hsome
    simp only [flatten_cons, length_append, length_cons]
    omega

/-- Rows are left as long as some shard has one. -/
theorem flatten_of_takeLeast_eq_none {shards : List (List α)} (h : takeLeast le shards = none) :
    shards.flatten = [] := by
  fun_induction takeLeast le shards with
  | case1 => rfl
  | case2 shards ih => simpa using ih (Option.map_eq_none_iff.1 h)
  | case3 | case4 | case5 => cases h

theorem mergeFirst_of_flatten_eq_nil {shards : List (List α)} (h : shards.flatten = []) (n : Nat) :
    mergeFirst le n shards = [] := by
  cases n with
  | zero => rfl
  | succ n =>
    rw [mergeFirst]
    split
    · rfl
    · next x rest hx =>
      have := length_flatten_of_takeLeast hx
      rw [h] at this
      cases this

/-- A merge has its first rows early. -/
theorem take_mergeFirst {m : Nat} (hle : n ≤ m) (shards : List (List α)) :
    (mergeFirst le m shards).take n = mergeFirst le n shards := by
  induction n generalizing m shards with
  | zero => simp [mergeFirst]
  | succ n ih =>
    obtain ⟨m, rfl⟩ : ∃ k, m = k + 1 := ⟨m - 1, by omega⟩
    rw [mergeFirst, mergeFirst]
    split
    · rfl
    · rw [take_succ_cons, ih (by omega)]

/-- Asking for more rows than there are gives all. -/
theorem mergeFirst_of_le {shards : List (List α)} (hle : shards.flatten.length ≤ n) :
    mergeFirst le n shards = mergeShards le shards := by
  induction n generalizing shards with
  | zero =>
    have hnil := eq_nil_of_length_eq_zero (Nat.le_zero.1 hle)
    rw [mergeShards, mergeFirst_of_flatten_eq_nil hnil, mergeFirst_of_flatten_eq_nil hnil]
  | succ n ih =>
    cases hx : takeLeast le shards with
    | none =>
      have hnil := flatten_of_takeLeast_eq_none hx
      rw [mergeShards, mergeFirst_of_flatten_eq_nil hnil, mergeFirst_of_flatten_eq_nil hnil]
    | some r =>
      obtain ⟨x, rest⟩ := r
      have hlen := length_flatten_of_takeLeast hx
      rw [mergeShards, hlen, mergeFirst, mergeFirst, hx]
      exact congrArg (x :: ·) (ih (by omega))

theorem take_mergeShards (n : Nat) (shards : List (List α)) :
    (mergeShards le shards).take n = mergeFirst le n shards := by
  rw [← mergeFirst_of_le (Nat.le_max_right n shards.flatten.length),
    take_mergeFirst (Nat.le_max_left ..)]

/-- Two families of shards whose first `n` rows agree. -/
def AgreeTo (n : Nat) (as bs : List (List α)) : Prop :=
  Forall₂ (fun a b : List α => a.take n = b.take n) as bs

theorem agreeTo_map_take (n : Nat) (shards : List (List α)) :
    AgreeTo n (shards.map (·.take n)) shards := by
  refine forall₂_map_left_iff.2 (forall₂_same.2 fun a _ => ?_)
  rw [take_take, Nat.min_self]

theorem take_eq_of_take_succ_eq {a b : List α} (h : a.take (n + 1) = b.take (n + 1)) :
    a.take n = b.take n := by
  have := congrArg (take n) h
  rwa [take_take, take_take, Nat.min_eq_left (Nat.le_succ n)] at this

/-- What is taken depends on the first rows alone, and one row less agrees after it. -/
theorem AgreeTo.takeLeast_eq (le : α → α → Bool) {as bs : List (List α)} (h : AgreeTo (n + 1) as bs) :
    (takeLeast le as = none ∧ takeLeast le bs = none) ∨
      ∃ x as' bs', takeLeast le as = some (x, as') ∧ takeLeast le bs = some (x, bs') ∧
        AgreeTo n as' bs' := by
  induction h with
  | nil => exact .inl ⟨rfl, rfl⟩
  | @cons a b as bs hab hrest ih =>
    have htail : AgreeTo n as bs := hrest.imp fun _ _ => take_eq_of_take_succ_eq
    cases a with
    | nil =>
      have hb : b = [] := by
        cases b with
        | nil => rfl
        | cons => cases hab
      subst hb
      simp only [takeLeast]
      rcases ih with ⟨ha, hb⟩ | ⟨x, as', bs', ha, hb, hagree⟩
      · exact .inl (by rw [ha, hb]; exact ⟨rfl, rfl⟩)
      · exact .inr ⟨x, [] :: as', [] :: bs', by rw [ha]; rfl, by rw [hb]; rfl, .cons rfl hagree⟩
    | cons x xs =>
      obtain ⟨ys, rfl, hxy⟩ : ∃ ys, b = x :: ys ∧ xs.take n = ys.take n := by
        cases b with
        | nil => cases hab
        | cons y ys =>
          obtain ⟨rfl, hxy⟩ := List.cons.inj hab
          exact ⟨ys, rfl, hxy⟩
      simp only [takeLeast]
      refine .inr ?_
      rcases ih with ⟨ha, hb⟩ | ⟨y, as', bs', ha, hb, hagree⟩
      · exact ⟨x, xs :: as, ys :: bs, by rw [ha], by rw [hb], .cons hxy htail⟩
      · rw [ha, hb]
        by_cases hle : le x y
        · exact ⟨x, xs :: as, ys :: bs, if_pos hle, if_pos hle, .cons hxy htail⟩
        · exact ⟨y, (x :: xs) :: as', (x :: ys) :: bs', if_neg hle, if_neg hle,
            .cons (take_eq_of_take_succ_eq hab) hagree⟩

/-- The first `n` rows of a merge depend on the first `n` rows of each shard alone. -/
theorem AgreeTo.mergeFirst_eq {as bs : List (List α)} (h : AgreeTo n as bs) :
    mergeFirst le n as = mergeFirst le n bs := by
  induction n generalizing as bs with
  | zero => rfl
  | succ n ih =>
    rw [mergeFirst, mergeFirst]
    rcases h.takeLeast_eq le with ⟨ha, hb⟩ | ⟨x, as', bs', ha, hb, hagree⟩
    · rw [ha, hb]
    · rw [ha, hb]
      exact congrArg (x :: ·) (ih hagree)

/-- The rows from an offset on, up to a limit. -/
def window (offset limit : Option Nat) (rows : List α) : List α :=
  match limit with
  | none => rows.drop (offset.getD 0)
  | some l => (rows.drop (offset.getD 0)).take l

/-- The last row of a window, counted from the first row of all. -/
def windowLimit (offset limit : Option Nat) : Option Nat :=
  limit.map (offset.getD 0 + ·)

/-- Shards may drop what is behind the window. -/
theorem window_mergeShards (offset limit : Option Nat) (shards : List (List α)) :
    window offset limit (mergeShards le (shards.map (window none (windowLimit offset limit)))) =
      window offset limit (mergeShards le shards) := by
  cases limit with
  | none =>
    have hid : window none (windowLimit offset none) = (id : List α → List α) := rfl
    rw [hid, map_id]
  | some l =>
    have hcut : window none (windowLimit offset (some l)) =
        fun rows : List α => rows.take (offset.getD 0 + l) := rfl
    simp only [window, hcut]
    rw [take_drop, take_drop, take_mergeShards, take_mergeShards,
      (agreeTo_map_take _ shards).mergeFirst_eq]

end

/-! ## The two parts of a split block -/

namespace Graph

/-- The window of a block has constant bounds. -/
structure HasWindow (g : Graph) (b : Block) (offset limit : Option Nat) : Prop where
  offset_eq : b.offset.map g.constantInt? = offset.map fun o => some (o : Int)
  limit_eq : b.limit.map g.constantInt? = limit.map fun l => some (l : Int)

/-- The rows in the window of a block; a bound that is no constant counts as absent. -/
def windowed {α : Type*} (g : Graph) (b : Block) (rows : List α) : List α :=
  window ((b.offset.bind g.constantInt?).map Int.toNat)
    ((b.limit.bind g.constantInt?).map Int.toNat) rows

section
variable {h : Graph} {b : Block}

/-- A bound, from what is known of it. -/
theorem bind_constantInt?_of_map_eq {n : Option Nat}
    (heq : e.map g.constantInt? = n.map fun k => some (k : Int)) :
    (e.bind g.constantInt?).map Int.toNat = n := by
  cases e <;> cases n <;> simp_all

theorem HasWindow.windowed_eq {α : Type*} (hw : g.HasWindow b offset limit) (rows : List α) :
    g.windowed b rows = window offset limit rows := by
  rw [windowed, bind_constantInt?_of_map_eq hw.offset_eq, bind_constantInt?_of_map_eq hw.limit_eq]

theorem map_constantInt?_congr {n : Option Nat}
    (hconst : ∀ v i, g.constantInt? v = some i → h.constantInt? v = some i)
    (heq : e.map g.constantInt? = n.map fun k => some (k : Int)) :
    e.map h.constantInt? = n.map fun k => some (k : Int) := by
  cases e with
  | none => exact heq
  | some v =>
    cases n with
    | none => cases heq
    | some k =>
      rw [Option.map_some, hconst v k (Option.some.inj heq)]
      rfl

theorem exists_constant_of_map_eq {n : Option Nat}
    (heq : e.map g.constantInt? = n.map fun k => some (k : Int)) (hv : e = some v) :
    ∃ k, n = some k ∧ g.constantInt? v = some (k : Int) := by
  subst hv
  cases n with
  | none => cases heq
  | some k => exact ⟨k, rfl, Option.some.inj heq⟩

theorem exists_literal_of_constantInt? (hv : g.constantInt? v = some i) :
    ∃ a, g.expr v = .literal a ∧ a.toInt? = some i ∧ v < g.size := by
  unfold constantInt? Expr.toInt? at hv
  split at hv
  · next a ha =>
    refine ⟨a, ha, hv, Nat.lt_of_not_le fun hle => ?_⟩
    rw [expr, node_of_size_le hle] at ha
    cases ha
    cases hv
  · cases hv

theorem windowEnd_of_constants {o l : NodeId} {m : Nat} (ho : g.constantInt? o = some (m : Int))
    (hl : g.constantInt? l = some (n : Int)) (hfits : (m + n : Int) ≤ Int64.maxValue.toInt) :
    g.windowEnd o l = .literal (.long (Int64.ofInt (m + n))) := by
  have hmin : Int64.minValue.toInt ≤ (m + n : Int) :=
    Int.le_trans (by decide) (Int.natCast_nonneg (m + n))
  simp only [windowEnd, ho, hl]
  exact if_pos ⟨hmin, hfits⟩

end

end Graph

namespace SplitSite
open ShardedQuery.Graph

variable {x : SplitSite} (hx : x.IsIn g) {expanded server : Block}
  (hp : x.IsServed g expanded server) (hw : g.HasWindow x.b offset limit)
include hx hp

omit hp in
theorem constantInt?_bounded (hv : g.constantInt? v = some i) :
    (x.bounded g).constantInt? v = some i := by
  obtain ⟨a, ha, hi, hlt⟩ := exists_literal_of_constantInt? hv
  rw [constantInt?, expr_bounded_literal hx.block_lt hlt ha]
  exact hi

theorem constantInt?_result (hv : g.constantInt? v = some i) :
    (x.result g).constantInt? v = some i := by
  obtain ⟨a, ha, hi, hlt⟩ := exists_literal_of_constantInt? hv
  rw [constantInt?, expr_result_literal hx hp ha hlt]
  exact hi

include hw

theorem hasWindow_client : (x.result g).HasWindow (x.clientBlock g) offset limit :=
  { offset_eq := map_constantInt?_congr (fun _ _ => constantInt?_result hx hp) hw.offset_eq
    limit_eq := map_constantInt?_congr (fun _ _ => constantInt?_result hx hp) hw.limit_eq }

/-- The server part returns the rows up to the end of the window. -/
theorem hasWindow_server
    (hfits : ∀ o ∈ offset, ∀ l ∈ limit, (o + l : Int) ≤ Int64.maxValue.toInt) :
    (x.result g).HasWindow server none (windowLimit offset limit) := by
  have hserver : server.offset = none := by rw [hp.server_eq]
  refine ⟨by rw [hserver]; rfl, ?_⟩
  cases ho : x.b.offset with
  | none =>
    have hoffset := hw.offset_eq
    rw [ho] at hoffset
    obtain rfl : offset = none := by cases offset <;> simp_all
    have hlimit : windowLimit none limit = limit := by cases limit <;> simp [windowLimit]
    rw [hp.limit_eq ho, hlimit]
    exact map_constantInt?_congr (fun _ _ => constantInt?_result hx hp) hw.limit_eq
  | some o =>
    obtain ⟨m, rfl, hm⟩ := exists_constant_of_map_eq hw.offset_eq ho
    cases hl : x.b.limit with
    | none =>
      have hlimit := hw.limit_eq
      rw [hl] at hlimit
      obtain rfl : limit = none := by cases limit <;> simp_all
      rw [hp.limit_none hl]
      rfl
    | some l =>
      obtain ⟨n, rfl, hn⟩ := exists_constant_of_map_eq hw.limit_eq hl
      obtain ⟨e, he, -, -, hexpr⟩ := hx.exists_limit_result hp ho hl
      have hsum : (m + n : Int) ≤ Int64.maxValue.toInt := hfits m rfl n rfl
      rw [windowEnd_of_constants (constantInt?_bounded hx hm) (constantInt?_bounded hx hn) hsum]
        at hexpr
      have hmin : Int64.minValue.toInt ≤ (m + n : Int) :=
        Int.le_trans (by decide) (Int.natCast_nonneg (m + n))
      rw [he, Option.map_some, constantInt?, hexpr]
      simp only [Expr.toInt?, Value.toInt?, windowLimit]
      rw [Int64.toInt_ofInt_of_le hmin (Int.lt_of_le_of_lt hsum (by decide))]
      simp

end SplitSite

/-- A block that is split returns its window. The server part has the rows up to the end of the
window for a limit and no offset, the client part reads the boundary over it and has the window of
the block. Whatever the shards hold, the window of what they return is the window of all rows. -/
theorem Split.splitOne_keeps_window {c : Catalog} {g : Graph} {block scan : NodeId} {b : Block}
    {s : TableScan} {t : Table} (hb : g.block? block = some b) (hanchored : g.Anchored block)
    (hdomain : b.firstDomain? = some scan) (hscan : g.scan? scan = some s)
    (htable : c.table s.table = .ok t) (hplace : s.singlePartition = false)
    (hdedup : s.dedup = false) (hneed : b.hasSort || b.offset.isSome || b.limit.isSome)
    {offset limit : Option Nat} (hwindow : g.HasWindow b offset limit)
    (hfits : ∀ o ∈ offset, ∀ l ∈ limit, (o + l : Int) ≤ Int64.maxValue.toInt) :
    ∃ h boundary r var client server above,
      Split.splitOne c g block = .ok h ∧
      h.block? block = some server ∧
      h.expr boundary = .receive r ∧ r.input = block ∧
      h.block? client = some above ∧ above.entries = [⟨boundary, var⟩] ∧
      server.offset = none ∧ h.HasWindow server none (windowLimit offset limit) ∧
      (b.offset = none → server.limit = b.limit) ∧
      above.offset = b.offset ∧ above.limit = b.limit ∧ h.HasWindow above offset limit ∧
      ∀ (Row : Type) (le : Row → Row → Bool) (shards : List (List Row)),
        h.windowed above (mergeShards le (shards.map (h.windowed server))) =
          g.windowed b (mergeShards le shards) := by
  obtain ⟨e, he, rfl⟩ := Option.map_eq_some_iff.1 hdomain
  let x : SplitSite := ⟨block, e.var, b, s, t.primaryKey⟩
  have hx : x.IsIn g :=
    { block_eq := hb
      anchored := hanchored
      first := Option.map_eq_some_iff.2 ⟨e, he, rfl⟩
      rowVar := fun h => by cases hdedup.symm.trans h }
  obtain ⟨expanded, server, hp⟩ := hx.exists_server
  have hserver := SplitSite.hasWindow_server hx hp hwindow hfits
  have hclient := SplitSite.hasWindow_client hx hp hwindow
  refine ⟨x.result g, g.size, _, x.var g, x.client g, server, x.clientBlock g,
    Split.splitOne_eq hx hdomain hscan htable rfl hplace (by rw [hneed]; rfl),
    SplitSite.block?_result_block hx hp, SplitSite.expr_result_boundary hx hp, rfl,
    SplitSite.block?_result_client hx, rfl, by rw [hp.server_eq], hserver, hp.limit_eq, rfl, rfl,
    hclient, fun Row le shards => ?_⟩
  have hshards : (x.result g).windowed server =
      fun rows : List Row => window none (windowLimit offset limit) rows :=
    funext hserver.windowed_eq
  rw [hclient.windowed_eq, hwindow.windowed_eq, hshards, window_mergeShards]

/-- A table of two columns. -/
def windowTable : Table :=
  { name := "t"
    fields := [⟨"id", .integer, false, 0⟩, ⟨"a", .integer, true, 1⟩]
    primaryKey := ["id"]
    shardKeyLength := 1
    indexes := [] }

/-- The scan of the table. -/
def windowScan : TableScan := { table := "t", rowType := windowTable.rowType }

/-- `FROM t SELECT id ORDER BY a OFFSET 2 LIMIT 3`, and the nodes of the scan and of the block. -/
def windowSample : Graph × NodeId × NodeId × Block :=
  let (scan, g) := ({} : Graph).add (.scan windowScan)
  let (row, g) := g.addVar "$t" .row
  let (id, g) := g.addField row "id"
  let (a, g) := g.addField row "a"
  let (offset, g) := g.addLiteral (.integer 2)
  let (limit, g) := g.addLiteral (.long 3)
  let b : Block :=
    { entries := [⟨scan, row⟩]
      select := [⟨"id", id⟩]
      sort := [⟨a, .asc⟩]
      offset := some offset
      limit := some limit }
  let (block, g) := g.addDeclaring (.block b) none
  (g, scan, block, b)

theorem Split.splitOne_keeps_window_sorted :
    ∃ h server above client,
      Split.splitOne (({} : Catalog).register windowTable) windowSample.1 windowSample.2.2.1 = .ok h ∧
      h.block? windowSample.2.2.1 = some server ∧ h.block? client = some above ∧
      h.HasWindow server none (some 5) ∧ h.HasWindow above (some 2) (some 3) ∧
      ∀ (Row : Type) (le : Row → Row → Bool) (shards : List (List Row)),
        h.windowed above (mergeShards le (shards.map (h.windowed server))) =
          windowSample.1.windowed windowSample.2.2.2 (mergeShards le shards) := by
  have hwindow : windowSample.1.HasWindow windowSample.2.2.2 (some 2) (some 3) := ⟨rfl, rfl⟩
  have hb : windowSample.1.block? windowSample.2.2.1 = some windowSample.2.2.2 := rfl
  have hscan : windowSample.1.scan? windowSample.2.1 = some windowScan := rfl
  have htable : (({} : Catalog).register windowTable).table windowScan.table = .ok windowTable := rfl
  have hanchored : windowSample.1.Anchored windowSample.2.2.1 := by decide +kernel
  obtain ⟨h, -, -, -, client, server, above, hsplit, hserver, -, -, habove, -, -, hlimit, -, -, -,
      hclient, hrows⟩ :=
    Split.splitOne_keeps_window hb hanchored rfl hscan htable rfl rfl rfl hwindow (by decide)
  exact ⟨h, server, above, client, hsplit, hserver, habove, hlimit, hclient, hrows⟩

end ShardedQuery
