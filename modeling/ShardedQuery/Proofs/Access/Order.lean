import ShardedQuery.Proofs.Access.Chains
import ShardedQuery.Proofs.Access.CompleteKey

/-!
# Order by index

A block may leave its sort to the scan. It does so if its sort keys are the first fields of the index
that is scanned (`FollowsIndex`). Rows that come in the order of the index are then in the order
that the block asks for (`FollowsIndex.isSorted`), whatever the order of values is.
-/

namespace ShardedQuery

open List

variable {g h : Graph} {id rowVar : NodeId} {b : Block} {t : Table} {path : AccessPath}
  {reverse : Bool} {keys : List SortKey} {names : List String} {pos : Nat} {site : Site}
  {s : TableScan}

open ShardedQuery.Graph

/-! ## Rows in order -/

namespace Value

/-- What a record has under a name. -/
def entry (name : String) : Value → Value
  | .map entries => (entries.lookup name).getD .null
  | _ => .null

/-- What a chain of fields leads to. -/
def follow (v : Value) (names : List String) : Value := names.foldl (fun v name => v.entry name) v

end Value

/-- How two values of a sort key stand to each other, given an order of the values that are not
null. -/
def SortSpec.cmp (cmp : Value → Value → Ordering) (s : SortSpec) (x y : Value) : Ordering :=
  match x.isNull, y.isNull with
  | true, true => .eq
  | true, false => if s.nullsFirst then .lt else .gt
  | false, true => if s.nullsFirst then .gt else .lt
  | false, false => if s.desc then cmp y x else cmp x y

/-- Sort keys compare one after the other. -/
def cmpKeys (cmp : Value → Value → Ordering) : List SortSpec → List Value → List Value → Ordering
  | s :: specs, x :: xs, y :: ys => (s.cmp cmp x y).then (cmpKeys cmp specs xs ys)
  | _, _, _ => .eq

section
variable {cmp : Value → Value → Ordering} {specs : List SortSpec} {xs ys : List Value}

theorem cmpKeys_take : ∀ (specs : List SortSpec) (xs ys : List Value),
    cmpKeys cmp specs (xs.take specs.length) (ys.take specs.length) = cmpKeys cmp specs xs ys
  | [], _, _ => by simp [cmpKeys]
  | _ :: _, [], _ => by simp [cmpKeys]
  | _ :: _, _ :: _, [] => by simp [cmpKeys]
  | s :: specs, x :: xs, y :: ys => by
    simp only [length_cons, take_succ_cons, cmpKeys, cmpKeys_take specs xs ys]

/-- Going down is going up from the other end. -/
theorem SortSpec.cmp_descending (x y : Value) :
    SortSpec.descending.cmp cmp x y = SortSpec.asc.cmp cmp y x := by
  cases hx : x.isNull <;> cases hy : y.isNull <;> simp [SortSpec.cmp, hx, hy, descending, asc]

theorem SortSpec.eq_of_hasNaturalNulls {s : SortSpec} (h : s.hasNaturalNulls) :
    s = if s.desc then .descending else .asc := by
  obtain ⟨desc, nullsFirst⟩ := s
  cases desc <;> cases nullsFirst <;> first | rfl | cases h

theorem SortSpec.cmp_eq {s : SortSpec} (hdesc : s.desc = reverse)
    (hnulls : s.hasNaturalNulls) (x y : Value) : s.cmp cmp x y =
      SortSpec.asc.cmp cmp (if reverse then y else x) (if reverse then x else y) := by
  rw [eq_of_hasNaturalNulls hnulls, hdesc]
  cases reverse with
  | false => rfl
  | true => exact cmp_descending x y

/-- The order of all fields of an index refines the order of the first ones, in both directions. -/
theorem cmpKeys_ne_gt {n : Nat} (hlen : specs.length ≤ n)
    (hspecs : ∀ s ∈ specs, s.desc = reverse ∧ s.hasNaturalNulls)
    (h : cmpKeys cmp (List.replicate n .asc) (if reverse then ys else xs)
      (if reverse then xs else ys) ≠ .gt) : cmpKeys cmp specs xs ys ≠ .gt := by
  induction specs generalizing n xs ys with
  | nil => simp [cmpKeys]
  | cons s specs ih =>
    cases n with
    | zero => cases hlen
    | succ n =>
      cases xs with
      | nil => simp [cmpKeys]
      | cons x xs =>
        cases ys with
        | nil => simp [cmpKeys]
        | cons y ys =>
          obtain ⟨hdesc, hnulls⟩ := hspecs s (.head _)
          have hsplit : (s.cmp cmp x y).then (cmpKeys cmp (List.replicate n .asc)
              (if reverse then ys else xs) (if reverse then xs else ys)) ≠ .gt := by
            rw [SortSpec.cmp_eq hdesc hnulls]
            cases reverse <;> exact h
          rw [cmpKeys]
          cases hcmp : s.cmp cmp x y with
          | lt => exact Ordering.noConfusion
          | eq =>
            rw [hcmp] at hsplit
            exact ih (Nat.le_of_succ_le_succ hlen)
              (fun s hs => hspecs s (.tail _ hs)) hsplit
          | gt => exact absurd (congrArg (Ordering.then · _) hcmp) hsplit

end

namespace Graph

/-- The node takes a value from a row, by field steps. -/
inductive Gives (g : Graph) (rowVar : NodeId) (row : Value) : NodeId → Value → Prop
  | row : Gives g rowVar row rowVar row
  | field {id input : NodeId} {name : String} {v : Value} (he : g.expr id = .field input name)
      (hinput : Gives g rowVar row input v) : Gives g rowVar row id (v.entry name)

/-- The rows are in the order that sort keys ask for. -/
def IsSorted (g : Graph) (cmp : Value → Value → Ordering) (rowVar : NodeId) (keys : List SortKey)
    (rows : List Value) : Prop :=
  rows.Pairwise fun r₁ r₂ => ∃ xs ys,
    Forall₂ (fun k x => g.Gives rowVar r₁ k.expr x) keys xs ∧
      Forall₂ (fun k y => g.Gives rowVar r₂ k.expr y) keys ys ∧
      cmpKeys cmp (keys.map (·.spec)) xs ys ≠ .gt

theorem IsFieldChain.gives (h : g.IsFieldChain rowVar id names) (row : Value) :
    g.Gives rowVar row id (row.follow names) := by
  induction h with
  | base => exact .row
  | field he _ ih =>
    rw [Value.follow, foldl_append]
    exact .field he ih

end Graph

/-- The rows come in the order of an index without fan-out, field after field with nulls last, or in
the opposite order. -/
def AccessPath.IsScanned (path : AccessPath) (cmp : Value → Value → Ordering) (reverse : Bool)
    (rows : List Value) : Prop :=
  let fieldsOf (row : Value) : List Value := path.fields.map fun f => row.follow f.path.names
  let before (r₁ r₂ : Value) : Prop :=
    cmpKeys cmp (path.fields.map fun _ => .asc) (fieldsOf r₁) (fieldsOf r₂) ≠ .gt
  rows.Pairwise fun r₁ r₂ => if reverse then before r₂ r₁ else before r₁ r₂

/-! ## Sort keys that follow an index -/

namespace Graph

/-- The sort keys are the first fields of an index without fan-out, all in one direction and with
nulls where the index has them. -/
structure FollowsIndex (g : Graph) (rowVar : NodeId) (path : AccessPath) (reverse : Bool)
    (keys : List SortKey) : Prop where
  single : path.isMultiKey = false
  length_le : keys.length ≤ path.fields.length
  key : ∀ (i : Nat) k, keys[i]? = some k → ∃ f, path.fields[i]? = some f ∧
    f.path.steps = f.path.names.map .field ∧ g.IsFieldChain rowVar k.expr f.path.names
  spec : ∀ k ∈ keys, k.spec.desc = reverse ∧ k.spec.hasNaturalNulls

theorem IsFieldChain.keep (hk : g.Keeps Expr.IsSteady h) (hid : g.IsFieldChain rowVar id names) :
    h.IsFieldChain rowVar id names := by
  induction hid with
  | base => exact .base
  | field he _ ih => exact .field (hk.expr_of_eq he (by simp) ⟨rfl, rfl, rfl⟩) ih

theorem FollowsIndex.keep (hk : g.Keeps Expr.IsSteady h)
    (hf : g.FollowsIndex rowVar path reverse keys) : h.FollowsIndex rowVar path reverse keys :=
  { hf with
    key := fun i k hi => by
      obtain ⟨f, hf, hsteps, hchain⟩ := hf.key i k hi
      exact ⟨f, hf, hsteps, hchain.keep hk⟩ }

/-- Of two lists, the members of the first are related to those at the same places of the second. -/
theorem forall₂_take {α β : Type} {R : α → β → Prop} : ∀ {as : List α} {bs : List β},
    (∀ (i : Nat) a, as[i]? = some a → ∃ b, bs[i]? = some b ∧ R a b) →
      Forall₂ R as (bs.take as.length)
  | [], bs, _ => by simp
  | a :: as, bs, h => by
    obtain ⟨b, hb, hab⟩ := h 0 a rfl
    cases bs with
    | nil => cases hb
    | cons b' bs =>
      cases hb
      exact .cons hab (forall₂_take fun i a ha => h (i + 1) a ha)

/-- Rows in the order of the index are in the order that is asked for. -/
theorem FollowsIndex.isSorted (hf : g.FollowsIndex rowVar path reverse keys)
    {cmp : Value → Value → Ordering} {rows : List Value} (hrows : path.IsScanned cmp reverse rows) :
    g.IsSorted cmp rowVar keys rows := by
  have hvalues (row : Value) : Forall₂ (fun k x => g.Gives rowVar row k.expr x) keys
      ((path.fields.map fun f => row.follow f.path.names).take keys.length) := by
    refine forall₂_take fun i k hi => ?_
    obtain ⟨f, hf, -, hchain⟩ := hf.key i k hi
    exact ⟨_, by rw [getElem?_map, hf]; rfl, hchain.gives row⟩
  refine List.Pairwise.imp (fun {r₁ r₂} hbefore => ?_) hrows
  refine ⟨_, _, hvalues r₁, hvalues r₂, ?_⟩
  have hlen : (keys.map (·.spec)).length = keys.length := length_map _
  rw [← hlen, cmpKeys_take]
  have hspecs : ∀ s ∈ keys.map (·.spec), s.desc = reverse ∧ s.hasNaturalNulls := by
    intro s hs
    obtain ⟨k, hk, rfl⟩ := mem_map.1 hs
    exact hf.spec k hk
  refine cmpKeys_ne_gt (n := path.fields.length) (hlen ▸ hf.length_le) hspecs ?_
  rw [map_const'] at hbefore
  cases reverse <;> exact hbefore

end Graph

/-! ## Decisions -/

namespace AccessPath

/-- An expression that is found in an index is a chain of fields. -/
theorem isFieldChain_of_position? (hpath : path ∈ all t) (h : path.position? g rowVar id = some pos) :
    ∃ f, path.fields[pos]? = some f ∧ f.path.steps = f.path.names.map .field ∧
      g.IsFieldChain rowVar id f.path.names := by
  obtain ⟨q, hq, h⟩ := Option.bind_eq_some_iff.1 h
  split at h
  · cases h
  · next hunnested =>
    obtain ⟨hlt, hholds, -⟩ := findIdx?_eq_some_iff_getElem.1 h
    obtain ⟨x, -, ⟨hnone, hclimbs⟩ | ⟨u, y, d, taken, rest, hsome, -⟩⟩ := climbs_of_queryPath? hq
    · exact ⟨_, getElem?_eq_getElem hlt,
        isFieldChain_of_holds hpath (getElem_mem hlt) hholds hclimbs⟩
    · rw [hsome] at hunnested
      exact absurd rfl hunnested

end AccessPath

theorem keysFollow_of_getElem? {desc : Bool} (h : keysFollow g path rowVar desc pos keys) {i : Nat}
    {k : SortKey} (hi : keys[i]? = some k) : k.spec.desc = desc ∧ k.spec.hasNaturalNulls ∧
      path.position? g rowVar k.expr = some (pos + i) := by
  induction keys generalizing pos i with
  | nil => cases hi
  | cons first keys ih =>
    simp only [keysFollow, Bool.and_eq_true, beq_iff_eq] at h
    obtain ⟨⟨⟨hdesc, hnulls⟩, hpos⟩, hrest⟩ := h
    cases i with
    | zero =>
      cases hi
      exact ⟨hdesc, hnulls, hpos⟩
    | succ i =>
      have hk := ih hrest hi
      rw [Nat.add_assoc, Nat.add_comm 1 i] at hk
      exact hk

/-- An access path that delivers the order of a block. -/
theorem followsIndex_of_deliversOrder? (hpath : path ∈ AccessPath.all t)
    (hb : g.block? site.block = some b) (h : deliversOrder? g site path = some reverse) :
    g.FollowsIndex site.rowVar path reverse b.sort := by
  simp only [deliversOrder?, hb, Option.bind_eq_bind, Option.bind_some,
    Option.bind_eq_some_iff] at h
  obtain ⟨first, -, h⟩ := h
  split at h
  · next hfollow =>
    cases h
    obtain ⟨hsingle, hkeys⟩ := Bool.and_eq_true_iff.1 hfollow
    have hkey (i : Nat) (k : SortKey) (hi : b.sort[i]? = some k) : ∃ f, path.fields[i]? = some f ∧
        f.path.steps = f.path.names.map .field ∧
        g.IsFieldChain site.rowVar k.expr f.path.names := by
      have hpos := (keysFollow_of_getElem? hkeys hi).2.2
      rw [Nat.zero_add] at hpos
      exact AccessPath.isFieldChain_of_position? hpath hpos
    refine ⟨by simpa using hsingle, ?_, hkey, fun k hk => ?_⟩
    · by_contra hlt
      have hlt := Nat.lt_of_not_le hlt
      obtain ⟨f, hf, -⟩ := hkey _ _ (getElem?_eq_getElem hlt)
      rw [getElem?_eq_none le_rfl] at hf
      cases hf
    · obtain ⟨i, hi⟩ := mem_iff_getElem?.1 hk
      obtain ⟨hdesc, hnulls, -⟩ := keysFollow_of_getElem? hkeys hi
      exact ⟨hdesc, hnulls⟩
  · cases h

/-! ## Carrying out -/

theorem Graph.Sound.siteScans {scan : NodeId} (hg : g.Sound) (hb : g.block? site.block = some b)
    (hs : g.scan? scan = some s) :
    site.Scans g scan where
  isBlock := by rw [hb]; rfl
  isScan := by rw [hs]; rfl
  condition_lt := by
    obtain ⟨rank, ho⟩ := hg.ordered
    have hexpr := block?_eq_some.1 hb
    intro c hc
    have hcondition : b.condition = some c := by rwa [hb] at hc
    refine ho.mem site.block c (mem_uses_of_child (by rw [hexpr]; rfl) ?_)
    rw [children, hexpr]
    simp [Expr.children, hcondition]

namespace Selection

variable {c : Catalog} {o : Options} {block : NodeId}

/-- A block that gives way stays as it was. -/
theorem block?_makeEmpty (hg : g.Sound) (hb : g.block? block = some b) :
    (makeEmpty g block).block? block = some b := by
  obtain ⟨rank, ho⟩ := hg.ordered
  have hexpr := block?_eq_some.1 hb
  have hlt : block < g.size := lt_size_of_expr (by simp [hexpr])
  have hself : (g.expr block).mapChildren (redirect block g.size) = g.expr block := by
    refine Expr.mapChildren_eq_self fun u hu => if_neg ?_
    rintro rfl
    exact (ho.rank_lt u u (mem_uses_of_child (by rw [hexpr]; rfl) hu)).false
  rw [block?_eq_some, expr_makeEmpty hlt, hself, ite_self, hexpr]

theorem keeps_sortByIndex (g : Graph) (block scan : NodeId) (reverse : Bool) :
    g.Keeps Expr.IsSteady (sortByIndex g block scan reverse) :=
  (Keeps.modifyBlock g block _ fun _ h => h.1).trans
    (Keeps.modifyScan _ scan _ fun _ h => h.2.1)

/-- A scan that delivers the order of its block. -/
theorem carryOut_byIndex {a : Analysis} {w : Weights} {e : FromEntry} (hg : g.Sound)
    (hb : g.block? block = some b) (he : b.entries.head? = some e) (hs : g.scan? e.domain = some s)
    (hrun : Analysis.run g t w ⟨block, e.var⟩ path = .ok (some a)) (hpath : path ∈ AccessPath.all t)
    (hdelivers : deliversOrder? g ⟨block, e.var⟩ path = some reverse)
    (hh : carryOut g block (.access t ⟨block, e.var⟩ e.domain a (.byIndex reverse)) = h) :
    ∃ entries condition s', h.block? block =
        some { b with entries := entries, condition := condition, sortByIndex := true } ∧
      entries.head? = some e ∧ h.scan? e.domain = some s' ∧ s'.table = s.table ∧
      s'.index = path.name? ∧ s'.reverse = reverse ∧ h.FollowsIndex e.var path reverse b.sort := by
  have hsite : g.block? (Site.mk block e.var).block = some b := hb
  obtain ⟨entries, hb', hhead, -⟩ := a.block?_apply t e.domain hsite
  have hs' : (a.apply g t ⟨block, e.var⟩ e.domain).scan? e.domain = _ := a.scan?_apply t hs
  have hscans : Site.Scans ⟨block, e.var⟩ g e.domain := hg.siteScans hsite hs
  have hkeeps := ((a.applied t hscans).keeps).trans
    (keeps_sortByIndex (a.apply g t ⟨block, e.var⟩ e.domain) block e.domain reverse)
  have hpath' : a.path = path := (Analysis.isFound_of_run hrun).path_eq
  subst hh
  refine ⟨entries, _, _, block?_sortByIndex hb' e.domain reverse, hhead.trans he,
    scan?_sortByIndex hb' hs' reverse, rfl, ?_, rfl, ?_⟩
  · rw [← hpath']
    rfl
  · exact (followsIndex_of_deliversOrder? hpath hsite hdelivers).keep hkeeps

/-- The order of a block after an access path was chosen for it. If the block leaves its sort to the
scan, the sort keys are the first fields of the index that is scanned, and rows that come in the order
of the scan are in the order that is asked for. Otherwise the sort keys are what they were, or they
are gone. -/
theorem select_order {h : Graph} {b' : Block} (hg : g.Sound) (hb : g.block? block = some b)
    (hbefore : b.sortByIndex = false) (hselect : select c o g block = .ok h)
    (hb' : h.block? block = some b') :
    (b'.sortByIndex → b'.sort = b.sort ∧ ∃ e s t path, b'.entries.head? = some e ∧
      h.scan? e.domain = some s ∧ c.table s.table = .ok t ∧ path ∈ AccessPath.all t ∧
      s.index = path.name? ∧ h.FollowsIndex e.var path s.reverse b'.sort ∧
      ∀ cmp rows, path.IsScanned cmp s.reverse rows → h.IsSorted cmp e.var b'.sort rows) ∧
    (b'.sortByIndex = false → b'.sort ≠ [] → b'.sort = b.sort) := by
  obtain ⟨sel, hdecide, hcarry⟩ := select_eq_ok.1 hselect
  -- A block that keeps its sort, or drops it, leaves nothing to the scan.
  have hrest {P : Prop} (hsort : b'.sort = b.sort ∨ b'.sort = []) (hindex : b'.sortByIndex = false) :
      (b'.sortByIndex → P) ∧ (b'.sortByIndex = false → b'.sort ≠ [] → b'.sort = b.sort) :=
    ⟨fun h => absurd h (by simp [hindex]), fun _ hne => hsort.resolve_right hne⟩
  rcases decide_cases hdecide with rfl | ⟨b₀, e, s, t, hb₀, he, hs, ht, hcase⟩
  · cases hcarry
    cases hb.symm.trans hb'
    exact hrest (.inl rfl) hbefore
  · cases hb.symm.trans hb₀
    rcases hcase with rfl | ⟨path, a, sort, hrun, hpath, hdelivers, rfl⟩
    · cases hcarry
      cases (block?_makeEmpty hg hb).symm.trans hb'
      exact hrest (.inl rfl) hbefore
    · have hsite : g.block? (Site.mk block e.var).block = some b := hb
      obtain ⟨entries, happly, -⟩ := a.block?_apply t e.domain hsite
      cases sort with
      | keep =>
        cases hcarry
        cases happly.symm.trans hb'
        exact hrest (.inl rfl) hbefore
      | drop =>
        cases hcarry
        cases (block?_dropSort happly).symm.trans hb'
        exact hrest (.inr rfl) rfl
      | byIndex reverse =>
        obtain ⟨entries, condition, s', hblock, hhead, hs', htable, hindex, rfl, hfollows⟩ :=
          carryOut_byIndex hg hb he hs hrun hpath (hdelivers reverse rfl) hcarry
        cases hblock.symm.trans hb'
        refine ⟨fun _ => ⟨rfl, e, s', t, path, hhead, hs', htable ▸ ht, hpath, hindex, hfollows, ?_⟩,
          fun h => by cases h⟩
        exact fun cmp rows hrows => hfollows.isSorted hrows

end Selection

/-! ## A sample -/

/-- `d > 2 ORDER BY a DESC, b DESC`, where `a` and `b` are the primary key. -/
def descendingGraph : Graph :=
  (Layout.script ⟨[pairTable]⟩
    [.draft, .scanTable "t" "t" [], .value (.field 1 "a"), .value (.field 1 "b"),
      .value (.field 1 "d"), .value (.literal (.integer 2)),
      .value (.call (.compare .gt false) [4, 5]), .restrict 6, .sort 2 .descending,
      .sort 3 .descending, .build]).graph

theorem select_order_descending :
    ∃ h b, Selection.select ⟨[pairTable]⟩ {} descendingGraph 7 = .ok h ∧ h.block? 7 = some b ∧
      b.sortByIndex ∧ b.sort = [⟨2, .descending⟩, ⟨3, .descending⟩] ∧
      ∃ e s t path, b.entries.head? = some e ∧ h.scan? e.domain = some s ∧
        Catalog.table ⟨[pairTable]⟩ s.table = .ok t ∧ path ∈ AccessPath.all t ∧
        s.index = path.name? ∧ h.FollowsIndex e.var path s.reverse b.sort ∧
        ∀ cmp rows, path.IsScanned cmp s.reverse rows → h.IsSorted cmp e.var b.sort rows := by
  have hlaid : descendingGraph.IsLaid := Layout.isLaid_script _ _
  have hblock : descendingGraph.block? 7 = some
      { entries := [⟨0, 1⟩], condition := some 6, star := true,
        sort := [⟨2, .descending⟩, ⟨3, .descending⟩] } := by decide +kernel
  have hok : ((Selection.select ⟨[pairTable]⟩ {} descendingGraph 7).toOption.bind
      (·.block? 7)).any (·.sortByIndex) := by decide +kernel
  cases hselect : Selection.select ⟨[pairTable]⟩ {} descendingGraph 7 with
  | error e =>
    rw [hselect] at hok
    cases hok
  | ok h =>
    rw [hselect] at hok
    obtain ⟨b, hb, hindex⟩ := (Option.any_eq_true _ _).1 hok
    have hb : h.block? 7 = some b := hb
    obtain ⟨hsort, hrest⟩ := (Selection.select_order hlaid.sound hblock rfl hselect hb).1 hindex
    exact ⟨h, b, rfl, hb, hindex, hsort, hrest⟩

end ShardedQuery
