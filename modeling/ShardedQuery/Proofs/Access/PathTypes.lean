import Mathlib.Logic.Function.Iterate
import ShardedQuery.Proofs.Access.Chains
import ShardedQuery.Proofs.Access.Mismatch

/-!
# Types of paths

The type of an index field is found when the path of the index is resolved, the type of a path of a
query by the typing rules. Where the index path meets the query path, the steps of the two lead to
the same items, but for arrays that the query path does not open (`target_of_matchSteps`). The typing
rules follow the steps except for a bracket step over a map, which keeps the map, and for the keys of
JSON, which are strings. So a path without these has the type of the index field unless it ends in
an array (`Index.exprType_eq_typeAt_iff`).
-/

namespace ShardedQuery

open List

variable {g : Graph} {p : IndexPath} {next last t : ItemType} {steps : List Navigation}
  {base id : NodeId} {text table : String}

/-! ## Arrays of arrays -/

namespace ItemType

theorem fieldType?_array (name : String) (t : ItemType) (k : Nat) :
    (array^[k] t).fieldType? name = t.fieldType? name := by
  induction k with
  | zero => rfl
  | succ k ih => rw [Function.iterate_succ_apply', fieldType?, ih]

theorem isArray_array_iff (ht : t.isArray = false) (k : Nat) :
    (array^[k] t).isArray = false ↔ k = 0 := by
  cases k with
  | zero => exact ⟨fun _ => rfl, fun _ => ht⟩
  | succ k =>
    rw [Function.iterate_succ_apply']
    constructor <;> intro h <;> cases h

/-- The type of an index field: atomic or JSON. -/
def isIndexed (t : ItemType) : Bool := t.isAtomic || t = json

theorem isArray_of_isIndexed (h : t.isIndexed) : t.isArray = false := by
  cases t with
  | array e => cases h
  | _ => rfl

theorem array_eq_iff (ht : t.isArray = false) (k : Nat) : array^[k] t = t ↔ k = 0 := by
  refine ⟨fun h => ?_, fun h => by rw [h]; rfl⟩
  rw [← isArray_array_iff ht, h, ht]

/-- There is a constant that can be compared with items of the one type and not of the other. -/
theorem exists_comparable_ne (h : t.isIndexed) (e : ItemType) :
    ∃ c, comparable (array e) c ≠ comparable t c := by
  cases t with
  | anyAtomic | json | integer | long | double | number => exact ⟨integer, Bool.false_ne_true⟩
  | boolean => exact ⟨boolean, Bool.false_ne_true⟩
  | string => exact ⟨string, Bool.false_ne_true⟩
  | timestamp => exact ⟨timestamp, Bool.false_ne_true⟩
  | binary => exact ⟨binary, Bool.false_ne_true⟩
  | _ => cases h

theorem comparable_array_iff (h : t.isIndexed) (k : Nat) :
    (∀ c, comparable (array^[k] t) c = comparable t c) ↔ k = 0 := by
  cases k with
  | zero => exact ⟨fun _ => rfl, fun _ _ => rfl⟩
  | succ k =>
    rw [Function.iterate_succ_apply']
    obtain ⟨c, hc⟩ := exists_comparable_ne h (array^[k] t)
    exact ⟨fun hall => absurd (hall c) hc, fun h => by cases h⟩

end ItemType

/-! ## Index paths -/

/-- One step of an index path leads from items of one type to items of another. -/
inductive PathStep.LeadsTo : PathStep → ItemType → ItemType → Prop
  | json (s : PathStep) : LeadsTo s .json .json
  | field {name : String} {t next : ItemType} (hnext : t.fieldType? name = some next) :
    LeadsTo (.field name) t next
  | elements (e : ItemType) : LeadsTo .elements (.array e) e
  | values (v : ItemType) : LeadsTo .values (.map v) v
  | keys (v : ItemType) : LeadsTo .keys (.map v) .string

/-- The steps of an index path lead from items of one type to items of another. -/
inductive PathStep.Leads : List PathStep → ItemType → ItemType → Prop
  | nil (t : ItemType) : Leads [] t t
  | cons {s : PathStep} {rest : List PathStep} {t next last : ItemType} (hs : s.LeadsTo t next)
      (hrest : Leads rest next last) : Leads (s :: rest) t last

theorem PathStep.leadsTo_of_resolve {s stored : PathStep}
    (h : s.resolve table text t = .ok (stored, next)) : stored.LeadsTo t next := by
  unfold resolve at h
  split at h
  · cases h
    exact .json _
  · split at h
    · next hnext =>
      cases h
      exact .field hnext
    · cases h
  · split at h
    · next hnext =>
      cases h
      exact .field hnext
    · cases h
  · cases h
    exact .elements _
  · cases h
    exact .values _
  · cases h
    exact .values _
  · cases h
    exact .keys _
  · cases h

theorem PathStep.leads_of_resolveAll {steps stored : List PathStep}
    (h : resolveAll table text steps t = .ok (stored, last)) : Leads stored t last := by
  induction steps generalizing t stored with
  | nil =>
    cases h
    exact .nil _
  | cons s steps ih =>
    obtain ⟨⟨s', next⟩, hs, h⟩ := ok_of_bind h
    obtain ⟨⟨tail, last'⟩, htail, h⟩ := ok_of_bind h
    cases h
    exact .cons (leadsTo_of_resolve hs) (ih htail)

theorem IndexPath.leads_of_resolve {row : ItemType} {stored : IndexPath}
    (h : p.resolve table row = .ok (stored, last)) :
    PathStep.Leads stored.steps row last ∧ last.isIndexed := by
  obtain ⟨⟨steps, last'⟩, hall, h⟩ := ok_of_bind h
  dsimp only at h
  split at h
  · next hindexed =>
    cases h
    exact ⟨PathStep.leads_of_resolveAll hall, hindexed⟩
  · cases h

/-- The paths of the indexes of a table lead from its rows to items of the types of their fields. -/
theorem Table.IsBuilt.leads {t : Table} (ht : t.IsBuilt) {i : Index} (hi : i ∈ t.indexes)
    {pos : Nat} (hp : i.paths[pos]? = some p) :
    PathStep.Leads p.steps t.rowType (i.typeAt pos) ∧ (i.typeAt pos).isIndexed := by
  obtain ⟨d, -, hbuilds⟩ := ht.exists_draft
  obtain ⟨e, -, hbuild⟩ := exists_of_forall₂ hbuilds.indexes hi
  obtain ⟨paths, resolved, -, hresolved, rfl⟩ := Index.exists_of_build hbuild
  rw [getElem?_map, Option.map_eq_some_iff] at hp
  obtain ⟨⟨stored, last⟩, hr, rfl⟩ := hp
  obtain ⟨p, -, hresolve⟩ := exists_of_forall₂ hresolved (mem_of_getElem? hr)
  have htype : (Index.mk e.1 d.name (resolved.map (·.1)) (resolved.map (·.2))).typeAt pos = last := by
    rw [Index.typeAt, getD_eq_getElem?_getD, getElem?_map, hr]
    rfl
  rw [htype]
  exact IndexPath.leads_of_resolve hresolve

/-! ## Query paths -/

/-- Where a step leads from items of a type, by the rules of index paths. A field step opens the
arrays on its way, and JSON may hold anything. -/
def QueryStep.target : QueryStep → ItemType → ItemType
  | _, .json => .json
  | field name, t => (t.fieldType? name).getD .empty
  | elements _, t => t.iterated
  | keys _, _ => .string
  | values _, t => t.elementType

theorem QueryStep.target_field (name : String) (t : ItemType) :
    (field name).target t = (t.fieldType? name).getD .empty := by
  cases t <;> rfl

theorem QueryStep.target_elements (restricted : Bool) (t : ItemType) :
    (elements restricted).target t = t.iterated := by
  cases t <;> rfl

theorem QueryStep.target_values (restricted : Bool) (t : ItemType) :
    (values restricted).target t = t.elementType := by
  cases t <;> rfl

theorem QueryStep.target_keys (restricted : Bool) (ht : t ≠ .json) :
    (keys restricted).target t = .string := by
  cases t with
  | json => exact absurd rfl ht
  | _ => rfl

/-- Where the steps of a path lead. -/
def pathTarget (t : ItemType) (steps : List Navigation) : ItemType :=
  steps.foldl (fun t n => n.step.target t) t

theorem QueryStep.target_field_array {name : String} (h : (PathStep.field name).LeadsTo t next)
    (k : Nat) : (field name).target (ItemType.array^[k] t) = next := by
  rw [target_field, ItemType.fieldType?_array]
  cases h with
  | json => rfl
  | field hnext => rw [hnext, Option.getD_some]

/-- Where an index path and a query path meet, they lead to the same items, but for arrays that the
query path does not open. The query may be in arrays when it starts: the index has opened them, and
the field step of the query that comes next opens them on its way. -/
theorem target_of_matchSteps {path : List PathStep} {qs : List Navigation} {ended : ItemType}
    {found m : PathMatch} (h : matchSteps false path qs ended found = some m)
    (hpath : PathStep.Leads path t last) {k : Nat}
    (hk : k = 0 ∨ ∀ n ∈ qs.head?, ∃ name, n.step = .field name) :
    ∃ j, pathTarget (ItemType.array^[k] t) qs = ItemType.array^[j] last := by
  fun_induction matchSteps false path qs ended found generalizing t k with
  | case1 =>
    cases hpath
    exact ⟨k, rfl⟩
  | case3 s rest ended found hs ih =>
    obtain ⟨rfl, -⟩ := hs
    cases hpath with
    | cons hstep hrest =>
      cases hstep with
      | json => exact ih h hrest (.inr fun n hn => by cases hn)
      | elements e => exact ih (k := k + 1) h hrest (.inr fun n hn => by cases hn)
  | case5 rest q qs ended found name hq ih =>
    cases hpath with
    | cons hstep hrest =>
      obtain ⟨j, hj⟩ := ih (k := 0) h hrest (.inl rfl)
      refine ⟨j, ?_⟩
      rw [pathTarget, foldl_cons, hq, QueryStep.target_field_array hstep]
      exact hj
  | case7 rest q qs ended found name hq _ ih =>
    have hnext : ∀ n ∈ (q :: qs).head?, ∃ name, n.step = .field name := by
      rintro n ⟨⟩
      exact ⟨name, hq⟩
    cases hpath with
    | cons hstep hrest =>
      cases hstep with
      | json => exact ih h hrest (.inr hnext)
      | elements e => exact ih (k := k + 1) h hrest (.inr hnext)
  | case9 rest q qs ended found restricted hq ih
  | case10 rest q qs ended found restricted hq ih
  | case11 rest q qs ended found restricted hq ih =>
    -- No array is open where a step other than a field comes next.
    obtain rfl : k = 0 := hk.resolve_right fun hnext => by
      obtain ⟨name, hname⟩ := hnext q rfl
      cases hq.symm.trans hname
    cases hpath with
    | cons hstep hrest =>
      obtain ⟨j, hj⟩ := ih (k := 0) h hrest (.inl rfl)
      refine ⟨j, ?_⟩
      rw [pathTarget, foldl_cons, hq]
      cases hstep <;> exact hj
  | case12 _ _ _ _ _ _ _ hkey => cases hkey
  | case2 | case4 | case6 | case8 | case13 | case14 => cases h

/-! ## Inferred types -/

theorem SeqType.item_fieldStep (s : SeqType) (name : String) :
    (s.fieldStep name).item = (s.item.fieldType? name).getD .empty := by
  unfold fieldStep
  cases s.item.fieldType? name <;> rfl

namespace Graph

/-- A node is no bracket step over a map and does not take the keys of JSON. -/
def isRegular (g : Graph) (id : NodeId) : Bool :=
  match g.expr id with
  | .filter input _ _ => !(g.exprType input).item.isMap
  | .mapFilter .keys input _ _ => (g.exprType input).item ≠ .json
  | _ => true

/-- The path to the first node goes through the second one: along its steps, and from a FROM variable
to its domain. -/
def IsOnPath (g : Graph) : NodeId → NodeId → Prop :=
  Relation.ReflTransGen fun v u => (∃ step, g.navigation? v = some (step, u)) ∨ g.domain? v = some u

theorem Climbs.isOnPath (h : g.Climbs base id steps) : g.IsOnPath id base := by
  induction h with
  | base => exact .refl
  | step hnav _ ih => exact .head (.inl ⟨_, hnav⟩) ih

section
variable {rank : NodeId → Nat} (ho : g.Ordered rank) (hcurrent : ∀ v, g.IsCurrent v)
include ho hcurrent

/-- The typing rule of a regular step follows the step. -/
theorem Ordered.item_of_navigation? {input : NodeId} {step : QueryStep}
    (hnav : g.navigation? id = some (step, input)) (hreg : g.isRegular id) :
    (g.exprType id).item = step.target (g.exprType input).item := by
  rw [ho.exprType_of_current (hcurrent id), derivedType, typeRule]
  unfold navigation? at hnav
  unfold isRegular at hreg
  split at hnav
  · next he =>
    cases hnav
    rw [he, QueryStep.target_field, SeqType.item_fieldStep]
  · next input' condition _ he =>
    simp only [he, Bool.not_eq_true'] at hreg
    rw [hreg, if_neg Bool.false_ne_true] at hnav
    cases hnav
    rw [he, QueryStep.target_elements]
    rfl
  · next he =>
    cases hnav
    rw [he, QueryStep.target_elements]
    rfl
  · next he =>
    cases hnav
    simp only [he, decide_eq_true_eq] at hreg
    rw [he, QueryStep.target_keys _ hreg]
    rfl
  · next he =>
    cases hnav
    rw [he, QueryStep.target_values]
    rfl
  · cases hnav

/-- The types along a chain of regular steps follow the steps. -/
theorem Ordered.item_of_climbs (h : g.Climbs base id steps)
    (hreg : ∀ v, g.IsOnPath id v → g.isRegular v) :
    (g.exprType id).item = pathTarget (g.exprType base).item steps := by
  induction h with
  | base => rfl
  | step hnav _ ih =>
    rw [ho.item_of_navigation? hcurrent hnav (hreg _ .refl),
      ih fun v hv => hreg v (.head (.inl ⟨_, hnav⟩) hv), pathTarget, pathTarget, foldl_append]
    rfl

theorem Ordered.item_of_domain? {u d : NodeId} {y : Variable} (hu : g.expr u = .var y)
    (hkind : y.kind = .row) (hd : g.domain? u = some d) :
    (g.exprType u).item = (g.exprType d).item := by
  rw [ho.exprType_of_current (hcurrent u), derivedType, typeRule, hu]
  simp only [varSource?, var?, hu, hkind, hd]
  rfl

/-- The type of a path of regular steps is where its steps lead from the row. -/
theorem Ordered.item_of_queryPath? {rowVar : NodeId} {q : QueryPath}
    (hq : g.queryPath? rowVar id = some q) (hreg : ∀ v, g.IsOnPath id v → g.isRegular v) :
    (g.exprType id).item = pathTarget (g.exprType rowVar).item q.steps := by
  obtain ⟨x, -, ⟨-, hclimbs⟩ |
    ⟨u, y, d, taken, rest, -, -, hu, hkind, -, hd, hrest, htaken, hall⟩⟩ := climbs_of_queryPath? hq
  · exact ho.item_of_climbs hcurrent hclimbs hreg
  · have hback : g.IsOnPath id u := hrest.isOnPath
    have hdomain := ho.item_of_climbs hcurrent htaken
      fun v hv => hreg v (hback.trans (.head (.inr hd) hv))
    rw [ho.item_of_climbs hcurrent hrest hreg, ho.item_of_domain? hcurrent hu hkind hd, hdomain, hall,
      pathTarget, pathTarget, pathTarget, foldl_append]

end

end Graph

/-! ## Agreement -/

/-- Where an index path meets a path of a query, the steps of the path lead to the type of the index
field, inside of arrays. If no step is a bracket step over a map or takes the keys of JSON, this
is the type of the path. Then it is the type of the index field, and the two can be compared with the
same constants, just if the path does not end in an array. -/
theorem Index.exprType_eq_typeAt_iff {t : Table} (ht : t.IsBuilt) {i : Index} (hi : i ∈ t.indexes)
    {pos : Nat} {p : IndexPath} (hp : i.paths[pos]? = some p) {g : Graph} {rank : NodeId → Nat}
    (ho : g.Ordered rank) (hcurrent : ∀ v, g.IsCurrent v) {rowVar id : NodeId}
    (hrow : (g.exprType rowVar).item = t.rowType) {q : QueryPath}
    (hq : g.queryPath? rowVar id = some q) {m : PathMatch} (hm : q.matchPath p false = some m) :
    (∃ k, pathTarget t.rowType q.steps = ItemType.array^[k] (i.typeAt pos)) ∧
    ((∀ v, g.IsOnPath id v → g.isRegular v) →
      (g.exprType id).item = pathTarget t.rowType q.steps ∧
      ((g.exprType id).item = i.typeAt pos ↔ (g.exprType id).item.isArray = false) ∧
      ((∀ c, (g.exprType id).item.comparable c = (i.typeAt pos).comparable c) ↔
        (g.exprType id).item.isArray = false)) := by
  obtain ⟨hleads, hindexed⟩ := ht.leads hi hp
  obtain ⟨k, hk⟩ := target_of_matchSteps hm hleads (k := 0) (.inl rfl)
  refine ⟨⟨k, hk⟩, fun hreg => ?_⟩
  have htype := ho.item_of_queryPath? hcurrent hq hreg
  rw [hrow] at htype
  refine ⟨htype, ?_⟩
  have hplain := ItemType.isArray_of_isIndexed hindexed
  rw [htype, show pathTarget t.rowType q.steps = _ from hk, ItemType.isArray_array_iff hplain]
  exact ⟨ItemType.array_eq_iff hplain k, ItemType.comparable_array_iff hindexed k⟩

/-! ## Samples -/

/-- On the elements of the arrays in the map `tags` of each record in the array `r`. -/
def nestedIndex : Index :=
  ⟨"ir", "t", [⟨[.field "r", .elements, .field "tags", .values, .elements]⟩], [.long]⟩

/-- Rows have nested collections, each with an index. -/
def nestedTable : Table :=
  idTable [("m", .map .long), ("arr", .array .long), ("j", .json),
      ("r", .array (.record [("tags", .map (.array .long))]))]
    [⟨"im", "t", [⟨[.field "m", .values]⟩], [.long]⟩,
      ⟨"ia", "t", [⟨[.field "arr", .elements]⟩], [.long]⟩,
      ⟨"ij", "t", [⟨[.field "j", .keys]⟩], [.json]⟩, nestedIndex]

theorem isBuilt_nestedTable : nestedTable.IsBuilt :=
  ⟨"t", [.field "id" .integer, .field "m" (.map .long), .field "arr" (.array .long),
    .field "j" .json, .field "r" (.array (.record [("tags", .map (.array .long))])),
    .primaryKey ["id"], .index "im" ["m[]"], .index "ia" ["arr[]"], .index "ij" ["j.keys()"],
    .index "ir" ["r[].tags[][]"]], _, rfl, by decide +kernel⟩

/-- `FROM t, t.r.tags.values() AS u WHERE u[] =any 5`: the brackets after `r` are left out. -/
def nestedPath : Graph :=
  (Layout.script ⟨[nestedTable]⟩
    [.draft, .scanTable "t" "t" [], .value (.field 1 "r"), .value (.field 2 "tags"),
      .pathStep (.mapFilter .values 3 none []), .rangeOver 4 "u", .pathStep (.filter 5 none []),
      .value (.literal (.integer 5)), .value (.call (.compare .eq true) [6, 7]), .restrict 8,
      .build]).graph

theorem Index.exprType_eq_typeAt_iff_nested :
    nestedIndex ∈ nestedTable.indexes ∧
    ∃ q p, nestedPath.queryPath? 1 6 = some q ∧ nestedIndex.paths[0]? = some p ∧
      q.unnested = some 5 ∧ q.matchPath p false = some ⟨false, none⟩ ∧
      (nestedPath.exprType 6).item = nestedIndex.typeAt 0 ∧
      ∀ c, (nestedPath.exprType 6).item.comparable c = (nestedIndex.typeAt 0).comparable c := by
  have hlaid : nestedPath.IsLaid := Layout.isLaid_script _ _
  have hregular (v : NodeId) : nestedPath.isRegular v := by
    rcases Nat.lt_or_ge v nestedPath.size with hlt | hge
    · exact (by decide +kernel : ∀ v < nestedPath.size, nestedPath.isRegular v) v hlt
    · rw [Graph.isRegular, Graph.expr_of_size_le hge]
  have hfound : (nestedPath.queryPath? 1 6).any fun q => q.unnested = some 5 ∧
      q.matchPath ⟨[.field "r", .elements, .field "tags", .values, .elements]⟩ false =
        some ⟨false, none⟩ := by decide +kernel
  obtain ⟨q, hq, hmeets⟩ := (Option.any_eq_true _ _).1 hfound
  obtain ⟨hu, hm⟩ := of_decide_eq_true hmeets
  have hi : nestedIndex ∈ nestedTable.indexes := by decide +kernel
  have hp : nestedIndex.paths[0]? = some _ := rfl
  obtain ⟨-, hall⟩ := exprType_eq_typeAt_iff isBuilt_nestedTable hi hp hlaid.ordered hlaid.isCurrent
    (by decide +kernel) hq hm
  obtain ⟨-, htype, hcomparable⟩ := hall fun v _ => hregular v
  have hplain : (nestedPath.exprType 6).item.isArray = false := by decide +kernel
  exact ⟨hi, q, _, hq, hp, hu, hm, htype.2 hplain, hcomparable.2 hplain⟩

/-- The type of a path that exactly meets the first field of an index, and the type of this field. -/
def Index.metTypes? (i : Index) (g : Graph) (rowVar id : NodeId) :
    Option (ItemType × ItemType) := do
  let q ← g.queryPath? rowVar id
  let p ← i.paths[0]?
  if q.isExactly p then some ((g.exprType id).item, i.typeAt 0) else none

/-- `m[] =any 5`, with the further paths `arr` and `j.keys()`. -/
def irregularPaths : Graph :=
  (Layout.script ⟨[nestedTable]⟩
    [.draft, .scanTable "t" "t" [], .value (.field 1 "m"), .pathStep (.filter 2 none []),
      .value (.field 1 "arr"), .value (.field 1 "j"), .pathStep (.mapFilter .keys 5 none []),
      .value (.literal (.integer 5)), .value (.call (.compare .eq true) [3, 7]), .restrict 8,
      .build]).graph

/-- A bracket step over a map, an array at the end of a path and the keys of JSON have other types
than the index fields that they meet. The first comparison is refused for the type of the path, and
the type of the index field would have let it pass. -/
theorem Index.exprType_ne_typeAt :
    (nestedTable.index? "im").bind (·.metTypes? irregularPaths 1 3) = some (.map .long, .long) ∧
    (nestedTable.index? "ia").bind (·.metTypes? irregularPaths 1 4) = some (.array .long, .long) ∧
    (nestedTable.index? "ij").bind (·.metTypes? irregularPaths 1 6) = some (.string, .json) ∧
    mismatch? irregularPaths 1 8 = some (.map .long, .integer) ∧
    ItemType.comparable .long .integer := by
  decide +kernel

end ShardedQuery
