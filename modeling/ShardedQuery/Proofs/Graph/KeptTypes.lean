import ShardedQuery.Proofs.Graph.Inference
import ShardedQuery.Proofs.Graph.Reach

/-!
# Keeping types

Whether types are kept at the nodes makes no difference to the types (`Graph.typeOf_eq_exprType`), as
long as there are types to keep: no type depends on itself, whether by the ways that inference goes
down or by the rules of the nodes. Inference goes down the slots and from variables to their sources,
while the rule of a block that selects whole rows looks at its first variable.
-/

namespace ShardedQuery.Graph

open Relation

variable {g h : Graph} {u v : NodeId}

/-- The type of `v` rests on that of `u`, which stands in a slot of `v`, is the domain that the row
variable `v` ranges over or the input of the step that declares the context variable `v`. -/
inductive RestsOn (g : Graph) (v u : NodeId) : Prop
  | slot (hu : u ∈ g.children v)
  | source (hu : g.varSource? v = some u)

theorem RestsOn.lt_size (h : g.RestsOn v u) : v < g.size := by
  cases h with
  | slot hu => exact lt_size_of_child hu
  | source hu => exact lt_size_of_varSource? hu

/-- There is a type to be read at the node: it is kept, or it comes of types that are there. -/
inductive HasType (g : Graph) : NodeId → Prop
  | kept {v : NodeId} (hv : g.type? v ≠ none) : HasType g v
  | rule {v : NodeId} (hv : ∀ u ∈ g.typeInputs v, HasType g u) : HasType g v

/-- To read the type of `v` that of `u` is read. -/
def ReadsType (g : Graph) (v u : NodeId) : Prop := g.type? v = none ∧ u ∈ g.typeInputs v

theorem ReadsType.lt_size (h : g.ReadsType v u) : v < g.size :=
  lt_size_of_mem_uses (reads_subset_uses (typeInputs_subset_reads h.2))

theorem HasType.not_transGen (h : g.HasType v) : ¬ TransGen g.ReadsType v v := by
  induction h with
  | kept hv =>
    intro hcycle
    obtain ⟨w, hw, -⟩ := TransGen.head'_iff.1 hcycle
    exact hv hw.1
  | rule hv ih =>
    intro hcycle
    obtain ⟨w, hw, hback⟩ := TransGen.head'_iff.1 hcycle
    -- The cycle goes through the node that is read next as well.
    exact ih w hw.2 (.tail' hback hw)

/-- Where nodes can be ranked, all have types. -/
theorem Ordered.hasType {rank : NodeId → Nat} (ho : g.Ordered rank) (v : NodeId) : g.HasType v := by
  induction hn : rank v using Nat.strong_induction_on generalizing v with
  | _ n ih =>
    subst hn
    refine .rule fun u hu => ih _ (ho.rank_lt v u ?_) u rfl
    exact reads_subset_uses (typeInputs_subset_reads hu)

/-- `FROM (FROM t) x SELECT x.a`, where only the row variable of the inner block has a type, and it is
not the one of the rows. -/
def rowsInRows : Graph :=
  let (scan, g) := ({} : Graph).add (.scan { table := "t", rowType := .record [("a", .integer)] })
  let (row, g) := g.addVar "$t" .row
  let (rows, g) := g.addDeclaring (.block { entries := [⟨scan, row⟩], star := true }) none
  let (x, g) := g.addVar "x" .row
  let (a, g) := g.addField x "a"
  let (block, g) := g.addDeclaring (.block { entries := [⟨rows, x⟩], select := [⟨"a", a⟩] }) none
  (g.setRoot block).setType row (.one .json)

/-- `FROM [FROM t x] x`, where the two blocks share the variable `x`, which can name but one of them
as its declaration. -/
def sharedVariable : Graph :=
  let (scan, g) := ({} : Graph).add (.scan { table := "t", rowType := .record [("a", .integer)] })
  let (x, g) := g.addVar "x" .row
  let (rows, g) := g.addDeclaring (.block { entries := [⟨scan, x⟩], star := true }) none
  let (list, g) := g.add (.array [rows] false)
  (g.addDeclaring (.block { entries := [⟨list, x⟩], star := true }) none).2

/-- That inference gets to an end does not give types to all nodes: the rows of the inner block are
what `x` ranges over, `x` ranges over the list, and the list holds these rows. -/
theorem not_hasType_sharedVariable :
    (∀ v, ¬ TransGen sharedVariable.RestsOn v v) ∧ ¬ sharedVariable.HasType 2 := by
  have hrank : ∀ v < sharedVariable.size, ∀ u ∈ sharedVariable.children v ++
      (sharedVariable.varSource? v).toList, (if u = 1 then 5 else u) < if v = 1 then 5 else v := by
    decide +kernel
  refine ⟨not_transGen_of_rank fun v u h => hrank v h.lt_size u ?_, fun h => h.not_transGen ?_⟩
  · cases h with
    | slot hu => simp [hu]
    | source hu => simp [hu]
  · have hrows : sharedVariable.ReadsType 2 1 := ⟨by decide +kernel, by decide +kernel⟩
    have hvar : sharedVariable.ReadsType 1 3 := ⟨by decide +kernel, by decide +kernel⟩
    have hlist : sharedVariable.ReadsType 3 2 := ⟨by decide +kernel, by decide +kernel⟩
    exact .tail (.tail (.single hrows) hvar) hlist

end ShardedQuery.Graph
