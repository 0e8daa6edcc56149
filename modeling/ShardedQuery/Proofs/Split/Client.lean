import ShardedQuery.Proofs.Graph.Links
import ShardedQuery.Split

/-!
# The client part of a split block

The client part is a block over a new variable, which stands for the records that cross the
boundary. `Graph.clientGraph` is the graph with the client part put above the boundary, before types
are derived anew and before the variable is declared.
-/

namespace ShardedQuery.Graph

open List

variable {v : NodeId}

/-! ## Fields of the client variable -/

/-- Fields of `input` that were added to a graph, and nothing else. -/
structure AddsFields (input : NodeId) (names : List String) (g h : Graph)
    (fields : List SelectField) : Prop where
  names_eq : fields.map (·.name) = names
  size_eq : h.size = g.size + names.length
  root_eq : h.root = g.root
  exprs_eq : fields.map (·.expr) = List.range' g.size names.length
  node_eq : ∀ f ∈ fields, h.node f.expr = { expr := .field input f.name }
  old_eq : ∀ v, v < g.size → h.node v = { g.node v with
    parents := g.parents v ++ if v = input then fields.map (·.expr) else [] }

theorem addsFields (input : NodeId) (names : List String) :
    ∀ {g : Graph}, input < g.size →
      AddsFields input names g (g.addFields input names).2 (g.addFields input names).1 := by
  induction names with
  | nil => 
    intro g _
    refine ⟨rfl, rfl, rfl, rfl, by simp [addFields], fun v hv => ?_⟩
    simp [addFields, parents]
  | cons name names ih =>
    intro g hin
    have hsize : (g.addField input name).2.size = g.size + 1 := size_add ..
    obtain ⟨hnames, hsz, hroot, hexprs, hnode, hold⟩ := 
      ih (g := (g.addField input name).2) (hsize ▸ Nat.lt_succ_of_lt hin)
    have heq : g.addFields input (name :: names) =
      (⟨name, g.size⟩ :: ((g.addField input name).2.addFields input names).1,
        ((g.addField input name).2.addFields input names).2) := rfl
    rw [heq]
    rw [hsize] at hsz hexprs
    refine ⟨by rw [map_cons, hnames], by rw [hsz, length_cons]; omega,
      hroot.trans (root_add _), by rw [map_cons, hexprs]; rfl, ?_, ?_⟩
    · intro f hf
      rcases mem_cons.1 hf with rfl | hf
      · rw [hold g.size (hsize ▸ Nat.lt_succ_self _), if_neg (Nat.ne_of_gt hin), parents, addField,
          node_add_self]
        rfl
      · exact hnode f hf
    · intro v hv
      rw [hold v (hsize ▸ Nat.lt_succ_of_lt hv), parents, addField, node_add_of_lt _ hv]
      by_cases hvi : v = input
      · simp [hvi, Expr.children]
      · simp [hvi, Ne.symm hvi, Expr.children]

/-- Adding fields, one after the other. -/
theorem addFields_induct {P : Graph → Prop} {input : NodeId} (names : List String)
    (hstep : ∀ g name, input < g.size → P g → P (g.addField input name).2) :
    ∀ {g : Graph}, P g → input < g.size → P (g.addFields input names).2 := by
  induction names with
  | nil => exact fun hg _ => hg
  | cons name names ih =>
    intro g hg hinput
    have hsize : (g.addField input name).2.size = g.size + 1 := size_add ..
    exact ih (hstep g name hinput hg) (hsize ▸ Nat.lt_succ_of_lt hinput)

/-! ## The client graph -/

/-- The graph with the client part above the boundary. Its variable is not declared yet. -/
def clientGraph (g : Graph) (boundary : NodeId) (requested : List String)
    (offset limit : Option NodeId) : Graph :=
  (g.clientFields requested).2.inserted boundary fun input =>
    .block (g.clientBlock requested offset limit input)

section
variable {g : Graph} {boundary : NodeId} {requested : List String} {offset limit : Option NodeId}

theorem size_addVar {name : String} {kind : VarKind} : (g.addVar name kind).2.size = g.size + 1 :=
  size_add ..

theorem addsFields_client : AddsFields g.size requested (g.addVar "$from" .row).2
    (g.clientFields requested).2 (g.clientFields requested).1 :=
  addsFields g.size requested (size_addVar ▸ Nat.lt_succ_self _)

theorem size_clientFields : (g.clientFields requested).2.size = g.size + 1 + requested.length := by
  rw [addsFields_client.size_eq, size_addVar]

theorem lt_size_clientFields (hv : v < g.size) : v < (g.clientFields requested).2.size := by
  rw [size_clientFields]
  grind

theorem node_clientFields_of_lt (hv : v < g.size) :
    (g.clientFields requested).2.node v = g.node v := by
  rw [addsFields_client.old_eq v (size_addVar ▸ Nat.lt_succ_of_lt hv), if_neg (Nat.ne_of_lt hv),
    parents, addVar, node_add_of_lt _ hv]
  simp [Expr.children, parents]

theorem node_clientFields_self : (g.clientFields requested).2.node g.size =
    { expr := .var { name := "$from", kind := .row },
      parents := (g.clientFields requested).1.map (·.expr) } := by
  rw [addsFields_client.old_eq g.size (size_addVar ▸ Nat.lt_succ_self _), if_pos rfl, parents,
    addVar, node_add_self]
  simp

/-- The new nodes are the variable, its fields and the client block. -/
theorem mem_clientFields (hge : g.size < v) (hlt : v < (g.clientFields requested).2.size) :
    ∃ f ∈ (g.clientFields requested).1, f.expr = v := by
  rw [← mem_map, addsFields_client.exprs_eq, mem_range'_1, size_addVar]
  rw [size_clientFields] at hlt
  exact ⟨hge, hlt⟩

theorem lt_of_mem_clientFields {f : SelectField} (hf : f ∈ (g.clientFields requested).1) :
    g.size < f.expr ∧ f.expr < (g.clientFields requested).2.size := by
  have hmem := mem_map_of_mem (f := (·.expr)) hf
  rw [addsFields_client.exprs_eq, mem_range'_1, size_addVar] at hmem
  rw [size_clientFields]
  exact hmem

theorem parents_clientFields_of_lt (hv : v < g.size) :
    (g.clientFields requested).2.parents v = g.parents v := by
  rw [parents, node_clientFields_of_lt hv, parents]

theorem size_clientGraph : (g.clientGraph boundary requested offset limit).size =
    (g.clientFields requested).2.size + 1 :=
  size_inserted

variable (hboundary : boundary < g.size) (hparents : ∀ p ∈ g.parents boundary, p < g.size)

include hboundary in
/-- The old nodes: what used the boundary uses the client part instead. -/
theorem node_clientGraph_of_lt (hv : v < g.size) :
    (g.clientGraph boundary requested offset limit).node v =
      { g.node v with
        expr := if v ∈ g.parents boundary then
            (g.expr v).mapChildren (redirect boundary (g.clientFields requested).2.size)
          else g.expr v
        parents := (if v = boundary then [] else g.parents v) ++ List.replicate
          ((Expr.block (g.clientBlock requested offset limit boundary)).children.count v)
          (g.clientFields requested).2.size } := by
  rw [clientGraph, node_inserted_of_lt (lt_size_clientFields hboundary) (lt_size_clientFields hv),
    parents_clientFields_of_lt hboundary,
    parents_clientFields_of_lt hv, expr, node_clientFields_of_lt hv]
  rfl

include hboundary hparents in
theorem node_clientGraph_client :
    (g.clientGraph boundary requested offset limit).node (g.clientFields requested).2.size =
      { expr := .block (g.clientBlock requested offset limit boundary)
        parents := g.parents boundary } := by
  rw [clientGraph, node_inserted_self (lt_size_clientFields hboundary),
    parents_clientFields_of_lt hboundary]
  intro p hp
  rw [parents_clientFields_of_lt hboundary] at hp
  exact lt_size_clientFields (hparents p hp)

include hboundary hparents in
/-- The variable and its fields have no new parent but the client part. -/
theorem node_clientGraph_of_ge (hge : g.size ≤ v) (hlt : v < (g.clientFields requested).2.size) :
    (g.clientGraph boundary requested offset limit).node v =
      { (g.clientFields requested).2.node v with
        parents := (g.clientFields requested).2.parents v ++ List.replicate
          ((Expr.block (g.clientBlock requested offset limit boundary)).children.count v)
          (g.clientFields requested).2.size } := by
  have hb : boundary < (g.clientFields requested).2.size := Nat.lt_trans hboundary (by grind)
  have hnot : v ∉ g.parents boundary := fun hmem => Nat.not_lt.2 hge (hparents v hmem)
  have hne : v ≠ boundary := Nat.ne_of_gt (Nat.lt_of_lt_of_le hboundary hge)
  rw [clientGraph, node_inserted_of_lt hb hlt, parents_clientFields_of_lt hboundary, if_neg hnot,
    if_neg hne]
  rfl

end

end ShardedQuery.Graph
