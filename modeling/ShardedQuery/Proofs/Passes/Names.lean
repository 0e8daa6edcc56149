import ShardedQuery.Proofs.Access.Upkeep
import ShardedQuery.Proofs.Split.Upkeep

/-!
# What passes leave in place

Choosing an access path and splitting a block keep tables and field names, but for the names at a
block that is split, and the root stays where it is unless its own block is replaced.
-/

namespace ShardedQuery

open ShardedQuery.Graph

variable {g h : Graph} {block : NodeId} {c : Catalog} {o : Options}

/-! ## Names -/

namespace Graph.KeepsNames

variable {E : NodeId → Prop}

theorem makeEmpty (hlt : block < g.size) : KeepsNames E g (Selection.makeEmpty g block) := by
  refine ⟨(Nat.le_succ _).trans_eq (size_replace_addLiteral hlt).symm, fun v => ?_, fun v _ => ?_⟩
  · rw [Selection.expr_makeEmpty hlt]
    split <;> simp
  · rw [Selection.expr_makeEmpty hlt]
    split <;> simp

theorem select (hselect : Selection.select c o g block = .ok h) : KeepsNames E g h := by
  obtain ⟨sel, hdecide, rfl⟩ := Selection.select_eq_ok.1 hselect
  rcases Selection.decide_cases hdecide with
    rfl | ⟨b, e, s, t, hb, -, -, -, rfl | ⟨path, a, sort, -, -, -, rfl⟩⟩
  · exact refl E g
  · exact makeEmpty (lt_size_of_block? hb)
  · exact ((a.rewrites_grownGraph g).trans (Selection.rewrites_carryOut e.var a t sort)).keepsNames E

end Graph.KeepsNames

/-! ## The root -/

/-- A block that selects nothing may be at the root. -/
theorem Selection.root_select (hlt : block < g.size) (hselect : select c o g block = .ok h) :
    h.root = g.root ∨ g.size < h.size ∧ h.root = g.root.map (redirect block g.size) := by
  obtain ⟨sel, hdecide, rfl⟩ := select_eq_ok.1 hselect
  rcases decide_cases hdecide with
    rfl | ⟨b, e, s, t, -, -, -, -, rfl | ⟨path, a, sort, -, -, -, rfl⟩⟩
  · exact .inl rfl
  · refine .inr ⟨?_, (root_replace hlt.ne true).trans ?_⟩
    · exact Nat.lt_of_lt_of_eq (Nat.lt_succ_self _) (size_replace_addLiteral hlt).symm
    · exact congrArg _ (root_add _)
  · exact .inl ((a.rewrites_grownGraph g).trans (rewrites_carryOut e.var a t sort)).root_eq

/-! ### Splits -/

namespace Graph

variable {s : TableScan}

theorem root_bounded : (g.bounded block s).root =
    if g.root = some block then some g.size else g.root := by
  rw [bounded, (SameShape.refreshAll _ _).root_eq, root_inserted]

theorem root_declare (v p : NodeId) : (g.declare v p).root = g.root := rfl

theorem root_addFields (input : NodeId) : ∀ (names : List String) (g : Graph),
    (g.addFields input names).2.root = g.root
  | [], _ => rfl
  | _ :: names, _ => (root_addFields input names _).trans (root_add _)

theorem root_clientGraph {boundary : NodeId} {requested : List String}
    {offset limit : Option NodeId} : (g.clientGraph boundary requested offset limit).root =
      if g.root = some boundary then some (g.clientFields requested).2.size else g.root := by
  have hfields : (g.clientFields requested).2.root = g.root :=
    (root_addFields _ requested _).trans (root_add _)
  rw [clientGraph, root_inserted, hfields]

end Graph

/-- The client part may be at the root. -/
theorem SplitSite.IsIn.root_result {x : SplitSite} (hx : x.IsIn g) :
    (x.result g).root = if (x.bounded g).root = some g.size then some (x.client g)
      else (x.bounded g).root := by
  obtain ⟨expanded, server, hp⟩ := hx.exists_server
  have hreceived : (x.received g).root = (x.bounded g).root := hp.edits.root_eq
  rw [sameShape_result.root_eq, root_declare, ← hreceived, SplitSite.grown, root_clientGraph,
    SplitSite.client]

end ShardedQuery
