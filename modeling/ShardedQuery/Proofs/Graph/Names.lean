import ShardedQuery.Proofs.Graph.Upkeep

/-!
# Names that edits keep

Whatever an edit does to a scan, it stays a scan of the same table, and the fields that a block
selects keep their names, but perhaps at the block that is edited. `Graph.KeepsNames` says so.
-/

namespace ShardedQuery

/-- The table that a scan reads, with the type of its rows. -/
def Expr.table? : Expr → Option (String × ItemType)
  | .scan s => some (s.table, s.rowType)
  | _ => none

theorem Expr.table?_eq_some {e : Expr} {table : String} {rowType : ItemType} :
    e.table? = some (table, rowType) ↔ ∃ s, e = .scan s ∧ s.table = table ∧ s.rowType = rowType := by
  cases e <;> simp [table?]

/-- The names of the fields that a block selects. -/
def Expr.fieldNames : Expr → List String
  | .block b => b.select.map (·.name)
  | _ => []

@[simp] theorem Expr.table?_mapChildren (f : NodeId → NodeId) (e : Expr) :
    (e.mapChildren f).table? = e.table? := by
  cases e <;> rfl

@[simp] theorem Expr.fieldNames_mapChildren (f : NodeId → NodeId) (e : Expr) :
    (e.mapChildren f).fieldNames = e.fieldNames := by
  cases e <;> simp [mapChildren, Block.mapSlots, fieldNames]

namespace Graph

/-- Scans are of the tables they were, and the blocks outside `E` select fields of the same names.
Outside `E`, nodes that are added are neither scans nor blocks with fields. -/
structure KeepsNames (E : NodeId → Prop) (g h : Graph) : Prop where
  size_le : g.size ≤ h.size
  table_eq : ∀ v, (h.expr v).table? = (g.expr v).table?
  names_eq : ∀ v, ¬ E v → (h.expr v).fieldNames = (g.expr v).fieldNames

theorem KeepsNames.refl (E : NodeId → Prop) (g : Graph) : KeepsNames E g g :=
  ⟨le_rfl, fun _ => rfl, fun _ _ => rfl⟩

end Graph

end ShardedQuery
