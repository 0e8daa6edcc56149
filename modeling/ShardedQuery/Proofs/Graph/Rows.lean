import ShardedQuery.Proofs.Graph.Insert

/-!
# Nodes that give rows

Blocks, scans and boundaries give the rows of a query. Handling a block touches few of them: the
others are what they were, but a slot that held the block may now hold a node that is new
(`Graph.RowsFrom`).
-/

namespace ShardedQuery

variable {p v : NodeId} {f : NodeId → NodeId} {r' : Receive} {s' : TableScan}

namespace Expr

variable {e : Expr}

/-- A block, a scan or a boundary. -/
def givesRows : Expr → Bool
  | .block _ | .scan _ | .receive _ => true
  | _ => false

/-- The domain of the first FROM entry of a block. -/
def firstDomain? : Expr → Option NodeId
  | .block b => b.firstDomain?
  | _ => none

theorem givesRows_of_firstDomain? (h : e.firstDomain? = some v) : e.givesRows := by
  cases e <;> first | rfl | cases h

theorem firstDomain?_mapChildren : (e.mapChildren f).firstDomain? = e.firstDomain?.map f := by
  cases e <;> simp [mapChildren, Block.mapSlots, firstDomain?, Block.firstDomain?, Function.comp_def]

theorem exists_of_mapChildren_eq_scan (h : e.mapChildren f = .scan s') :
    ∃ s, e = .scan s ∧ s'.dedup = s.dedup := by
  cases e <;> cases h
  exact ⟨_, rfl, rfl⟩

theorem exists_of_mapChildren_eq_receive (h : e.mapChildren f = .receive r') :
    ∃ r, e = .receive r ∧ r' = { r with input := f r.input } := by
  cases e <;> cases h
  exact ⟨_, rfl, rfl⟩

end Expr

namespace Graph

variable {g h : Graph} {block : NodeId} {E : NodeId → Prop}

theorem firstDomain?_eq_some : (g.expr p).firstDomain? = some v ↔
    ∃ b e, g.block? p = some b ∧ b.entries.head? = some e ∧ e.domain = v := by
  unfold block?
  cases g.expr p <;> simp [Expr.firstDomain?, Block.firstDomain?]

/-- Slots stay as they are or go to new nodes; those of `g` that do not hold the block stay. -/
structure Diverts (g : Graph) (block : NodeId) (f : NodeId → NodeId) : Prop where
  of_ne : ∀ u, u < g.size → u ≠ block → f u = u
  eq_or_new : ∀ u, f u = u ∨ g.size ≤ f u

namespace Diverts

theorem id : g.Diverts block fun u => u := ⟨fun _ _ _ => rfl, fun _ => .inl rfl⟩

theorem redirect {old new : NodeId} (hold : old = block ∨ g.size ≤ old) (hnew : g.size ≤ new) :
    g.Diverts block (Graph.redirect old new) where
  of_ne u hu hne := if_neg fun h => hold.elim (fun hb => hne (h.trans hb))
    fun hge => Nat.lt_irrefl _ ((h ▸ hu).trans_le hge)
  eq_or_new u := by
    unfold Graph.redirect
    split
    · exact .inr hnew
    · exact .inl rfl

theorem comp {f' : NodeId → NodeId} (hf : g.Diverts block f) (hf' : g.Diverts block f') :
    g.Diverts block (f' ∘ f) where
  of_ne u hu hne := by rw [Function.comp_apply, hf.of_ne u hu hne, hf'.of_ne u hu hne]
  eq_or_new u := by
    rw [Function.comp_apply]
    rcases hf.eq_or_new u with hu | hu
    · rw [hu]
      exact hf'.eq_or_new u
    · rcases hf'.eq_or_new (f u) with hu' | hu'
      · rw [hu']
        exact .inr hu
      · exact .inr hu'

end Diverts

/-- What gives rows in `h` and is not in `E` is a node of `g`, perhaps with slots that held the block
diverted. -/
def RowsFrom (block : NodeId) (E : NodeId → Prop) (g h : Graph) : Prop :=
  ∀ v, ¬ E v → (h.expr v).givesRows → ∃ f, g.Diverts block f ∧ h.expr v = (g.expr v).mapChildren f

namespace RowsFrom

variable (hr : RowsFrom block E g h)
include hr

theorem scan (hv : ¬ E v) (hs : h.scan? v = some s') :
    ∃ s, g.scan? v = some s ∧ s'.dedup = s.dedup := by
  have hexpr := scan?_eq_some.1 hs
  obtain ⟨f, -, heq⟩ := hr v hv (by rw [hexpr]; rfl)
  obtain ⟨s, hs, hdedup⟩ := Expr.exists_of_mapChildren_eq_scan (heq.symm.trans hexpr)
  exact ⟨s, scan?_eq_some.2 hs, hdedup⟩

theorem firstDomain? (hp : ¬ E p) (hfirst : (h.expr p).firstDomain? = some v) (hv : v < g.size) :
    (g.expr p).firstDomain? = some v ∧ (h.expr p).declared = (g.expr p).declared := by
  obtain ⟨f, hf, heq⟩ := hr p hp (Expr.givesRows_of_firstDomain? hfirst)
  rw [heq, Expr.firstDomain?_mapChildren] at hfirst
  obtain ⟨u, hu, rfl⟩ := Option.map_eq_some_iff.1 hfirst
  refine ⟨?_, by rw [heq, Expr.declared_mapChildren]⟩
  rw [hu, (hf.eq_or_new u).resolve_right (not_le.2 hv)]

theorem receive (hp : ¬ E p) (hexpr : h.expr p = .receive r') :
    ∃ r, g.expr p = .receive r ∧ r'.keyPositions = r.keyPositions ∧
      (r.input < g.size → r.input ≠ block → r'.input = r.input) := by
  obtain ⟨f, hf, heq⟩ := hr p hp (by rw [hexpr]; rfl)
  obtain ⟨r, hexpr', rfl⟩ := Expr.exists_of_mapChildren_eq_receive (heq.symm.trans hexpr)
  exact ⟨r, hexpr', rfl, hf.of_ne r.input⟩

end RowsFrom

end Graph

end ShardedQuery
