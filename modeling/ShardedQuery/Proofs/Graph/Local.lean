import ShardedQuery.Proofs.Graph.Reach
import ShardedQuery.Proofs.Graph.Upkeep

/-!
# What scans use

The slots of a scan do not count for the order of a graph, since a filter mentions the variable over
the scan. But what stands in them is computed on the spot: below it there is neither a block nor a
scan nor a boundary. So no way down leads from the slots of a scan to a scan, and a sound graph in
which this holds of all scans has no cycles (`Graph.ScansLocally.acyclicBelow`).
-/

namespace ShardedQuery

open Relation

/-- Neither a block nor a scan nor a boundary. -/
def Expr.isLocal : Expr → Bool
  | .block _ | .scan _ | .receive _ => false
  | _ => true

namespace Graph

/-- All that is reached from the node is computed on the spot, by nodes of the graph. -/
def IsLocal (g : Graph) (id : NodeId) : Prop :=
  ∀ v, ReflTransGen g.IsChild id v → v < g.size ∧ (g.expr v).isLocal

/-- What scans use is computed on the spot. -/
def ScansLocally (g : Graph) : Prop :=
  ∀ v s, g.scan? v = some s → ∀ c ∈ (Expr.scan s).children, g.IsLocal c

section
variable {g h k : Graph} {id v c : NodeId}

theorem IsLocal.lt_size (hv : g.IsLocal v) : v < g.size := (hv v .refl).1

theorem IsLocal.isLocal (hv : g.IsLocal v) : (g.expr v).isLocal := (hv v .refl).2

theorem IsLocal.child (hv : g.IsLocal v) (hc : c ∈ g.children v) : g.IsLocal c :=
  fun w hw => hv w (.head hc hw)

theorem isLocal_of_children (hlt : v < g.size) (hv : (g.expr v).isLocal)
    (hc : ∀ c ∈ g.children v, g.IsLocal c) : g.IsLocal v := by
  intro w hw
  rcases ReflTransGen.cases_head hw with rfl | ⟨c, hvc, hcw⟩
  · exact ⟨hlt, hv⟩
  · exact hc c hvc w hcw

/-! ## Cycles -/

open scoped Classical in
/-- Scans rank above all that is local. -/
theorem ScansLocally.exists_rank (hs : g.ScansLocally) (hg : g.Sound) :
    ∃ rank : NodeId → Nat, ∀ v, ∀ c ∈ g.children v, rank c < rank v := by
  obtain ⟨rank, ho⟩ := hg.ordered
  refine ⟨fun v => if g.IsLocal v then g.level rank v else g.level rank v + g.size + 1,
    fun v c hc => ?_⟩
  have hle := g.level_le rank c
  by_cases hscan : (g.expr v).isScan
  · obtain ⟨s, hexpr⟩ : ∃ s, g.expr v = .scan s := by
      cases hexpr : g.expr v <;> rw [hexpr] at hscan <;> first | exact ⟨_, rfl⟩ | cases hscan
    have hlocal : ¬ g.IsLocal v := fun hv => by
      have := hv.isLocal
      rw [hexpr] at this
      cases this
    have hslot : g.IsLocal c := by
      rw [children, hexpr] at hc
      exact hs v s (scan?_eq_some.2 hexpr) c hc
    simp only [if_neg hlocal, if_pos hslot]
    omega
  · have hlt := ho.level_lt (mem_uses_of_child (by simpa using hscan) hc)
    by_cases hv : g.IsLocal v
    · simpa only [if_pos hv, if_pos (hv.child hc)] using hlt
    · simp only [if_neg hv]
      split <;> omega

/-- No node lies below itself. -/
theorem ScansLocally.acyclicBelow (hs : g.ScansLocally) (hg : g.Sound) (id : NodeId) :
    g.AcyclicBelow id := by
  obtain ⟨rank, hrank⟩ := hs.exists_rank hg
  exact acyclicBelow_of_rank hrank id

/-! ## Edits -/

/-- What is local stands as it stood, or has lost its slots. -/
structure KeepsLocal (g h : Graph) : Prop where
  size_le : g.size ≤ h.size
  expr : ∀ v, g.IsLocal v → h.expr v = g.expr v ∨ ((h.expr v).isLocal ∧ h.children v = [])

theorem KeepsLocal.isLocal (hk : KeepsLocal g h) (hv : g.IsLocal v) : h.IsLocal v := by
  intro w hw
  have hlocal : (h.expr w).isLocal ∧ g.IsLocal w := by
    induction hw with
    | refl =>
      refine ⟨(hk.expr v hv).elim (fun heq => ?_) (·.1), hv⟩
      rw [heq]
      exact hv.isLocal
    | tail _ hc ih =>
      rcases hk.expr _ ih.2 with heq | ⟨-, hnil⟩
      · rw [IsChild, children, heq] at hc
        have hc := ih.2.child hc
        refine ⟨(hk.expr _ hc).elim (fun heq => ?_) (·.1), hc⟩
        rw [heq]
        exact hc.isLocal
      · rw [IsChild, hnil] at hc
        cases hc
  exact ⟨hlocal.2.lt_size.trans_le hk.size_le, hlocal.1⟩

theorem KeepsLocal.trans (h₁ : KeepsLocal g h) (h₂ : KeepsLocal h k) : KeepsLocal g k := by
  refine ⟨h₁.size_le.trans h₂.size_le, fun v hv => ?_⟩
  rcases h₁.expr v hv with heq | ⟨hlocal, hnil⟩
  · rw [← heq]
    exact h₂.expr v (h₁.isLocal hv)
  · rcases h₂.expr v (h₁.isLocal hv) with heq | hlost
    · exact .inr ⟨heq ▸ hlocal, by rwa [children, heq]⟩
    · exact .inr hlost

theorem SameExprs.keepsLocal (hs : SameExprs g h) : KeepsLocal g h :=
  ⟨hs.size_eq.symm.le, fun v _ => .inl (hs.expr_eq v)⟩

/-- Scans use what they used, or else something local. -/
theorem ScansLocally.edit (hs : g.ScansLocally) (hk : KeepsLocal g h)
    (hscan : ∀ v s, h.scan? v = some s → ∀ c ∈ (Expr.scan s).children, h.IsLocal c ∨
      ∃ s', g.scan? v = some s' ∧ c ∈ (Expr.scan s').children) : h.ScansLocally := by
  intro v s hv c hc
  rcases hscan v s hv c hc with hlocal | ⟨s', hs', hc'⟩
  · exact hlocal
  · exact hk.isLocal (hs v s' hs' c hc')

theorem ScansLocally.editOthers (hs : g.ScansLocally) (hk : KeepsLocal g h)
    (hscan : ∀ v s, h.scan? v = some s → g.scan? v = some s) : h.ScansLocally :=
  hs.edit hk fun v s hv _ hc => .inr ⟨s, hscan v s hv, hc⟩

theorem IsLocal.redirect_eq_self (hv : g.IsLocal v) {old new : NodeId}
    (hold : (g.expr old).isLocal = false) :
    (g.expr v).mapChildren (redirect old new) = g.expr v := by
  refine Expr.mapChildren_eq_self fun c hc => if_neg ?_
  rintro rfl
  rw [(hv.child hc).isLocal] at hold
  cases hold

end

end Graph

end ShardedQuery
