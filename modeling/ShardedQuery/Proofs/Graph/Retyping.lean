import ShardedQuery.Proofs.Graph.Replace

/-!
# Types after a replacement

`Graph.scratchType` is the type of a node when no kept type is looked at. After `Graph.replace` the
kept types are right in this sense where the two nodes have the same type. Otherwise a refresh starts
at the parents of the old node and goes from dependent to dependent. It comes to all nodes that
depend on the replaced slots, with two exceptions: a variable that ranged over the old node is not a
dependent of a parent that declares it, and a block that selects all of its first variable is not a
dependent of this variable.
-/

namespace ShardedQuery.Graph

open Relation List

variable {new old u v w : NodeId} {g h : Graph} {rank rank' : NodeId → Nat} {dispose : Bool}
  {E A : NodeId → Prop} {ids : List NodeId}

/-! ## Types from scratch -/

/-- The graph without any kept type. -/
def forgetTypes (g : Graph) : Graph :=
  { g with nodes := g.nodes.map fun n => { n with type := none } }

/-- The type of a node derived from scratch: no kept type is looked at. -/
def scratchType (g : Graph) (v : NodeId) : SeqType := g.forgetTypes.exprType v

theorem node_forgetTypes : g.forgetTypes.node v = { g.node v with type := none } := by
  simp only [forgetTypes, node, Array.getD_eq_getD_getElem?, Array.getElem?_map]
  cases g.nodes[v]? <;> rfl

theorem sameExprs_forgetTypes (g : Graph) : SameExprs g g.forgetTypes :=
  ⟨by simp [size, forgetTypes], fun v => by rw [expr, node_forgetTypes, expr]⟩

theorem Ordered.scratchType_unique (ho : g.Ordered rank)
    {t : NodeId → SeqType} (hA : ∀ v, A v → ∀ u ∈ g.reads v, A u)
    (ht : ∀ v, A v → t v = g.typeRule t v) (hv : A v) : t v = g.scratchType v := by
  have hs := sameExprs_forgetTypes g
  refine (hs.ordered ho).ranked.exprType_unique (fun v hv u hu => hA v hv u ?_) (fun v hv => ?_) hv
  · rwa [(hs.sameRule v).reads_eq] at hu
  · rw [type?, node_forgetTypes, Option.getD_none, (hs.sameRule v).typeRule_eq]
    exact ht v hv

theorem Ordered.scratchType_eq (ho : g.Ordered rank) (v : NodeId) :
    g.scratchType v = g.typeRule g.scratchType v := by
  have hs := sameExprs_forgetTypes g
  have hnone : g.forgetTypes.type? v = none := by rw [type?, node_forgetTypes]
  rw [scratchType, (hs.ordered ho).exprType_of_unkept hnone, derivedType, (hs.sameRule v).typeRule_eq]
  rfl

theorem Ordered.exprType_eq_scratchType (ho : g.Ordered rank) (hA : ∀ v, A v → ∀ u ∈ g.reads v, A u)
    (hright : ∀ v, A v → ∀ t ∈ g.type? v, t = g.scratchType v) (hv : A v) :
    g.exprType v = g.scratchType v := by
  refine (ho.ranked.exprType_unique hA (fun v hv => ?_) hv).symm
  cases ht : g.type? v with
  | none => exact ho.scratchType_eq v
  | some t => exact (hright v hv t ht).symm

theorem Ordered.exprType_eq_scratchType_of_current (ho : g.Ordered rank)
    (hA : ∀ v, A v → ∀ u ∈ g.reads v, A u) (hcurrent : ∀ v, A v → g.IsCurrent v) (hv : A v) :
    g.exprType v = g.scratchType v := by
  exact ho.scratchType_unique hA (fun v hv => ho.exprType_of_current (hcurrent v hv)) hv

theorem SameExprs.scratchType_eq (hs : SameExprs g h) (ho : g.Ordered rank) (v : NodeId) :
    h.scratchType v = g.scratchType v := by
  refine ((hs.ordered ho).scratchType_unique (A := fun _ => True) (fun _ _ _ _ => trivial)
    (fun v _ => ?_) trivial).symm
  rw [(hs.sameRule v).typeRule_eq]
  exact ho.scratchType_eq v

/-! ## What an edit moves -/

/-- Typing rules lead from the first node to the second one. -/
def DependsOn (g : Graph) (v w : NodeId) : Prop :=
  ReflTransGen (fun v u => u ∈ g.reads v) v w

/-- Settled types are right at a node if all that it depends on is alive and none of it is a
variable over the empty sequence. -/
theorem Maintained.exprType_eq_scratchType {S : NodeId → Prop} (hm : g.Maintained S [])
    (hS : S v) (hv : ∀ w, g.DependsOn v w → g.isLive w ∧ ¬ g.IsStale w) :
    g.exprType v = g.scratchType v := by
  obtain ⟨rank, ho⟩ := hm.ordered
  refine ho.exprType_eq_scratchType_of_current
    (A := fun v => S v ∧ ∀ w, g.DependsOn v w → g.isLive w ∧ ¬ g.IsStale w)
    (fun v hv u hu => ⟨hm.reads_closed v hv.1 u hu, fun w hw => hv.2 w (.head hu hw)⟩)
    (fun v hv => ?_) ⟨hS, hv⟩
  obtain ⟨hlive, hstale⟩ := hv.2 v .refl
  exact (hm.current v hv.1 hlive).resolve_right fun h => h.elim hstale not_awaits_nil

/-- An edit of `g` that ends in `h` changes no type that the node depends on. -/
def Unmoved (g h : Graph) (v : NodeId) : Prop :=
  ∀ w, h.DependsOn v w → h.scratchType w = g.scratchType w

/-- The graph `k` is an edit of a graph `g` whose kept types were right. But for the nodes of `E`,
typing rules are as they were or the node is to be refreshed, and a refresh comes from a node to
those that read it. -/
structure Revises (g k : Graph) (E : NodeId → Prop) (ids : List NodeId) : Prop where
  kept : ∀ v, ∀ t ∈ k.type? v, t = g.scratchType v
  rule : ∀ v, ¬ E v → v ∉ ids → k.typeRule g.scratchType v = g.scratchType v
  live : ∀ v, ¬ E v → k.isLive v
  linked : ∀ v, ¬ E v → ∀ u ∈ k.reads v, ¬ E u → v ∈ k.dependents u

section
variable {k : Graph}

theorem Unmoved.reads (h : Unmoved g k v) (hu : u ∈ k.reads v) : Unmoved g k u :=
  fun w hw => h w (.head hu hw)

theorem SameExprs.dependsOn (hs : SameExprs k h) : h.DependsOn v u ↔ k.DependsOn v u := by
  have hreads : (fun v u => u ∈ h.reads v) = fun v u => u ∈ k.reads v := by
    funext v u
    rw [(hs.sameRule v).reads_eq]
  rw [DependsOn, DependsOn, hreads]

theorem SameExprs.unmoved (hs : SameExprs k h) (ho : k.Ordered rank) :
    Unmoved g h v ↔ Unmoved g k v := by
  simp only [Unmoved, hs.dependsOn, hs.scratchType_eq ho]

/-- The node depends on none of `E`, as far as the edit concerns these. -/
def Avoids (g k : Graph) (E : NodeId → Prop) (v : NodeId) : Prop :=
  ∀ w, k.DependsOn v w → E w → Unmoved g k w

theorem Avoids.reads (h : Avoids g k E v) (hu : u ∈ k.reads v) : Avoids g k E u :=
  fun w hw => h w (.head hu hw)

/-- The nodes that a refresh has to reach: the edit moves their types, and they avoid `E`. -/
def Follows (g k : Graph) (E : NodeId → Prop) (v : NodeId) : Prop :=
  ¬ Unmoved g k v ∧ Avoids g k E v

theorem Follows.not_mem (h : Follows g k E v) : ¬ E v :=
  fun hE => h.1 (h.2 v .refl hE)

section
variable (hr : Revises g k E ids)
include hr

theorem Revises.watches : k.Watches (Follows g k E) (Unmoved g k) := by
  refine ⟨fun v hv => hr.live v hv.not_mem, fun v hv u hu => ?_⟩
  by_cases hmoved : Unmoved g k u
  · exact .inl hmoved
  · have hfollows : Follows g k E u := ⟨hmoved, hv.2.reads hu⟩
    exact .inr ⟨hfollows, hr.linked v hv.not_mem u hu hfollows.not_mem⟩

theorem Revises.kept_unmoved (hv : Unmoved g k v) : ∀ t ∈ k.type? v, t = k.scratchType v :=
  fun t ht => (hr.kept v t ht).trans (hv v .refl).symm

variable (ho : k.Ordered rank)
include ho

theorem Revises.exprType_unmoved (hv : Unmoved g k v) : k.exprType v = g.scratchType v :=
  (ho.exprType_eq_scratchType (fun _ h _ hu => h.reads hu) (fun _ h => hr.kept_unmoved h) hv).trans
    (hv v .refl)

/-- Where the rule of a node derives another type than before the edit, the node is refreshed or reads
a node that will be. -/
theorem Revises.derivedType_or_waits (hv : Follows g k E v) :
    k.derivedType v = g.scratchType v ∨ k.WaitsPast (Unmoved g k) ids v := by
  induction hn : rank v using Nat.strong_induction_on generalizing v with
  | _ n ih =>
  subst hn
  by_cases hids : v ∈ ids
  · exact .inr (.here hids)
  by_cases hsame : ∀ u ∈ k.reads v, k.exprType u = g.scratchType u
  · exact .inl ((typeRule_congr hsame).trans (hr.rule v hv.not_mem hids))
  simp only [not_forall] at hsame
  obtain ⟨u, hu, hne⟩ := hsame
  have hmoved : ¬ Unmoved g k u := fun h => hne (hr.exprType_unmoved ho h)
  have hnone : k.type? u = none := by
    cases ht : k.type? u with
    | none => rfl
    | some t => exact absurd ((exprType_of_kept ht).trans (hr.kept u t ht)) hne
  rcases ih _ (ho.rank_lt v u (reads_subset_uses hu)) ⟨hmoved, hv.2.reads hu⟩ rfl with h | h
  · exact absurd ((ho.exprType_of_unkept hnone).trans h) hne
  · exact .inr (.through hu hmoved hnone h)

theorem Revises.upToDate :
    k.UpToDate (Follows g k E) (Unmoved g k) (fun _ => False) ids := by
  intro v hv
  refine .inr ((hr.derivedType_or_waits ho hv).imp_left fun h t ht => ?_)
  rw [h, hr.kept v t ht]

end

end

/-! ## Refreshes after an edit -/

/-- Where the edit moves no type, the kept types are right. -/
def KeepsUnmoved (g k m : Graph) : Prop :=
  ∀ v, Unmoved g k v → ∀ t ∈ m.type? v, t = k.scratchType v

section
variable {k m : Graph} (ho : k.Ordered rank)
include ho

section
variable (hJ : KeepsUnmoved g k m) (hs : SameExprs k m)
include hJ hs

theorem KeepsUnmoved.exprType_eq (hv : Unmoved g k v) : m.exprType v = k.scratchType v := by
  have ho' := hs.ordered ho
  rw [← hs.scratchType_eq ho]
  refine ho'.exprType_eq_scratchType (A := Unmoved g k) (fun v hv u hu => hv.reads ?_)
    (fun v hv t ht => (hJ v hv t ht).trans (hs.scratchType_eq ho v).symm) hv
  rwa [(hs.sameRule v).reads_eq] at hu

theorem KeepsUnmoved.derivedType_eq (hv : Unmoved g k v) : m.derivedType v = k.scratchType v := by
  rw [derivedType, (hs.sameRule v).typeRule_eq, ho.scratchType_eq v]
  exact typeRule_congr fun u hu => hJ.exprType_eq ho hs (hv.reads hu)

/-- One step of a refresh. -/
theorem KeepsUnmoved.setType {id : NodeId} (hid : id < m.size) :
    KeepsUnmoved g k (m.retype id) := by
  intro v hv t ht
  rw [type?_setType hid] at ht
  split at ht
  · next h =>
    subst h
    rw [← Option.some.inj ht]
    exact hJ.derivedType_eq ho hs hv
  · exact hJ v hv t ht

end

/-- A refresh after another. -/
theorem KeepsUnmoved.refreshAll (hl : k.LinksInside) (hw : k.Watches (Follows g k E) (Unmoved g k)) :
    ∀ (ids : List NodeId) {m : Graph}, SameShape k m → KeepsUnmoved g k m →
      m.UpToDate (Follows g k E) (Unmoved g k) (fun _ => False) ids →
      KeepsUnmoved g k (ids.foldl Graph.refresh m) ∧ (ids.foldl Graph.refresh m).UpToDate
        (Follows g k E) (Unmoved g k) (fun _ => False) [] := by
  intro ids
  induction ids with
  | nil => exact fun _ hJ hu => ⟨hJ, hu⟩
  | cons id ids ih =>
    intro m hs hJ hu
    obtain ⟨hJ', hu'⟩ := hu.refresh (hs.toSameExprs.ordered ho) (hs.linksInside hl) (hs.watches hw)
      (J := KeepsUnmoved g k) (t := k.scratchType)
      (fun n hn hJ u hu => hJ.exprType_eq ho (hs.trans hn).toSameExprs hu)
      (fun n v hn hJ hv => hJ.setType ho (hs.trans hn).toSameExprs (lt_size_of_isLive hv)) hJ
    exact ih (hs.trans (.refresh m id)) hJ' hu'

/-- After an edit and the refreshes, the kept types are right at all nodes that avoid the
exceptions. -/
theorem Revises.type_right (hr : Revises g k E ids) (hl : k.LinksInside) (hv : Avoids g k E v) :
    ∀ t ∈ (ids.foldl Graph.refresh k).type? v, t = k.scratchType v := by
  have hs := SameShape.refreshAll ids k
  obtain ⟨hJ, hu⟩ := KeepsUnmoved.refreshAll ho hl hr.watches ids (.refl k)
    (fun v hv => hr.kept_unmoved hv) (hr.upToDate ho)
  have hcurrent : ∀ v, Avoids g k E v → (ids.foldl Graph.refresh k).IsCurrent v := by
    intro v hv
    by_cases hmoved : Unmoved g k v
    · exact fun t ht => (hJ.derivedType_eq ho hs.toSameExprs hmoved).trans (hJ v hmoved t ht).symm
    · exact ((hu v ⟨hmoved, hv⟩).resolve_left id).resolve_right not_waitsPast_nil
  intro t ht
  rw [← exprType_of_kept ht, ← hs.toSameExprs.scratchType_eq ho]
  refine (hs.toSameExprs.ordered ho).exprType_eq_scratchType_of_current (A := Avoids g k E)
    (fun v hv u hu => hv.reads ?_) hcurrent hv
  rwa [(hs.toSameExprs.sameRule v).reads_eq] at hu

end

/-! ## Replacements -/

section
variable {p : NodeId} (hne : old ≠ new) (hg : g.Linked)
include hne hg

theorem mem_parents_rewired {c : NodeId} (hnew : g.isLive new)
    (hp : (g.rewired old new dispose).isLive p)
    (hscan : ((g.rewired old new dispose).expr p).isScan = false)
    (hc : c ∈ (g.rewired old new dispose).children p)
    (hclive : (g.rewired old new dispose).isLive c) :
    p ∈ (g.rewired old new dispose).parents c :=
  count_pos_iff.1 (Nat.lt_of_lt_of_le (count_pos_iff.2 hc)
    ((hg.rewired hne (hg.parents_lt old) (lt_size_of_isLive hnew)).slots p hp hscan c hclive))

theorem declared_rewired : ((g.rewired old new dispose).expr v).declared = (g.expr v).declared :=
  (expr_rewired_cases hne (hg.parents_lt old) v).declared_eq

theorem isLeaf_rewired : ((g.rewired old new dispose).expr v).isLeaf = (g.expr v).isLeaf :=
  (expr_rewired_cases hne (hg.parents_lt old) v).isLeaf_eq

theorem eq_var_rewired {x : Variable} :
    (g.rewired old new dispose).expr v = .var x ↔ g.expr v = .var x :=
  (expr_rewired_cases hne (hg.parents_lt old) v).eq_var

theorem declaresVars_rewired (hvars : g.DeclaresVars) :
    (g.rewired old new dispose).DeclaresVars := by
  intro p u hu
  rw [declared_rewired hne hg] at hu
  rw [(expr_rewired_cases hne (hg.parents_lt old) u).isVar_eq]
  exact hvars p u hu

theorem declaresBut_rewired (hvars : g.DeclaresVars) (hdecl : g.DeclaresBut E) :
    (g.rewired old new dispose).DeclaresBut E := by
  have hs : SameExprs (g.rewired old new false) (g.redirected old new) := .refl _
  have hredirected : (g.redirected old new).DeclaresBut E := by
    intro u x hu hE hx p hp
    rw [isLive_redirected] at hu ⊢
    rw [hs.expr_eq, eq_var_rewired hne hg] at hx
    rw [hs.expr_eq, declared_rewired hne hg]
    exact hdecl u x hu hE hx p hp
  unfold rewired
  split
  · exact hredirected.destroy (hs.declaresVars (declaresVars_rewired hne hg hvars)) old
  · exact hredirected

theorem varSource?_rewired (v : NodeId) :
    (g.rewired old new dispose).varSource? v = g.varSource? v ∨
      (g.varSource? v = some old ∧ (g.rewired old new dispose).varSource? v = some new) :=
  varSource?_redirect_cases (fun _ => eq_var_rewired hne hg) fun _ _ p _ =>
    expr_rewired_cases hne (hg.parents_lt old) p

end

/-! ## Types after a replacement -/

/-- Nodes can be ranked, links and declarations are in order, and kept types are those from scratch. -/
structure RightlyTyped (g : Graph) : Prop extends g.Linked where
  ordered : ∃ rank, g.Ordered rank
  declared : ∀ p, ∀ u ∈ (g.expr p).declared, ∃ x, g.expr u = .var x ∧
    (x.decl = none ∨ x.decl = some p)
  declared_nodup : ∀ p, (g.expr p).declared.Nodup
  decl : g.DeclaresBut fun _ => False
  right : ∀ v, ∀ t ∈ g.type? v, t = g.scratchType v

theorem RightlyTyped.declaresVars (hg : g.RightlyTyped) : g.DeclaresVars := by
  intro p u hu
  obtain ⟨x, hx, -⟩ := hg.declared p u hu
  rw [hx]
  rfl

/-- The nodes that refreshes from the parents of a replaced node may pass over: dead nodes, variables
over the old node, and blocks that select all of their first variable. -/
def PassedOver (g h : Graph) (old v : NodeId) : Prop :=
  h.isLive v = false ∨ g.varSource? v = some old ∨ ∃ b, h.block? v = some b ∧ b.star

section
variable (hg : g.Linked) (ho : g.Ordered rank)
include hg

/-- A node has the rule it had, unless it was given the new node to use. -/
theorem sameRule_rewired (hne : old ≠ new)
    (huses : v ∈ g.parents old → new ∉ (g.rewired old new dispose).uses v)
    (hsource : (g.rewired old new dispose).varSource? v = g.varSource? v) :
    SameRule g (g.rewired old new dispose) v := by
  by_cases hv : v ∈ g.parents old
  swap
  · exact .of_expr_eq ((expr_rewired hne (hg.parents_lt old)).trans (if_neg hv)) fun _ => hsource
  have hexpr : (g.rewired old new dispose).expr v = (g.expr v).mapChildren (redirect old new) :=
    (expr_rewired hne (hg.parents_lt old)).trans (if_pos hv)
  cases hscan : (g.expr v).isScan with
  | true =>
    cases he : g.expr v with
    | scan s =>
      rw [he] at hexpr
      exact .of_scan (scan?_eq_some.2 he) (scan?_eq_some.2 hexpr) rfl
    | _ =>
      rw [he] at hscan
      cases hscan
  | false =>
    refine .of_expr_eq (hexpr.trans (Expr.mapChildren_eq_self fun c hc => ?_)) fun _ => hsource
    refine if_neg fun hold => huses hv ?_
    rw [uses, hexpr, Expr.isScan_mapChildren, hscan, children, hexpr, Expr.children_mapChildren]
    simp only [Bool.false_eq_true, if_false, mem_append, mem_map]
    exact .inl (.inl ⟨c, hc, if_pos hold⟩)

theorem linksInside_rewired (ho' : (g.rewired old new dispose).Ordered rank') :
    (g.rewired old new dispose).LinksInside := by
  refine ⟨fun v p hp => ?_, fun v u hu => ho'.mem v u ?_⟩
  · obtain ⟨u, hp⟩ := exists_of_mem_parents_rewired hp
    rw [size_rewired]
    exact hg.parents_lt u p hp
  · rw [uses]
    simp [hu]

include ho

/-- Nothing depends on which of two nodes of the same type is used. -/
theorem scratchType_rewired (hne : old ≠ new) (ho' : (g.rewired old new dispose).Ordered rank')
    (htype : g.scratchType old = g.scratchType new) (v : NodeId) :
    (g.rewired old new dispose).scratchType v = g.scratchType v := by
  refine (ho'.scratchType_unique (A := fun _ => True) (fun _ _ _ _ => trivial) (fun v _ => ?_)
    trivial).symm
  rw [typeRule_redirect_cases htype.symm (expr_rewired_cases hne (hg.parents_lt old) v)
    (varSource?_rewired hne hg v),
    ← ho.scratchType_eq]

end

section
variable (hg : g.RightlyTyped) (hnew : g.isLive new)
include hg hnew

theorem revises_rewired (hne : old ≠ new) : Revises g (g.rewired old new dispose)
    (PassedOver g (g.rewired old new dispose) old) (g.parentsInOrder old) := by
  obtain ⟨rank, ho⟩ := hg.ordered
  have hlive {v : NodeId} (hv : ¬ PassedOver g (g.rewired old new dispose) old v) :
      (g.rewired old new dispose).isLive v :=
    (Bool.eq_false_or_eq_true _).resolve_right fun h => hv (.inl h)
  refine ⟨fun v t ht => ?_, fun v hv hids => ?_, fun v hv => hlive hv, fun v hv u hu hpass => ?_⟩
  · rw [removes_rewired.type_eq, type?_redirected] at ht
    exact hg.right v t ht
  · have hrule : SameRule g (g.rewired old new dispose) v :=
      sameRule_rewired hg.toLinked hne (fun h => absurd (mem_parentsInOrder.2 h) hids)
        ((varSource?_rewired hne hg.toLinked v).resolve_right fun h => hv (.inr (.inl h.1)))
    rw [hrule.typeRule_eq, ← ho.scratchType_eq]
  · refine (mem_dependents_or_star (fun p hp hscan hmem => ?_) (fun x hx => ?_) (hlive hv)
      hu).resolve_right fun h => hv (.inr (.inr ?_))
    · exact mem_parents_rewired hne hg.toLinked hnew hp hscan hmem (hlive hpass)
    · exact declaresBut_rewired hne hg.toLinked hg.declaresVars hg.decl v x (hlive hv) id hx
    · obtain ⟨b, hb, hstar, -⟩ := h
      exact ⟨b, hb, hstar⟩

/-- The refreshes after a replacement leave right types at all nodes that depend on none that is passed
over, as far as the replacement concerns these. -/
theorem RightlyTyped.type_replace (ho' : (g.replace old new dispose).Ordered rank')
    (hv : Avoids g (g.replace old new dispose) (PassedOver g (g.replace old new dispose) old) v) :
    ∀ t ∈ (g.replace old new dispose).type? v, t = (g.replace old new dispose).scratchType v := by
  by_cases hne : old = new
  · subst hne
    rw [replace, if_pos rfl]
    exact hg.right v
  have hs : SameShape (g.rewired old new dispose) (g.replace old new dispose) :=
    sameShape_replace hne
  have hk : (g.rewired old new dispose).Ordered rank' := hs.toSameExprs.symm.ordered ho'
  have hav : Avoids g (g.rewired old new dispose)
      (PassedOver g (g.rewired old new dispose) old) v := by
    intro w hw hpass
    rw [← hs.toSameExprs.unmoved hk]
    refine hv w (hs.toSameExprs.dependsOn.2 hw) ?_
    simpa only [PassedOver, hs.live_eq, hs.block?_eq] using hpass
  rw [hs.toSameExprs.scratchType_eq hk, replace_eq hne]
  exact (revises_rewired hg hnew hne).type_right hk (linksInside_rewired hg.toLinked hk) hav

/-- A replacement by a node of the same type leaves all kept types right. -/
theorem RightlyTyped.type_replace_of_eq (ho' : (g.replace old new dispose).Ordered rank')
    (htype : g.scratchType old = g.scratchType new) :
    ∀ t ∈ (g.replace old new dispose).type? v, t = (g.replace old new dispose).scratchType v := by
  refine hg.type_replace hnew ho' fun w _ _ x _ => ?_
  obtain ⟨rank, ho⟩ := hg.ordered
  by_cases hne : old = new
  · subst hne
    rw [replace, if_pos rfl]
  have hs : SameShape (g.rewired old new dispose) (g.replace old new dispose) :=
    sameShape_replace hne
  have hk := hs.toSameExprs.symm.ordered ho'
  rw [hs.toSameExprs.scratchType_eq hk, scratchType_rewired hg.toLinked ho hne hk htype]

end

/-! ## Variables over the old node -/

theorem isLeaf_of_varSource? (h : g.varSource? v = some u) : (g.expr v).isLeaf := by
  cases hx : g.var? v with
  | none => simp [varSource?, hx] at h
  | some x =>
    rw [var?_eq_some.1 hx]
    rfl

theorem Linked.not_mem_parents (hg : g.Linked) (hv : (g.expr v).isLeaf) : v ∉ g.parents u := by
  intro hmem
  rw [hg.parents_inner u v hmem] at hv
  cases hv

theorem Ordered.rank_le_of_dependsOn (ho : g.Ordered rank) (h : g.DependsOn v w) :
    rank w ≤ rank v := by
  induction h with
  | refl => exact le_rfl
  | tail _ hu ih => exact (Nat.le_of_lt (ho.rank_lt _ _ (reads_subset_uses hu))).trans ih

section
variable (hg : g.Linked) (ho : g.Ordered rank) (ho' : (g.rewired old new dispose).Ordered rank')
  (hne : old ≠ new)
include hg ho ho' hne

/-- The new node depends on nothing that uses it. -/
theorem unmoved_new : Unmoved g (g.rewired old new dispose) new := by
  intro v hv
  refine (ho'.scratchType_unique (A := (g.rewired old new dispose).DependsOn new)
    (fun v hv u hu => hv.tail hu) (fun v hv => ?_) hv).symm
  have huses : new ∉ (g.rewired old new dispose).uses v := fun h =>
    not_lt.2 (ho'.rank_le_of_dependsOn hv) (ho'.rank_lt v new h)
  have hsource : (g.rewired old new dispose).varSource? v = g.varSource? v :=
    (varSource?_rewired hne hg v).resolve_right fun h => huses (by simp [uses, h.2])
  rw [(sameRule_rewired hg hne (fun _ => huses) hsource).typeRule_eq, ← ho.scratchType_eq]

omit ho ho' in
/-- A living variable over the old node is one over the new node. -/
theorem varSource?_rewired_of_isLive (hdecl : (g.rewired old new dispose).DeclaresBut fun _ => False)
    (hold : g.isLive old) (hw : (g.rewired old new dispose).isLive w)
    (hsource : g.varSource? w = some old) : (g.rewired old new dispose).varSource? w = some new := by
  rcases varSource?_rewired hne hg w with hs | ⟨-, hs⟩
  swap
  · exact hs
  obtain ⟨p, hp, hscan, hmem, -⟩ :=
    exists_of_varSource? (fun x hx => hdecl w x hw id hx) (hs.trans hsource)
  have hplive : g.isLive p := isLive_redirected.symm.trans (removes_rewired.live p hp)
  rw [children] at hmem
  rw [expr_rewired hne (hg.parents_lt old)] at hscan hmem
  split at hmem
  · rw [Expr.children_mapChildren] at hmem
    exact absurd hmem (not_mem_map_redirect hne)
  · next hnot =>
    rw [if_neg hnot] at hscan
    have hslots := hg.slots p hplive hscan old hold
    exact absurd (count_pos_iff.1 ((count_pos_iff.2 hmem).trans_le hslots)) hnot

variable (hdeclared : ∀ p, ∀ u ∈ (g.expr p).declared, ∃ x, g.expr u = .var x ∧
    (x.decl = none ∨ x.decl = some p))
  (hnodup : ∀ p, (g.expr p).declared.Nodup)
include hdeclared hnodup

omit ho ho' in
/-- A refresh comes to a variable over the new node only from there. -/
theorem eq_new_of_mem_dependents (hw : (g.rewired old new dispose).varSource? w = some new)
    (hmem : w ∈ (g.rewired old new dispose).dependents v) : v = new := by
  rcases mem_dependents.1 hmem with hparent | ⟨p, -, hover⟩
  · obtain ⟨u, hu⟩ := exists_of_mem_parents_rewired hparent
    exact absurd hu (hg.not_mem_parents (isLeaf_rewired hne hg ▸ isLeaf_of_varSource? hw))
  · refine (eq_of_mem_declaredOver ?_ ?_ hover hw).symm
    · rw [declared_rewired hne hg]
      exact hnodup p
    · have hmem' := mem_declared_of_declaredOver hover
      rw [declared_rewired hne hg] at hmem'
      exact (hdeclared p w hmem').imp fun x hx => hx.imp_left (eq_var_rewired hne hg).2

omit ho ho' hnodup in
/-- A refresh never comes to a constant. -/
theorem not_mem_dependents_literal {a : Value} (ha : g.expr new = .literal a) (v : NodeId) :
    new ∉ (g.rewired old new dispose).dependents v := by
  intro hmem
  rcases mem_dependents.1 hmem with hparent | ⟨p, -, hover⟩
  · obtain ⟨u, hu⟩ := exists_of_mem_parents_rewired hparent
    exact hg.not_mem_parents (by rw [ha]; rfl) hu
  · have hmem' := mem_declared_of_declaredOver hover
    rw [declared_rewired hne hg] at hmem'
    obtain ⟨x, hx, -⟩ := hdeclared p new hmem'
    rw [ha] at hx
    cases hx

/-- Refreshes leave the variables over the new node alone, if its type is kept or if it is a
constant. -/
theorem type?_refreshAll_var (hw : (g.rewired old new dispose).varSource? w = some new) :
    ∀ (ids : List NodeId) {m : Graph}, (∀ id ∈ ids, (g.expr id).isLeaf = false) →
      SameShape (g.rewired old new dispose) m → KeepsUnmoved g (g.rewired old new dispose) m →
      m.type? new ≠ none ∨ (∃ a, g.expr new = .literal a) →
      (ids.foldl Graph.refresh m).type? w = m.type? w := by
  have hnew : Unmoved g (g.rewired old new dispose) new := unmoved_new hg ho ho' hne
  have hl := linksInside_rewired hg ho'
  let J (n : Graph) : Prop := KeepsUnmoved g (g.rewired old new dispose) n ∧
    (n.type? new ≠ none ∨ ∃ a, g.expr new = .literal a)
  let C (v : NodeId) : Prop := w ≠ v ∧ ((∃ a, g.expr new = .literal a) → new ≠ v)
  have hstep {m n : Graph} {v : NodeId} (hm : SameShape (g.rewired old new dispose) m)
      (hn : SameShape m n) (hJ : J n) (hv : C v) (hopen : n.isOpen v) :
      J (n.retype v) ∧ ∀ x ∈ m.dependents v, C x := by
    have hs := (hm.trans hn).toSameExprs
    have hlt : v < n.size := lt_size_of_isLive (Bool.and_eq_true_iff.1 hopen).1
    refine ⟨⟨hJ.1.setType ho' hs hlt, hJ.2.imp_left fun hkept => ?_⟩, fun x hx => ?_⟩
    · rw [type?_setType hlt]
      split
      · simp
      · exact hkept
    rw [hm.dependents_eq] at hx
    refine ⟨?_, ?_⟩
    · rintro rfl
      -- The kept type of the new node is right, so that nothing comes from there.
      obtain rfl := eq_new_of_mem_dependents hg hne hdeclared hnodup hw hx
      obtain ⟨t, ht⟩ := Option.ne_none_iff_exists'.1 (hJ.2.resolve_right fun h => hv.2 h rfl)
      simp only [isOpen, Bool.and_eq_true, decide_eq_true_eq] at hopen
      refine hopen.2 ?_
      rw [ht, hJ.1 _ hnew t ht, hJ.1.derivedType_eq ho' hs hnew]
    · rintro ⟨a, ha⟩ rfl
      exact not_mem_dependents_literal hg hne hdeclared ha v hx
  have hleaf := isLeaf_rewired hne hg ▸ isLeaf_of_varSource? hw
  intro ids
  induction ids with
  | nil => exact fun _ _ _ _ => rfl
  | cons id ids ih =>
    intro m hids hs hright hkept
    have hinner := hids id (.head _)
    have hid : C id := by
      refine ⟨?_, ?_⟩
      · rintro rfl
        rw [hleaf] at hinner
        cases hinner
      · rintro ⟨a, ha⟩ rfl
        rw [ha] at hinner
        cases hinner
    obtain ⟨⟨hright', hkept'⟩, hsame⟩ := type?_refresh_of_closed (C := C) (J := J)
      (hs.toSameExprs.ordered ho') (hs.linksInside hl)
      (fun n v hn hJ hv hopen => hstep hs hn hJ hv hopen) ⟨hright, hkept⟩ hid
    exact (ih (fun x hx => hids x (.tail _ hx)) (hs.trans (.refresh m id)) hright'
      hkept').trans (hsame w (.inr fun h => h.1 rfl))

end

/-- The kept type of a variable over the old node stays what it was. So it is right if and only if the
new node gives the variable the same type. -/
theorem RightlyTyped.type_replace_var_iff (hg : g.RightlyTyped) (hold : g.isLive old)
    (hnew : g.isLive new) (ho' : (g.replace old new dispose).Ordered rank')
    (hw : (g.replace old new dispose).isLive w) (hsource : g.varSource? w = some old)
    (hkept : g.type? w ≠ none) (hknown : g.type? new ≠ none ∨ ∃ a, g.expr new = .literal a) :
    (∀ t ∈ (g.replace old new dispose).type? w, t = (g.replace old new dispose).scratchType w) ↔
      (g.replace old new dispose).scratchType w = g.scratchType w := by
  obtain ⟨rank, ho⟩ := hg.ordered
  obtain ⟨t, ht⟩ := Option.ne_none_iff_exists'.1 hkept
  have hsame : (g.replace old new dispose).type? w = some t := by
    by_cases hne : old = new
    · subst hne
      rwa [replace, if_pos rfl]
    have hs : SameShape (g.rewired old new dispose) (g.replace old new dispose) :=
      sameShape_replace hne
    have hk : (g.rewired old new dispose).Ordered rank' := hs.toSameExprs.symm.ordered ho'
    have hr : Revises g (g.rewired old new dispose) _ _ := revises_rewired hg hnew hne
    have htype (v : NodeId) : (g.rewired old new dispose).type? v = g.type? v :=
      (removes_rewired.type_eq v).trans type?_redirected
    have hwnew := varSource?_rewired_of_isLive hg.toLinked hne
      (declaresBut_rewired hne hg.toLinked hg.declaresVars hg.decl) hold (hs.live_eq w ▸ hw) hsource
    have hids (id : NodeId) (hid : id ∈ g.parentsInOrder old) : (g.expr id).isLeaf = false :=
      hg.parents_inner old id (mem_parentsInOrder.1 hid)
    rw [replace_eq hne, type?_refreshAll_var hg.toLinked ho hk hne hg.declared hg.declared_nodup hwnew
      _ hids (.refl _) (fun v hv => hr.kept_unmoved hv) (by rwa [htype]), htype, ht]
  rw [hsame, ← hg.right w t ht]
  simp [eq_comm]

end ShardedQuery.Graph
