import ShardedQuery.Proofs.Graph.Upkeep

/-!
# Putting a node above another in a sound graph
-/

namespace ShardedQuery

open List

variable {x : Variable} {g h : Graph} {work cs : List NodeId} {u new old v : NodeId}
  {rank : NodeId → Nat} {k : NodeId → NodeId} {S : NodeId → Prop} {t : NodeId → SeqType}

namespace Expr

variable {f : NodeId → NodeId} {e : Expr}

@[simp] theorem declared_mapChildren : (e.mapChildren f).declared = e.declared := by
  cases e <;> simp [mapChildren, Block.mapSlots, declared, context, Function.comp_def]

@[simp] theorem isLeaf_mapChildren : (e.mapChildren f).isLeaf = e.isLeaf := by
  cases e <;> rfl

@[simp] theorem isScan_mapChildren : (e.mapChildren f).isScan = e.isScan := by
  cases e <;> rfl

@[simp] theorem isVar_mapChildren : (e.mapChildren f).isVar = e.isVar := by
  cases e <;> rfl

theorem mapChildren_eq_var : e.mapChildren f = .var x ↔ e = .var x := by
  cases e <;> simp [mapChildren]

theorem stepInput?_mapChildren : (e.mapChildren f).stepInput? = e.stepInput?.map f := by
  cases e <;> rfl

/-- The slots that held one node may all hold another one instead. -/
def Redirected (old new : NodeId) (e e' : Expr) : Prop :=
  e' = e ∨ e' = e.mapChildren (Graph.redirect old new)

namespace Redirected

variable {e' : Expr} (hr : Redirected old new e e')
include hr

/-- What does not depend on the slots is as it was. -/
theorem view_eq {α : Type} (view : Expr → α)
    (hview : view (e.mapChildren (Graph.redirect old new)) = view e) : view e' = view e := by
  rcases hr with rfl | rfl
  · rfl
  · exact hview

theorem declared_eq : e'.declared = e.declared := hr.view_eq _ declared_mapChildren

theorem isLeaf_eq : e'.isLeaf = e.isLeaf := hr.view_eq _ isLeaf_mapChildren

theorem isScan_eq : e'.isScan = e.isScan := hr.view_eq _ isScan_mapChildren

theorem isVar_eq : e'.isVar = e.isVar := hr.view_eq _ isVar_mapChildren

theorem eq_var : e' = .var x ↔ e = .var x :=
  iff_of_eq (hr.view_eq (· = .var x) (propext mapChildren_eq_var))

end Redirected

end Expr

theorem secondOfPairs_map {α β : Type} (k : α → β) (xs : List α) :
    secondOfPairs (xs.map k) = (secondOfPairs xs).map k := by
  fun_induction secondOfPairs xs with
  | case1 a v rest ih => simp [secondOfPairs, ih]
  | case2 xs h =>
    cases xs with
    | nil => rfl
    | cons a xs =>
      cases xs with
      | nil => rfl
      | cons b xs => exact absurd rfl (h a b xs)

namespace Graph

/-- Redirecting slots does not matter where it leads to nodes of the same type. -/
theorem typeRule_redirect (hk : ∀ u, t (k u) = t u)
    (hexpr : h.expr v = g.expr v ∨ h.expr v = (g.expr v).mapChildren k)
    (hsource : h.varSource? v = g.varSource? v ∨ h.varSource? v = (g.varSource? v).map k) :
    h.typeRule t v = g.typeRule t v := by
  by_cases hvar : (g.expr v).isVar
  · cases he : g.expr v with
    | var x =>
      have hh : h.expr v = .var x := by
        rcases hexpr with hexpr | hexpr
        · exact hexpr.trans he
        · rw [hexpr, he]
          rfl
      simp only [typeRule, he, hh]
      rcases hsource with hs | hs
      · rw [hs]
      · rw [hs, Option.map_map, funext hk (f := t ∘ k)]
    | _ => simp [he, Expr.isVar] at hvar
  · rcases hexpr with hexpr | hexpr
    · exact (SameRule.of_expr_eq hexpr fun h => absurd h hvar).typeRule_eq t
    · cases he : g.expr v with
      | var x => simp [he, Expr.isVar] at hvar
      | block b =>
        have hfirst : (b.mapSlots k).firstVar? = b.firstVar? := by
          simp [Block.mapSlots, Block.firstVar?, Function.comp_def]
        simp only [typeRule, hexpr, he, Expr.mapChildren, hfirst]
        simp only [Block.mapSlots, map_map, Function.comp_def, hk]
      | mapFilter part => cases part <;> simp only [typeRule, hexpr, he, Expr.mapChildren, hk]
      | call f args =>
        simp only [typeRule, hexpr, he, Expr.mapChildren, map_map, Function.comp_def, hk]
      | map args =>
        simp only [typeRule, hexpr, he, Expr.mapChildren, secondOfPairs_map, map_map,
          Function.comp_def, hk]
      | _ =>
        simp only [typeRule, hexpr, he, Expr.mapChildren, map_map, Function.comp_def,
          Option.map_map, hk]

/-- Where the node that declares a variable has its slots redirected, so is the source of the
variable. -/
theorem varSource?_redirect {p : NodeId} (hx : g.expr v = .var x) (hx' : h.expr v = .var x)
    (hp : x.decl = some p) (hexpr : h.expr p = (g.expr p).mapChildren k) :
    h.varSource? v = (g.varSource? v).map k := by
  cases hk : x.kind with
  | row =>
    simp only [varSource?, var?, hx, hx', hk, domain?_of_decl hx hp, domain?_of_decl hx' hp, block?,
      hexpr]
    cases he : g.expr p with
    | block b =>
      simp only [Expr.mapChildren, Block.mapSlots, Option.bind_some, find?_map,
        Function.comp_def]
      cases b.entries.find? (·.var == v) <;> rfl
    | _ => rfl
  | item | element =>
    simp only [varSource?, var?, hx, hx', hk, hp, hexpr, Option.bind_some,
      Expr.stepInput?_mapChildren]
  | _ => simp [varSource?, var?, hx, hx', hk]

/-- Where slots that hold one node are redirected to another, the variables over the first node are over
the second one. -/
theorem varSource?_redirect_cases (hvar : ∀ x, h.expr v = .var x ↔ g.expr v = .var x)
    (hdecl : ∀ x, g.expr v = .var x → ∀ p ∈ x.decl,
      Expr.Redirected old new (g.expr p) (h.expr p)) :
    h.varSource? v = g.varSource? v ∨ (g.varSource? v = some old ∧ h.varSource? v = some new) := by
  by_cases hsame : ∀ x, g.expr v = .var x → ∀ p ∈ x.decl, h.expr p = g.expr p
  · exact .inl (varSource?_congr hvar fun x hx p hp => .of_expr_eq (hsame x hx p hp))
  simp only [not_forall] at hsame
  obtain ⟨x, hx, p, hp, hne⟩ := hsame
  have hmap := (hdecl x hx p hp).resolve_left hne
  rw [varSource?_redirect hx ((hvar x).2 hx) hp hmap]
  cases hs : g.varSource? v with
  | none => exact .inl rfl
  | some u =>
    by_cases hu : u = old
    · exact .inr ⟨hu ▸ rfl, by rw [Option.map_some, redirect, if_pos hu]⟩
    · exact .inl (by rw [Option.map_some, redirect, if_neg hu])

theorem redirect_cases (h : u = redirect old new v) : u = v ∨ (u = new ∧ v = old) := by
  unfold redirect at h
  split at h
  · exact .inr ⟨h, by assumption⟩
  · exact .inl h

/-- Nothing changes for a node if slots over one node are redirected to another of its type. -/
theorem typeRule_redirect_cases (ht : t new = t old)
    (hexpr : Expr.Redirected old new (g.expr v) (h.expr v))
    (hsource : h.varSource? v = g.varSource? v ∨
      (g.varSource? v = some old ∧ h.varSource? v = some new)) :
    h.typeRule t v = g.typeRule t v := by
  refine typeRule_redirect (fun u => ?_) hexpr (hsource.imp_right fun ⟨hs, hs'⟩ => ?_)
  · have hu : redirect old new u = u ∨ _ := redirect_cases rfl
    rcases hu with hu | ⟨hu, rfl⟩
    · rw [hu]
    · rw [hu, ht]
  · rw [hs, hs', Option.map_some, redirect, if_pos rfl]

/-! ## The links of the new node -/

/-- What may be put above a node: neither a variable nor a scan, over nodes of the graph, that
declares only variables no other node declares. -/
structure IsInsertable (g : Graph) (e : Expr) : Prop where
  children_lt : ∀ c ∈ e.children, c < g.size
  not_var : e.isVar = false
  not_scan : e.isScan = false
  nodup : e.declared.Nodup
  declared : ∀ u ∈ e.declared, ∃ x, g.expr u = .var x ∧ x.decl = none
  block : ∀ b, e = .block b → b.star = false ∧ ∀ entry ∈ b.entries.head?,
    (g.expr entry.domain).isScan = false

theorem IsInsertable.ne_var {e : Expr} (he : g.IsInsertable e) (x : Variable) : e ≠ .var x := by
  rintro rfl
  cases he.not_var

section
variable {id v : NodeId} {make : NodeId → Expr}

theorem expr_inserted_self (hid : id < g.size) (hp : ∀ p ∈ g.parents id, p < g.size) :
    (g.inserted id make).expr g.size = make id := by
  rw [expr, node_inserted_self hid hp]

theorem count_map_redirect (hne : old ≠ new) (cs : List NodeId) (c : NodeId) :
    (cs.map (redirect old new)).count c =
      (if c = old then 0 else cs.count c) + if c = new then cs.count old else 0 := by
  induction cs with
  | nil => simp
  | cons d cs ih =>
    rw [map_cons, count_cons, count_cons, count_cons, ih, redirect]
    simp only [beq_iff_eq]
    grind

theorem not_mem_map_redirect (hne : old ≠ new) : old ∉ cs.map (redirect old new) := by
  rw [← count_eq_zero, count_map_redirect hne]
  simp [hne]

/-- Where all entries that a node has in the list of the old one go to the list of the new one, its
slots stay recorded. -/
theorem count_redirected_le {n : NodeId → Nat} {b : Prop} [Decidable b] {c : NodeId}
    (hne : old ≠ new) (hb : ¬ b → n old = 0) (hc : cs.count c ≤ n c) :
    (if b then cs.map (redirect old new) else cs).count c ≤
      (if c = old then 0 else n c) + if c = new ∧ b then cs.count old else 0 := by
  by_cases hmoved : b
  · rw [if_pos hmoved, count_map_redirect hne]
    simp only [hmoved, and_true]
    split <;> omega
  · have hnone : ¬ (c = new ∧ b) := fun h => hmoved h.2
    rw [if_neg hmoved, if_neg hnone]
    split
    · next hco =>
      rw [hco, hb hmoved] at hc
      rwa [hco]
    · exact hc

variable (hg : g.Sound) (hid : g.isLive id)
include hg hid

theorem expr_inserted_new : (g.inserted id make).expr g.size = make id :=
  expr_inserted_self (lt_size_of_isLive hid) (hg.parents_lt id)

theorem Linked.inserted (hmake : g.IsInsertable (make id)) : (g.inserted id make).Linked := by
  have hlt := lt_size_of_isLive hid
  have hsize : (g.inserted id make).size = g.size + 1 := size_inserted
  have hself : _ = make id := expr_inserted_new hg hid
  have hnew : (g.inserted id make).parents g.size = g.parents id := by
    rw [parents, node_inserted_self hlt (hg.parents_lt id)]
  have hparents {v p : NodeId} (hp : p ∈ (g.inserted id make).parents v) :
      (∃ w, p ∈ g.parents w) ∨ (p = g.size ∧ (make id).isLeaf = false) := by
    rcases Nat.lt_or_ge v g.size with hv | hv
    · rw [parents_inserted_of_lt hlt hv] at hp
      rcases mem_append.1 hp with hp | hp
      · split at hp
        · cases hp
        · exact .inl ⟨v, hp⟩
      · refine .inr ⟨eq_of_mem_replicate hp, ?_⟩
        have hcount : (make id).children.count v ≠ 0 := fun h => by
          rw [h] at hp
          cases hp
        exact isLeaf_eq_false (count_pos_iff.1 (Nat.pos_of_ne_zero hcount))
    · rcases Nat.eq_or_lt_of_le hv with rfl | hv
      · exact .inl ⟨id, hnew ▸ hp⟩
      · rw [parents_of_size_le (by rw [hsize]; exact hv)] at hp
        cases hp
  refine ⟨fun v p hp => ?_, fun v p hp => ?_, fun p hp hscan c hc => ?_⟩
  · rcases hparents hp with ⟨w, hp⟩ | ⟨rfl, -⟩
    · exact hsize ▸ Nat.lt_succ_of_lt (hg.parents_lt w p hp)
    · exact hsize ▸ Nat.lt_succ_self _
  · rcases hparents hp with ⟨w, hp⟩ | ⟨rfl, hleaf⟩
    · rw [expr_inserted_of_lt hlt (hg.parents_lt w p hp)]
      have := hg.parents_inner w p hp
      split
      · rwa [Expr.isLeaf_mapChildren]
      · exact this
    · rw [hself]
      exact hleaf
  · have hc' := lt_size_of_isLive hc
    have hp' := lt_size_of_isLive hp
    rw [hsize] at hc' hp'
    have hne : id ≠ g.size := hlt.ne
    rcases Nat.eq_or_lt_of_le (Nat.le_of_lt_succ hp') with rfl | hplt
    · rw [children, hself]
      rcases Nat.eq_or_lt_of_le (Nat.le_of_lt_succ hc') with rfl | hclt
      · rw [count_eq_zero_of_not_mem fun h => (hmake.children_lt _ h).false]
        exact Nat.zero_le _
      · rw [parents_inserted_of_lt hlt hclt, count_append, count_replicate_self]
        exact Nat.le_add_left _ _
    · have hscan' : (g.expr p).isScan = false := by
        rw [expr_inserted_of_lt hlt hplt] at hscan
        split at hscan
        · rwa [Expr.isScan_mapChildren] at hscan
        · exact hscan
      rw [isLive_inserted_of_lt hlt hplt] at hp
      have hchildren : (g.inserted id make).children p = if p ∈ g.parents id
          then (g.children p).map (redirect id g.size) else g.children p := by
        rw [children, expr_inserted_of_lt hlt hplt]
        split
        · rw [Expr.children_mapChildren, children]
        · rfl
      have hmoved {c : NodeId} (hc : (g.children p).count c ≤ (g.parents c).count p) :=
        count_redirected_le (n := fun c => (g.parents c).count p) (b := p ∈ g.parents id) hne
          count_eq_zero_of_not_mem hc
      rw [hchildren]
      rcases Nat.eq_or_lt_of_le (Nat.le_of_lt_succ hc') with rfl | hclt
      · have hnot : g.size ∉ g.children p := fun h => (hg.children_lt hscan' h).false
        refine Nat.le_trans (hmoved (by rw [count_eq_zero_of_not_mem hnot]; exact Nat.zero_le _)) ?_
        rw [hnew, if_neg (Ne.symm hne), parents_of_size_le le_rfl, count_nil,
          Nat.zero_add]
        split
        · exact hg.slots p hp hscan' id hid
        · exact Nat.zero_le _
      · rw [isLive_inserted_of_lt hlt hclt] at hc
        refine Nat.le_trans (hmoved (hg.slots p hp hscan' c hc)) ?_
        have hother : ¬ (c = g.size ∧ p ∈ g.parents id) := fun h => hclt.ne h.1
        rw [if_neg hother, parents_inserted_of_lt hlt hclt, count_append]
        refine Nat.le_trans ?_ (Nat.le_add_right _ _)
        split <;> simp

omit hg in
theorem expr_inserted_cases (make : NodeId → Expr) (hv : v < g.size) :
    Expr.Redirected id g.size (g.expr v) ((g.inserted id make).expr v) := by
  rw [expr_inserted_of_lt (lt_size_of_isLive hid) hv]
  split
  · exact .inr rfl
  · exact .inl rfl

/-- A variable over the node is now one over the new node, if the node that declares it is one of
the parents. -/
theorem varSource?_inserted (hv : v < g.size) :
    (g.inserted id make).varSource? v = g.varSource? v ∨
      (g.varSource? v = some id ∧ (g.inserted id make).varSource? v = some g.size) := by
  exact varSource?_redirect_cases (fun _ => (expr_inserted_cases hid make hv).eq_var)
    fun x hx p hp => expr_inserted_cases hid make (hg.decl_lt v x hx p hp)

omit hg in
theorem mem_children_inserted (hv : v < g.size) (hu : u ∈ (g.inserted id make).children v) :
    u ∈ g.children v ∨ (u = g.size ∧ id ∈ g.children v) := by
  rw [children] at hu
  rcases expr_inserted_cases hid make hv with he | he
  · rw [he] at hu
    exact .inl hu
  · rw [he, Expr.children_mapChildren] at hu
    obtain ⟨c, hc, hcu⟩ := mem_map.1 hu
    rcases redirect_cases hcu.symm with rfl | ⟨rfl, rfl⟩
    · exact .inl hc
    · exact .inr ⟨rfl, hc⟩

theorem mem_reads_inserted (hv : v < g.size) (hu : u ∈ (g.inserted id make).reads v) :
    u ∈ g.reads v ∨ (u = g.size ∧ id ∈ g.reads v) := by
  cases hx : g.expr v with
  | var x =>
    have hx' := (expr_inserted_cases hid make hv).eq_var.2 hx
    simp only [reads, hx', hx] at hu ⊢
    rcases varSource?_inserted hg hid hv with hs | ⟨hs, hs'⟩
    · exact .inl (hs ▸ hu)
    · rw [hs', Option.toList_some, mem_singleton] at hu
      exact .inr ⟨hu, by simp [hs]⟩
  | block b =>
    rcases expr_inserted_cases hid make hv with he | he
    · simp only [reads, he, hx] at hu ⊢
      exact .inl hu
    · simp only [reads, he, hx, Expr.mapChildren, Block.mapSlots, Block.firstVar?, head?_map,
        Option.map_map, map_map] at hu ⊢
      split at hu
      · next hstar =>
        rw [if_pos hstar]
        exact .inl hu
      · next hstar =>
        rw [if_neg hstar]
        obtain ⟨f, hf, hfu⟩ := mem_map.1 hu
        rcases redirect_cases hfu.symm with rfl | ⟨rfl, rfl⟩
        · exact .inl (mem_map_of_mem hf)
        · exact .inr ⟨rfl, mem_map_of_mem hf⟩
  | scan s =>
    rcases expr_inserted_cases hid make hv with he | he <;> simp [reads, he, hx, Expr.mapChildren] at hu
  | _ =>
    have hchildren : u ∈ (g.inserted id make).children v := by
      rcases expr_inserted_cases hid make hv with he | he <;>
        simpa only [reads, children, he, hx, Expr.mapChildren] using hu
    have := mem_children_inserted hid hv hchildren
    simpa only [reads, children, hx] using this

/-- A set that holds what its members use and read does so still, with the new node. -/
theorem mem_grown_inserted (hm : g.Maintained S work) (hv : S v)
    (hu : u ∈ (g.inserted id make).children v ∨ u ∈ (g.inserted id make).reads v) :
    grown S g (g.inserted id make) u := by
  have hin := hm.inside v hv
  have hcases : (u ∈ g.children v ∨ u ∈ g.reads v) ∨ u = g.size := by
    rcases hu with hu | hu
    · exact (mem_children_inserted hid hin hu).imp .inl And.left
    · exact (mem_reads_inserted hg hid hin hu).imp .inr And.left
  rcases hcases with hu | rfl
  · exact .inl (hm.closed v hv u hu)
  · exact .inr ⟨le_rfl, size_inserted ▸ Nat.lt_succ_self _⟩

/-- What used the node may now use the new one. -/
theorem mem_uses_inserted (hv : v < g.size) (hu : u ∈ (g.inserted id make).uses v) :
    u ∈ g.uses v ∨ (u = g.size ∧ id ∈ g.uses v) := by
  have hexpr := expr_inserted_cases hid make hv
  simp only [uses, hexpr.isScan_eq, hexpr.declared_eq, mem_append] at hu ⊢
  rcases hu with (hu | hu) | hu
  · split at hu
    · cases hu
    · next hscan =>
      rcases mem_children_inserted hid hv hu with hu | ⟨rfl, hmem⟩
      · simp [hscan, hu]
      · simp [hscan, hmem]
  · exact .inl (.inl (.inr hu))
  · rcases varSource?_inserted hg hid hv with hs | ⟨hs, hs'⟩
    · exact .inl (.inr (hs ▸ hu))
    · rw [hs', Option.toList_some, mem_singleton] at hu
      exact .inr ⟨hu, .inr (by simp [hs])⟩

section
variable (hmake : g.IsInsertable (make id)) (hscan : (g.expr id).isScan = false)
include hmake

theorem mem_uses_inserted_self (hu : u ∈ (g.inserted id make).uses g.size) :
    u ∈ (make id).children ∨ u ∈ (make id).declared := by
  have hself : _ = make id := expr_inserted_new hg hid
  have hvar : (g.inserted id make).varSource? g.size = none := by
    rw [varSource?, var?, hself]
    cases he : make id with
    | var x => exact absurd he (hmake.ne_var x)
    | _ => rfl
  rw [uses, children, hself, hvar, hmake.not_scan] at hu
  simpa using hu

/-- The new node has a place in the order between the node and what used it. -/
theorem Ordered.inserted (ho : g.Ordered rank)
    (hnew : ∀ u, u ∈ (make id).children ∨ u ∈ (make id).declared → rank u < rank g.size)
    (hold : ∀ v, id ∈ g.uses v → rank g.size < rank v) : (g.inserted id make).Ordered rank := by
  have hsize : (g.inserted id make).size = g.size + 1 := size_inserted
  have hcases {v u : NodeId} (hu : u ∈ (g.inserted id make).uses v) : v < g.size ∨ v = g.size :=
    Nat.lt_or_eq_of_le (Nat.le_of_lt_add_one (hsize ▸ lt_size_of_mem_uses hu))
  refine ho.of_uses (hsize ▸ Nat.le_succ _) fun v u hu => ?_
  rw [hsize]
  rcases hcases hu with hv | rfl
  · refine (mem_uses_inserted hg hid hv hu).imp_right ?_
    rintro ⟨rfl, hold'⟩
    exact ⟨hold v hold', Nat.lt_succ_self _⟩
  · have hu := mem_uses_inserted_self hg hid hmake hu
    refine .inr ⟨hnew u hu, ?_⟩
    rcases hu with hu | hu
    · exact Nat.lt_succ_of_lt (hmake.children_lt u hu)
    · obtain ⟨x, hx, -⟩ := hmake.declared u hu
      exact Nat.lt_succ_of_lt (lt_size_of_var hx)

omit hg hmake in
theorem rowType_inserted (hv : v < g.size) :
    ((g.inserted id make).scan? v).map (·.rowType) = (g.scan? v).map (·.rowType) := by
  rcases expr_inserted_cases hid make hv with he | he
  · rw [scan?, he, scan?]
  · rw [scan?, he, scan?]
    cases g.expr v <;> rfl

omit hg hmake in
theorem exists_scan_inserted (hv : v < g.size) :
    (∃ s, (g.inserted id make).scan? v = some s) ↔ ∃ s, g.scan? v = some s := by
  have : ((g.inserted id make).scan? v).map (·.rowType) = (g.scan? v).map (·.rowType) :=
    rowType_inserted hid hv
  cases hs : g.scan? v <;> cases hs' : (g.inserted id make).scan? v <;> simp_all

include hscan

theorem Scoped.inserted : (g.inserted id make).Scoped := by
  have hlt := lt_size_of_isLive hid
  have hsize : (g.inserted id make).size = g.size + 1 := size_inserted
  have hself : _ = make id := expr_inserted_new hg hid
  have hvar (v : NodeId) (hv : v < g.size) (x : Variable) :
      (g.inserted id make).expr v = .var x ↔ g.expr v = .var x :=
    (expr_inserted_cases hid make hv).eq_var
  have hdeclared {v : NodeId} (hv : v < g.size) :=
    (expr_inserted_cases hid make hv).declared_eq
  have hdecl : (g.inserted id make).DeclaresBut fun _ => False := by
    intro u x hu _ hx p hp
    have hult : u < g.size := by
      refine Nat.lt_of_le_of_ne (Nat.le_of_lt_add_one (hsize ▸ lt_size_of_var hx)) fun h => ?_
      exact hmake.ne_var x (hself.symm.trans (h ▸ hx))
    have hx := (hvar u hult x).1 hx
    have hplt := hg.decl_lt u x hx p hp
    rw [isLive_inserted_of_lt hlt hplt, hdeclared hplt]
    exact hg.decl u x (isLive_inserted_of_lt hlt hult ▸ hu) hx p hp
  refine ((hg.toScoped.but _).of_same (hsize ▸ Nat.le_succ _) hvar
    (fun v hv => by rw [hdeclared hv]) (fun v s hs => ?_) (fun v hv b' hb => ?_)
    (fun v hge hv => ?_) hdecl).scoped fun u hu => hu.elim
  · exact (exists_scan_inserted hid (lt_size_of_scan? hs)).2 ⟨s, hs⟩
  · -- The first entry of a block is redirected only if it is no scan.
    have hdomain {b : Block} {e : FromEntry} (hb : g.block? v = some b)
        (he : b.entries.head? = some e) : e.domain < g.size :=
      hg.domain_lt hb (mem_of_head? he)
    rcases expr_inserted_cases hid make hv with he | he
    · rw [block?, he] at hb
      exact ⟨b', hb, fun h => h, fun _ _ he _ => he, fun e s he hs =>
        ⟨he, (exists_scan_inserted hid (hdomain hb he)).1 ⟨s, hs⟩⟩⟩
    · rw [block?_eq_some, he] at hb
      cases hg' : g.expr v with
      | block b =>
        rw [hg', Expr.mapChildren] at hb
        cases hb
        have hb := block?_eq_some.2 hg'
        refine ⟨b, hb, fun h => h, fun e s he hs => ?_, fun e' s he' hs => ?_⟩
        · have hne : e.domain ≠ id := fun h => by
            rw [h, scan?_eq_none.2 hscan] at hs
            cases hs
          simp [Block.mapSlots, head?_map, he, redirect, hne]
        · rw [Block.mapSlots, head?_map] at he'
          obtain ⟨e, he, rfl⟩ := Option.map_eq_some_iff.1 he'
          by_cases hne : e.domain = id
          · simp only [redirect, hne, if_true, scan?_eq_none.2 (hself ▸ hmake.not_scan)] at hs
            cases hs
          · simp only [redirect, hne, if_false] at hs ⊢
            exact ⟨he, (exists_scan_inserted hid (hdomain hb he)).1 ⟨s, hs⟩⟩
      | _ =>
        rw [hg', Expr.mapChildren] at hb
        cases hb
  · obtain rfl := Nat.eq_of_le_of_lt_succ hge (hsize ▸ hv)
    rw [hself]
    refine ⟨hmake.nodup, fun u hu => ?_, fun x hx => ?_, fun b hb => ?_⟩
    · obtain ⟨x, hx, hdecl⟩ := hmake.declared u hu
      exact ⟨x, (hvar u (lt_size_of_var hx) x).2 hx, hdecl⟩
    · exact absurd hx (hmake.ne_var x)
    · have hb : make id = .block b := hself ▸ block?_eq_some.1 hb
      obtain ⟨hstar, hhead⟩ := hmake.block b hb
      refine ⟨hstar, fun e he => ?_⟩
      have hlt : e.domain < g.size := by
        refine hmake.children_lt _ ?_
        rw [hb]
        exact mem_children_of_mem_entries (mem_of_head? he)
      exact scan?_eq_none.2 ((expr_inserted_cases hid make hlt).isScan_eq.trans (hhead e he))

theorem Sound.inserted (ho : g.Ordered rank)
    (hnew : ∀ u, u ∈ (make id).children ∨ u ∈ (make id).declared → rank u < rank g.size)
    (hold : ∀ v, id ∈ g.uses v → rank g.size < rank v) : (g.inserted id make).Sound :=
  { Linked.inserted hg hid hmake, Scoped.inserted hg hid hmake hscan with
    ordered := ⟨rank, ho.inserted hg hid hmake hnew hold⟩ }

theorem constantType?_inserted (hv : v < g.size) :
    (g.inserted id make).constantType? v = g.constantType? v := by
  have hself : _ = make id := expr_inserted_new hg hid
  unfold constantType?
  cases hx : g.expr v with
  | var x =>
    have hx' := (expr_inserted_cases hid make hv).eq_var.2 hx
    simp only [hx']
    cases hk : x.kind with
    | row =>
      have hd : g.varSource? v = g.domain? v := by simp [varSource?, var?, hx, hk]
      have hd' : (g.inserted id make).varSource? v = (g.inserted id make).domain? v := by
        simp [varSource?, var?, hx', hk]
      simp only [← hd, ← hd']
      have hcases : (g.inserted id make).varSource? v = g.varSource? v ∨ _ :=
        varSource?_inserted hg hid hv
      rcases hcases with hs | ⟨hs, hs'⟩
      · rw [hs]
        cases hsource : g.varSource? v with
        | none => rfl
        | some d =>
          have : ((g.inserted id make).scan? d).map (·.rowType) = (g.scan? d).map (·.rowType) :=
            rowType_inserted hid (hg.source_lt hsource)
          simp only [Option.bind_some, map_one_rowType, this]
      · have hnot : (g.inserted id make).scan? g.size = none :=
          scan?_eq_none.2 (hself ▸ hmake.not_scan)
        rw [hs, hs']
        simp [scan?_eq_none.2 hscan, hnot]
    | _ => simp only
  | _ =>
    rcases expr_inserted_cases hid make hv with he | he <;> rw [he, hx]
    simp [Expr.mapChildren]

/-! ## Types -/

omit hscan in
theorem mem_children_of_reads_inserted (hu : u ∈ (g.inserted id make).reads g.size) :
    u ∈ (make id).children := by
  have hself : _ = make id := expr_inserted_new hg hid
  cases hm : make id with
  | block b =>
    have hstar := (hmake.block b hm).1
    simp only [reads, hself, hm, hstar, Bool.false_eq_true, if_false] at hu
    simp only [Expr.children, mem_append]
    tauto
  | scan s => simp [reads, hself, hm] at hu
  | var x => exact absurd hm (hmake.ne_var x)
  | _ => simpa [reads, hself, hm] using hu

/-- The nodes with new rules: those with a slot that held the node, and variables over it. -/
def insertedOver (g h : Graph) (id : NodeId) : List NodeId :=
  (g.parents id ++ (List.range g.size).filter fun v => decide (h.varSource? v ≠ g.varSource? v)).filter
    fun v => (g.constantType? v).isNone

theorem Edits.inserted (hm : g.Maintained S work) :
    Edits g (g.inserted id make) S (grown S g (g.inserted id make))
      (insertedOver g (g.inserted id make) id) := by
  have hlt := lt_size_of_isLive hid
  have hsize : (g.inserted id make).size = g.size + 1 := size_inserted
  refine Edits.of_same hm (fun v hv => type?_inserted_of_lt hlt hv)
    (fun v hv => isLive_inserted_of_lt hlt hv) (fun v hge hv => ?_)
    (fun v x _ hx => (expr_inserted_cases hid make (lt_size_of_var hx)).eq_var.2 hx)
    (fun v hv he => ?_) (fun v hv => constantType?_inserted hg hid hmake hscan hv)
    (fun v hv hconst hnot => ?_) fun v hv => ?_
  · obtain rfl := Nat.eq_of_le_of_lt_succ hge (hsize ▸ hv)
    rw [type?, Graph.isLive, node_inserted_self hlt (hg.parents_lt id)]
    exact ⟨rfl, rfl⟩
  · rcases expr_inserted_cases hid make hv with he' | he' <;> rw [he', he]
    rfl
  · have hparent : v ∉ g.parents id := fun h => hnot (by simp [insertedOver, h, hconst])
    refine .of_expr_eq (by rw [expr_inserted_of_lt hlt hv, if_neg hparent]) fun _ => ?_
    by_contra hne
    refine hnot ?_
    simp only [insertedOver, mem_filter, mem_append, mem_range, hconst,
      decide_eq_true_eq, Option.isNone_none, and_true]
    exact .inr ⟨hv, hne⟩
  · have := (mem_filter.1 hv).2
    simpa using this

/-- When a node is put above another one, its parents are to be refreshed, and so is the node
itself. -/
theorem Maintained.inserted (hm : g.Maintained S work) (hsound : (g.inserted id make).Sound)
    (hS : ∀ c ∈ (make id).children, S c) (hopen : (g.inserted id make).constantType? g.size = none) :
    (g.inserted id make).Maintained (grown S g (g.inserted id make))
      (g.parents id ++ g.size :: work) := by
  have hlt := lt_size_of_isLive hid
  have hsize : (g.inserted id make).size = g.size + 1 := size_inserted
  have hself : _ = make id := expr_inserted_new hg hid
  have hnode : (g.inserted id make).node g.size = _ := node_inserted_self hlt (hg.parents_lt id)
  have hm' := hm.edit hsound (Edits.inserted hg hid hmake hscan hm) (fun v hv => ?_)
    fun v hv u hu => ?_
  · refine hm'.mono fun x hx => ?_
    rcases mem_append.1 hx with hx | hx
    · have hx := (mem_filter.1 hx).1
      rcases mem_append.1 hx with hx | hx
      · exact .here (mem_append_left _ hx)
      · -- A variable that changed its source waits for the new node.
        obtain ⟨hx, hne⟩ := mem_filter.1 hx
        have hne := of_decide_eq_true hne
        rcases varSource?_inserted hg hid (mem_range.1 hx) with hs | ⟨-, hs⟩
        · exact absurd hs hne
        · refine .through (mem_reads_of_varSource? hs) ?_ ?_ hopen
            (.here (mem_append_right _ (.head _)))
          · rw [isLive, hnode]
          · rw [type?, hnode]
    · exact .here (mem_append_right _ (.tail _ hx))
  · rcases hv with hv | hv
    · exact hsize ▸ Nat.lt_succ_of_lt (hm.inside v hv)
    · exact hv.2
  · rcases hv with hv | ⟨hge, hv⟩
    · exact mem_grown_inserted hg hid hm hv hu
    · obtain rfl := Nat.eq_of_le_of_lt_succ hge (hsize ▸ hv)
      refine .inl (hS u ?_)
      rcases hu with hu | hu
      · rwa [children, hself] at hu
      · exact mem_children_of_reads_inserted hg hid hmake hu

end

end

end Graph

end ShardedQuery
