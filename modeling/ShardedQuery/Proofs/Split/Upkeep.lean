import ShardedQuery.Proofs.Split.Outcome

/-!
# Sound graphs and settled types across a split

The stages of a split each keep a graph sound. The boundary takes over the type of the block, so
that nothing has to be refreshed. Turning the block into the server part leaves the block to be
refreshed, and putting the client part above the boundary leaves the client part, its variable and
what used the boundary. When all of these are refreshed, types are settled again.
-/

namespace ShardedQuery.Graph

open List

variable {g h : Graph} {block boundary u input v : NodeId} {limit offset : Option NodeId}
  {rank : NodeId → Nat} {requested : List String} {S : NodeId → Prop} {work : List NodeId}

/-! ## The boundary -/

section
variable {d : Distribution}

/-- The boundary over an input, before it knows of any columns. -/
def boundaryOver (d : Distribution) (input : NodeId) : Expr :=
  .receive { input := input, distribution := d }

/-- A boundary may be put above any node. -/
theorem isInsertable_boundary (hblock : block < g.size) : g.IsInsertable (boundaryOver d block) := by
  refine ⟨fun c hc => ?_, rfl, rfl, nodup_nil, fun u hu => ?_, fun b hb => ?_⟩
  · rw [mem_singleton.1 hc]
    exact hblock
  · cases hu
  · cases hb

variable (hg : g.Sound) (hlive : g.isLive block) (hscan : (g.expr block).isScan = false)
include hg hlive

/-- The boundary ranks between the block and what used the block. -/
theorem exists_ordered_boundary :
    ∃ rank, g.Ordered rank ∧ (g.inserted block (boundaryOver d)).Ordered rank ∧
      (∀ u, u ∈ (boundaryOver d block).children ∨ u ∈ (boundaryOver d block).declared →
        rank u < rank g.size) ∧ ∀ v, block ∈ g.uses v → rank g.size < rank v := by
  obtain ⟨rank, ho⟩ := hg.ordered
  have hlt := lt_size_of_isLive hlive
  let rank' (v : NodeId) : Nat := if v = g.size then 2 * rank block + 1 else 2 * rank v
  have hold (v : NodeId) (hv : v < g.size) : rank' v = 2 * rank v := if_neg hv.ne
  have hnew : rank' g.size = 2 * rank block + 1 := if_pos rfl
  have ho' : g.Ordered rank' := by
    refine ⟨fun v u hu => ?_, ho.mem⟩
    have := ho.rank_lt v u hu
    rw [hold v (lt_size_of_mem_uses hu), hold u (ho.mem v u hu)]
    omega
  have hchild : ∀ u, u ∈ (boundaryOver d block).children ∨ u ∈ (boundaryOver d block).declared →
      rank' u < rank' g.size := by
    rintro u (hu | hu)
    · rw [mem_singleton.1 hu, hnew, hold block hlt]
      exact Nat.lt_succ_self _
    · cases hu
  have huser : ∀ v, block ∈ g.uses v → rank' g.size < rank' v := by
    intro v hv
    have := ho.rank_lt v block hv
    rw [hnew, hold v (lt_size_of_mem_uses hv)]
    omega
  exact ⟨rank', ho', ho'.inserted hg hlive (isInsertable_boundary hlt) hchild huser, hchild, huser⟩

/-- The boundary has the type of the block, and all other types stay the same. -/
theorem exprType_inserted_boundary (v : NodeId) :
    (g.inserted block (boundaryOver d)).exprType v =
      if v = g.size then g.exprType block else g.exprType v := by
  obtain ⟨rank, ho, ho', -, -⟩ := exists_ordered_boundary (d := d) hg hlive
  have hlt := lt_size_of_isLive hlive
  have hself : _ = boundaryOver d block := expr_inserted_new hg hlive
  let t (v : NodeId) : SeqType := if v = g.size then g.exprType block else g.exprType v
  have ht (v : NodeId) (hv : v < g.size) : t v = g.exprType v := if_neg hv.ne
  -- These types solve the typing rules of the new graph.
  refine (ho'.ranked.exprType_unique (A := fun _ => True) (t := t) (fun _ _ _ _ => trivial)
    (fun v _ => ?_) trivial).symm
  rcases Nat.lt_trichotomy v g.size with hv | rfl | hv
  · have hrule : (g.inserted block (boundaryOver d)).typeRule t v = g.typeRule g.exprType v := by
      rw [typeRule_redirect_cases ((if_pos rfl).trans (ht block hlt).symm)
        (expr_inserted_cases hlive _ hv) (varSource?_inserted hg hlive hv)]
      exact typeRule_congr fun u hu => ht u (ho.mem v u (reads_subset_uses hu))
    rw [ht v hv, ho.exprType_eq, type?_inserted_of_lt hlt hv, hrule]
    rfl
  · have htype : (g.inserted block (boundaryOver d)).type? g.size = none := by
      rw [type?, node_inserted_self hlt (hg.parents_lt block)]
    rw [htype]
    simp only [typeRule, hself, boundaryOver, Option.getD_none, ht block hlt]
    exact if_pos rfl
  · have hge : (g.inserted block (boundaryOver d)).size ≤ v := by
      rw [size_inserted]
      exact hv
    rw [show t v = g.exprType v from if_neg hv.ne', type?_of_size_le hge, typeRule,
      expr_of_size_le hge, ho.exprType_of_unkept (type?_of_size_le hv.le), derivedType,
      typeRule, expr_of_size_le hv.le]
    rfl

include hscan in
/-- A graph stays sound with a boundary. -/
theorem sound_inserted_boundary : (g.inserted block (boundaryOver d)).Sound := by
  obtain ⟨rank, ho, -, hnew, hold⟩ := exists_ordered_boundary (d := d) hg hlive
  exact hg.inserted hlive (isInsertable_boundary (lt_size_of_isLive hlive)) hscan ho hnew hold

/-- What used the block derives the same type over the boundary. -/
theorem derivedType_inserted_boundary (hv : v < g.size) :
    (g.inserted block (boundaryOver d)).derivedType v = g.derivedType v := by
  obtain ⟨rank, ho⟩ := hg.ordered
  have htype := exprType_inserted_boundary (d := d) hg hlive
  rw [derivedType, typeRule_redirect_cases ?_ (expr_inserted_cases hlive _ hv)
    (varSource?_inserted hg hlive hv)]
  · refine typeRule_congr fun u hu => ?_
    rw [htype, if_neg (ho.mem v u (reads_subset_uses hu)).ne]
  · rw [htype, htype, if_pos rfl, if_neg (lt_size_of_isLive hlive).ne]

omit hg in
include hscan in
/-- Putting the boundary above a block leaves nothing to be refreshed. -/
theorem Maintained.insertBoundary (hm : g.Maintained S []) (hS : S block)
    (hliteral : ∀ a, g.expr block ≠ .literal a) :
    (g.inserted block (boundaryOver d)).Maintained (grown S g (g.inserted block (boundaryOver d)))
      [] := by
  have hg := hm.toSound
  have hlt := lt_size_of_isLive hlive
  have hmake : g.IsInsertable (boundaryOver d block) := isInsertable_boundary hlt
  have hself : _ = boundaryOver d block := expr_inserted_new hg hlive
  have hsound := sound_inserted_boundary (d := d) hg hlive hscan
  have hgeneral := hm.inserted hg hlive hmake hscan hsound (fun c hc => mem_singleton.1 hc ▸ hS)
    (by simp only [constantType?, hself, boundaryOver])
  refine ⟨hsound, ⟨hgeneral.constants, hgeneral.dead, fun v hv hvlive => ?_⟩, hgeneral.inside,
    hgeneral.closed⟩
  rcases hv with hv | ⟨hge, hvlt⟩
  · have hin := hm.inside v hv
    rw [isLive_inserted_of_lt hlt hin] at hvlive
    rcases hm.current v hv hvlive with h | ⟨u, hu, hempty⟩ | h
    · refine .inl fun t ht => ?_
      rw [type?_inserted_of_lt hlt hin] at ht
      rw [derivedType_inserted_boundary hg hlive hin]
      exact h t ht
    · refine .inr (.inl ⟨u, ?_, ?_⟩)
      · rcases varSource?_inserted hg hlive hin with hs | ⟨hs, -⟩
        · exact hs.trans hu
        · rw [hu] at hs
          cases hs
          exact absurd hempty (hliteral .empty)
      · rcases expr_inserted_cases hlive (boundaryOver d) (hg.source_lt hu) with he | he <;>
          rw [he, hempty]
        rfl
    · exact (not_awaits_nil h).elim
  · obtain rfl := Nat.eq_of_le_of_lt_succ hge (size_inserted ▸ hvlt)
    refine .inl fun t ht => ?_
    rw [type?, node_inserted_self hlt (hg.parents_lt block)] at ht
    cases ht

end

/-! ## The server part -/

/-- Edits of one block in a sound graph: the block declares what it did, its children know it, and
what was added is used by the block alone. -/
structure KeepsScope (block : NodeId) (operands : List NodeId) (g h : Graph) (b b' : Block) : Prop
    extends EditsBlock block operands g h where
  before : g.block? block = some b
  after : h.block? block = some b'
  entries : b'.entries = b.entries
  star : b'.star → b.star
  operands_mem : ∀ u ∈ operands, u ∈ g.uses block
  slots : h.RecordsSlots block
  mem_children : ∀ c ∈ (Expr.block b').children,
    c ∈ (Expr.block b).children ∨ (g.size ≤ c ∧ c < h.size)

section
variable {operands : List NodeId} {b b' : Block} (he : KeepsScope block operands g h b b')
  (hg : g.Sound)
include he

/-- Such edits touch no variable. -/
theorem KeepsScope.reforms : Reforms (fun _ => False) g h := by
  refine ⟨he.size_le, fun v hv => ?_, fun v hge hlt => ?_⟩
  · by_cases hvb : v = block
    · rw [hvb, block?_eq_some.1 he.before, block?_eq_some.1 he.after]
      refine .block he.star ?_ ?_ fun _ _ => ?_ <;> rw [he.entries]
    · exact he.expr_eq v hv hvb ▸ .refl _
  · rcases (he.fresh v hge hlt).expr with ⟨u, -, name, hx⟩ | ⟨a, hx⟩ | ⟨a, -, c, -, hx⟩ <;> rw [hx] <;>
      exact ⟨rfl, fun x hx => (by cases hx), fun b hb => (by cases hb)⟩

include hg

/-- Parents stay right. -/
theorem KeepsScope.linked : h.Linked := by
  have hlt := lt_size_of_block? he.before
  refine ⟨fun v p hp => ?_, fun v p hp => ?_, fun p hp hscan => ?_⟩
  · rcases he.mem_parents v p hp with hp | rfl | hp
    · exact (hg.parents_lt v p hp).trans_le he.size_le
    · exact hlt.trans_le he.size_le
    · exact hp.2.1
  · rcases he.mem_parents v p hp with hp | rfl | hp
    · by_cases hpb : p = block
      · rw [hpb, block?_eq_some.1 he.after]
        rfl
      · rw [he.expr_eq p (hg.parents_lt v p hp) hpb]
        exact hg.parents_inner v p hp
    · rw [block?_eq_some.1 he.after]
      rfl
    · exact isLeaf_eq_false hp.2.2
  · by_cases hpb : p = block
    · exact hpb ▸ he.slots
    · rcases Nat.lt_or_ge p g.size with hplt | hpge
      · intro c hc
        rw [he.live_eq p hplt] at hp
        rw [(he.reforms.expr p hplt).isScan_eq] at hscan
        have hchildren : h.children p = g.children p := congrArg Expr.children (he.expr_eq p hplt hpb)
        rw [hchildren]
        rcases Nat.lt_or_ge c g.size with hclt | hcge
        · rw [he.count_eq c p hclt hplt hpb]
          exact hg.slots p hp hscan c (he.live_eq c hclt ▸ hc)
        · have hnot : c ∉ g.children p := fun h => not_lt.2 hcge (hg.children_lt hscan h)
          rw [count_eq_zero_of_not_mem hnot]
          exact Nat.zero_le _
      · exact (he.fresh p hpge (lt_size_of_isLive hp)).slots

/-- Scopes stay in order. -/
theorem KeepsScope.scoped : h.Scoped :=
  he.reforms.scoped hg.toScoped (fun _ hscan _ => hg.children_lt hscan)
    (fun v hv hlive => he.live_eq v hv ▸ hlive)
    (fun p hp _ => (he.live_eq p (lt_size_of_isLive hp)).trans hp) fun _ hu => hu.elim

/-- Only the block uses what was added, and what was added uses the operands. -/
theorem KeepsScope.mem_uses (hu : u ∈ h.uses v) :
    u ∈ g.uses v ∨ (v = block ∧ g.size ≤ u ∧ u < h.size) ∨ (g.size ≤ v ∧ u ∈ operands) := by
  have hvlt := lt_size_of_mem_uses hu
  rcases Nat.lt_or_ge v g.size with hlt | hge
  · by_cases hvb : v = block
    · subst hvb
      have hdeclared := (he.reforms.expr v hlt).declared_sublist
      rw [uses, he.reforms.varSource?_eq hlt id hg.toScoped, children] at hu
      simp only [uses, children, block?_eq_some.1 he.after, block?_eq_some.1 he.before,
        mem_append] at hu hdeclared ⊢
      rcases hu with (hu | hu) | hu
      · rcases he.mem_children u hu with hu | hu
        · exact .inl (.inl (.inl hu))
        · exact .inr (.inl ⟨trivial, hu⟩)
      · exact .inl (.inl (.inr (hdeclared.subset hu)))
      · exact .inl (.inr hu)
    · refine .inl ?_
      rwa [uses, children, he.expr_eq v hlt hvb,
        he.reforms.varSource?_eq hlt id hg.toScoped] at hu
  · have hu := (he.reforms.fresh v hge hvlt).mem_children hu
    exact .inr (.inr ⟨hge, (he.fresh v hge hvlt).expr.mem_operands hu⟩)

/-- What was added ranks right below the block. -/
theorem KeepsScope.exists_ordered :
    ∃ rank, h.Ordered rank ∧ ∀ u ∈ g.uses block, rank u < rank block := by
  obtain ⟨rank, ho⟩ := hg.ordered
  have hbelow {u : NodeId} (hu : u ∈ g.uses block) : rank u < rank block ∧ u < g.size :=
    ⟨ho.rank_lt block u hu, ho.mem block u hu⟩
  obtain ⟨rank', ho', hmono⟩ := ho.exists_below (lt_size_of_block? he.before) he.size_le
    fun v u hu => (he.mem_uses hg hu).imp_right fun h => h.imp_right fun ⟨hge, hu⟩ =>
      ⟨.inr hge, hbelow (he.operands_mem u hu)⟩
  exact ⟨rank', ho', fun u hu => hmono u (hbelow hu).2 (hbelow hu).1⟩

/-- The graph stays sound. -/
theorem KeepsScope.sound : h.Sound := by
  obtain ⟨rank, ho, -⟩ := he.exists_ordered hg
  exact { he.linked hg, he.scoped hg with ordered := ⟨rank, ho⟩ }

omit hg in
/-- After such edits the block is to be refreshed. -/
theorem KeepsScope.maintained (hm : g.Maintained S work)
    (hblock : S block) (hS : ∀ u ∈ operands, S u) : h.Maintained (grown S g h) (block :: work) := by
  have hg := hm.toSound
  have hlt := lt_size_of_block? he.before
  have hedit : Edits g h S (grown S g h) [block] := by
    refine Edits.of_same hm he.type_eq he.live_eq (fun v hge hv => ?_) (fun v x _ hx => ?_)
      (fun v hv hx => (he.reforms.expr v hv).eq_literal.2 hx)
      (fun v hv => he.reforms.constantType?_eq hv id hg) (fun v hv _ hnot => ?_) fun v hv => ?_
    · exact ⟨(he.fresh v hge hv).type, (he.fresh v hge hv).live⟩
    · exact (he.reforms.expr v (lt_size_of_var hx)).eq_var.2 hx
    · exact .of_expr_eq (he.expr_eq v hv fun h => hnot (mem_singleton.2 h)) fun _ =>
        he.reforms.varSource?_eq hv id hg.toScoped
    · rw [mem_singleton.1 hv]
      simp only [constantType?, block?_eq_some.1 he.before]
  refine hm.edit (he.sound hg) hedit (fun v hv => ?_) fun v hv u hu => ?_
  · rcases hv with hv | hv
    · exact (hm.inside v hv).trans_le he.size_le
    · exact hv.2
  · rcases hv with hv | ⟨hge, hvlt⟩
    · have hin := hm.inside v hv
      by_cases hvb : v = block
      · have hreads : u ∈ (Expr.block b').children ∨ (b'.star ∧ u ∈ g.reads v) := by
          subst hvb
          rcases hu with hu | hu
          · rw [children, block?_eq_some.1 he.after] at hu
            exact .inl hu
          · simp only [reads, block?_eq_some.1 he.after, block?_eq_some.1 he.before,
              Block.firstVar?, he.entries] at hu ⊢
            split at hu
            · next hstar => exact .inr ⟨hstar, by simpa [he.star hstar] using hu⟩
            · refine .inl ?_
              simp only [Expr.children, mem_append]
              tauto
        rcases hreads with hu | ⟨-, hu⟩
        · rcases he.mem_children u hu with hu | hu
          · refine .inl (hm.closed block hblock u (.inl ?_))
            rwa [children, block?_eq_some.1 he.before]
          · exact .inr hu
        · exact .inl (hm.closed v hv u (.inr hu))
      · have hexpr := he.expr_eq v hin hvb
        refine .inl (hm.closed v hv u ?_)
        rwa [children, hexpr, (SameRule.of_expr_eq hexpr fun _ =>
          he.reforms.varSource?_eq hin id hg.toScoped).reads_eq] at hu
    · refine .inl (hS u ((he.fresh v hge hvlt).expr.mem_operands ?_))
      rcases hu with hu | hu
      · exact hu
      · rcases (he.fresh v hge hvlt).expr with ⟨w, -, name, hx⟩ | ⟨a, hx⟩ | ⟨a, -, c, -, hx⟩ <;>
          simpa [reads, children, hx] using hu

end

/-! ## Declaring the variable of a block -/

/-- A row variable that is not declared yet is the only variable of a block, over an input that is
no scan. No other node declares it. -/
structure IsPending (g : Graph) (u p d : NodeId) (x : Variable) : Prop where
  var : g.expr u = .var x
  kind : x.kind = .row
  undeclared : x.decl = none
  block : ∃ b, g.block? p = some b ∧ b.entries = [⟨d, u⟩] ∧ b.star = false
  live : g.isLive p
  only : ∀ q, u ∈ (g.expr q).declared → q = p
  input : g.scan? d = none

section
variable {p d : NodeId} {x : Variable} (hp : g.IsPending u p d x)
include hp

/-- To declare the variable changes it and no other node. -/
theorem IsPending.expr_declare (v : NodeId) :
    (g.declare u p).expr v = if v = u then .var { x with decl := some p } else g.expr v := by
  rw [declare, expr_modifyExpr]
  by_cases hv : v = u
  · rw [if_pos ⟨hv, hv ▸ lt_size_of_var hp.var⟩, if_pos hv, hv, hp.var]
  · rw [if_neg fun h => hv h.1, if_neg hv]

/-- The variable names its block. -/
theorem IsPending.expr_declare_self : (g.declare u p).expr u = .var { x with decl := some p } :=
  (hp.expr_declare u).trans (if_pos rfl)

/-- Other nodes stay. -/
theorem IsPending.expr_declare_of_ne (hv : v ≠ u) : (g.declare u p).expr v = g.expr v :=
  (hp.expr_declare v).trans (if_neg hv)

/-- What does not depend on the declaration of a variable is as it was. -/
theorem IsPending.view_declare {α : Type} (v : NodeId) (f : Expr → α)
    (hf : ∀ y, f (.var y) = f (.var x)) : f ((g.declare u p).expr v) = f (g.expr v) := by
  by_cases hv : v = u
  · rw [hp.expr_declare, if_pos hv, hv, hp.var, hf]
  · rw [hp.expr_declare_of_ne hv]

/-- Blocks stay. -/
theorem IsPending.block?_declare (v : NodeId) : (g.declare u p).block? v = g.block? v := by
  refine Option.ext fun b => ?_
  rw [block?_eq_some, block?_eq_some]
  exact iff_of_eq (hp.view_declare v (· = .block b) fun _ => by simp)

/-- Scans stay. -/
theorem IsPending.scan?_declare (v : NodeId) : (g.declare u p).scan? v = g.scan? v := by
  refine Option.ext fun s => ?_
  rw [scan?_eq_some, scan?_eq_some]
  exact iff_of_eq (hp.view_declare v (· = .scan s) fun _ => by simp)

/-- Slots stay. -/
theorem IsPending.children_declare (v : NodeId) : (g.declare u p).children v = g.children v :=
  hp.view_declare v Expr.children fun _ => rfl

/-- Each node declares what it did. -/
theorem IsPending.declared_declare (v : NodeId) :
    ((g.declare u p).expr v).declared = (g.expr v).declared :=
  hp.view_declare v Expr.declared fun _ => rfl

/-- Declarations stay. -/
theorem IsPending.sameScope (q : NodeId) : SameScope g (g.declare u p) q v :=
  ⟨by rw [hp.block?_declare], hp.view_declare q Expr.stepInput? fun _ => rfl⟩

/-- The variable is over the input of its block. -/
theorem IsPending.domain?_declare : (g.declare u p).domain? u = some d := by
  obtain ⟨b, hb, hentries, -⟩ := hp.block
  rw [domain?_of_decl hp.expr_declare_self rfl, hp.block?_declare, hb, Option.bind_some, hentries]
  simp

/-- No other variable is over anything new. -/
theorem IsPending.varSource?_declare (v : NodeId) :
    (g.declare u p).varSource? v = if v = u then some d else g.varSource? v := by
  by_cases hv : v = u
  · rw [if_pos hv, hv, ← hp.domain?_declare]
    simp [varSource?, var?, hp.expr_declare_self, hp.kind]
  · rw [if_neg hv]
    exact varSource?_congr (fun y => by rw [hp.expr_declare_of_ne hv]) fun _ _ q _ => hp.sameScope q

/-- No type becomes a constant, as the input is no scan. -/
theorem IsPending.constantType?_declare (v : NodeId) :
    (g.declare u p).constantType? v = g.constantType? v := by
  by_cases hv : v = u
  · have hnone : g.domain? u = none := by simp [domain?, var?, hp.var, hp.undeclared]
    subst hv
    simp [constantType?, hp.expr_declare_self, hp.var, hp.kind, hnone, hp.domain?_declare,
      hp.scan?_declare, hp.input]
  · have hdomain : (g.declare u p).domain? v = g.domain? v :=
      domain?_congr (fun y => by rw [hp.expr_declare_of_ne hv]) fun _ _ q _ => hp.sameScope q
    simp only [constantType?, hp.expr_declare_of_ne hv, hdomain, hp.scan?_declare]

/-- The order stays, if the input ranks below the variable. -/
theorem IsPending.ordered (ho : g.Ordered rank) (hrank : rank d < rank u) (hd : d < g.size) :
    (g.declare u p).Ordered rank := by
  have hsize : (g.declare u p).size = g.size := size_modify ..
  have huses {v w : NodeId} (hw : w ∈ (g.declare u p).uses v) : w ∈ g.uses v ∨ (v = u ∧ w = d) := by
    rw [uses, hp.view_declare v Expr.isScan fun _ => rfl, hp.children_declare, hp.declared_declare,
      hp.varSource?_declare] at hw
    rw [uses]
    rcases mem_append.1 hw with hw | hw
    · exact .inl (mem_append_left _ hw)
    · split at hw
      · next hv => exact .inr ⟨hv, by simpa using hw⟩
      · exact .inl (mem_append_right _ hw)
  refine ho.of_uses hsize.symm.le fun v w hw => (huses hw).imp_right ?_
  rintro ⟨rfl, rfl⟩
  exact ⟨hrank, hsize ▸ hd⟩

/-- The graph stays sound. -/
theorem IsPending.sound (hg : g.Sound) (ho : g.Ordered rank) (hrank : rank d < rank u)
    (hd : d < g.size) : (g.declare u p).Sound := by
  have hsize : (g.declare u p).size = g.size := size_modify ..
  obtain ⟨b, hb, hentries, hstar⟩ := hp.block
  have hlt := lt_size_of_block? hb
  refine
    { ordered := ⟨rank, hp.ordered ho hrank hd⟩
      parents_lt := fun v q hq => ?_
      parents_inner := fun v q hq => ?_
      slots := fun q hq hscan c hc => ?_
      declared := fun q w hw => ?_
      declared_nodup := fun q => ?_
      decl_lt := fun w y hy q hq => ?_
      starred := fun v c hc hs => ?_
      scanned := fun v c e s hc he hs => ?_
      decl := fun w y hw hy q hq => ?_ }
  · rw [declare, parents_modifyExpr] at hq
    exact hsize ▸ hg.parents_lt v q hq
  · rw [declare, parents_modifyExpr] at hq
    exact (hp.view_declare q Expr.isLeaf fun _ => rfl).trans (hg.parents_inner v q hq)
  · rw [declare, isLive_modifyExpr] at hq hc
    rw [hp.children_declare, declare, parents_modifyExpr]
    exact hg.slots q hq ((hp.view_declare q Expr.isScan fun _ => rfl).symm.trans hscan) c hc
  · rw [hp.declared_declare] at hw
    by_cases hwu : w = u
    · subst hwu
      exact ⟨_, hp.expr_declare_self, .inr (by rw [hp.only q hw])⟩
    · rw [hp.expr_declare_of_ne hwu]
      exact hg.declared q w hw
  · rw [hp.declared_declare]
    exact hg.declared_nodup q
  · rw [hsize]
    by_cases hwu : w = u
    · rw [hp.expr_declare, if_pos hwu] at hy
      cases hy
      cases hq
      exact hlt
    · rw [hp.expr_declare_of_ne hwu] at hy
      exact hg.decl_lt w y hy q hq
  · rw [hp.block?_declare] at hc
    obtain ⟨e, s, he, hs⟩ := hg.starred v c hc hs
    exact ⟨e, s, he, (hp.scan?_declare _).trans hs⟩
  · rw [hp.block?_declare] at hc
    rw [hp.scan?_declare] at hs
    obtain ⟨y, hy, hkind, hdecl⟩ := hg.scanned v c e s hc he hs
    refine ⟨y, ?_, hkind, hdecl⟩
    rw [hp.expr_declare_of_ne]
    · exact hy
    · intro h
      rw [h, hp.var] at hy
      cases hy
      rw [hp.undeclared] at hdecl
      cases hdecl
  · rw [declare, isLive_modifyExpr] at hw ⊢
    rw [← declare, hp.declared_declare]
    by_cases hwu : w = u
    · rw [hp.expr_declare, if_pos hwu] at hy
      cases hy
      cases hq
      refine ⟨hp.live, ?_⟩
      rw [block?_eq_some.1 hb, Expr.declared, hentries, hwu]
      simp
    · rw [hp.expr_declare_of_ne hwu] at hy
      exact hg.decl w y hw hy q hq

/-- The variable is left to be refreshed. -/
theorem IsPending.maintained (hm : g.Maintained S work)
    (hsound : (g.declare u p).Sound) (hd : S d) : (g.declare u p).Maintained S (u :: work) := by
  have hsize : (g.declare u p).size = g.size := size_modify ..
  have hrule {v : NodeId} (hv : v ≠ u) : SameRule g (g.declare u p) v :=
    .of_expr_eq (hp.expr_declare_of_ne hv) fun _ => by rw [hp.varSource?_declare, if_neg hv]
  have hconst : g.constantType? u = none := by
    have hnone : g.domain? u = none := by simp [domain?, var?, hp.var, hp.undeclared]
    simp [constantType?, hp.var, hp.kind, hnone]
  have hedit : Edits g (g.declare u p) S (grown S g (g.declare u p)) [u] := by
    refine Edits.of_same hm (fun v _ => type?_modifyExpr _ _) (fun v _ => isLive_modifyExpr _ _)
      (fun v hge hlt => absurd hge (not_le.2 (hsize ▸ hlt))) (fun v y hnot hy => ?_)
      (fun v _ hy => ?_) (fun v _ => hp.constantType?_declare v) (fun v _ _ hnot => ?_)
      fun v hv => ?_
    · rw [hp.expr_declare_of_ne fun h => hnot (mem_singleton.2 h)]
      exact hy
    · rw [hp.expr_declare_of_ne]
      · exact hy
      · rintro rfl
        rw [hp.var] at hy
        cases hy
    · exact hrule fun h => hnot (mem_singleton.2 h)
    · rw [mem_singleton.1 hv]
      exact hconst
  refine hm.editSame hsize hsound hedit fun v hv w hw => ?_
  rw [hp.children_declare] at hw
  by_cases hvu : v = u
  · subst hvu
    rcases hw with hw | hw
    · exact hm.closed v hv w (.inl hw)
    · rw [reads, hp.expr_declare_self] at hw
      simp only [hp.varSource?_declare, if_true, Option.toList_some, mem_singleton] at hw
      exact hw ▸ hd
  · rw [(hrule hvu).reads_eq] at hw
    exact hm.closed v hv w hw

end

/-! ## Adding fields -/

/-- A field of a node is plain. -/
theorem isPlain_field (hinput : input < g.size) (name : String) :
    g.IsPlain (.field input name) := by
  refine ⟨fun c hc => ?_, rfl, fun x hx => ?_, fun b hb => ?_⟩
  · rw [mem_singleton.1 hc]
    exact hinput
  · cases hx
  · cases hb

/-- A graph stays sound with fields. -/
theorem Sound.addFields (names : List String) (hg : g.Sound) (hinput : input < g.size) :
    (g.addFields input names).2.Sound :=
  addFields_induct (P := Sound) names (fun _ name hlt hk => hk.add (isPlain_field hlt name)) hg hinput

/-- Types stay up to date with fields. -/
theorem Maintained.addFields (names : List String) :
    ∀ {g : Graph} {S : NodeId → Prop}, g.Maintained S work → S input →
      (g.addFields input names).2.Maintained (grown S g (g.addFields input names).2) work := by
  induction names with
  | nil =>
    intro g S hm _
    have hself : (g.addFields input []).2 = g := rfl
    rw [hself, grown_self]
    exact hm
  | cons name names ih =>
    intro g S hm hS
    have hsize : (g.addField input name).2.size = g.size + 1 := size_add ..
    have hlt : input < (g.addField input name).2.size := hsize ▸ Nat.lt_succ_of_lt (hm.inside _ hS)
    have hplain : g.IsPlain (.field input name) := isPlain_field (hm.inside _ hS) name
    have hm' := ih (hm.add hplain fun c hc => mem_singleton.1 hc ▸ hS) (.inl hS)
    have hle : (g.addField input name).2.size ≤
        ((g.addField input name).2.addFields input names).2.size := by
      rw [(addsFields input names hlt).size_eq]
      exact Nat.le_add_right _ _
    have hgrown := grown_grown (S := S) (g := g) (hsize ▸ Nat.le_succ _) hle
    have heq : (g.addFields input (name :: names)).2 =
      ((g.addField input name).2.addFields input names).2 := rfl
    rw [heq, ← hgrown]
    exact hm'

/-! ## The client part -/

/-- Makes room above the boundary for the variable of the client part, its fields and the client
part itself. -/
def clientRank (rank : NodeId → Nat) (boundary var client v : NodeId) : Nat :=
  if v < var then (if rank v ≤ rank boundary then rank v else rank v + 4)
  else if v = var then rank boundary + 1
  else if v < client then rank boundary + 2
  else rank boundary + 3

/-- Nodes that were there stay. -/
theorem expr_clientFields_of_lt (hv : v < g.size) :
    (g.clientFields requested).2.expr v = g.expr v := by
  rw [expr, node_clientFields_of_lt hv, expr]

/-- The variable comes first. -/
theorem expr_clientFields_self :
    (g.clientFields requested).2.expr g.size = .var { name := "$from", kind := .row } := by
  rw [expr, node_clientFields_self]

/-- The fields are fields of the variable. -/
theorem expr_clientFields_field {f : SelectField} (hf : f ∈ (g.clientFields requested).1) :
    (g.clientFields requested).2.expr f.expr = .field g.size f.name := by
  rw [expr, addsFields_client.node_eq f hf]

/-- Variables that were there keep their source. -/
theorem varSource?_clientFields (hg : g.Sound) (hv : v < g.size) :
    (g.clientFields requested).2.varSource? v = g.varSource? v :=
  varSource?_congr (fun x => by rw [expr_clientFields_of_lt hv]) fun x hx p hp =>
    .of_expr_eq (expr_clientFields_of_lt (hg.decl_lt v x hx p hp))

/-- The variable is not declared and uses nothing, and the fields use the variable. -/
theorem mem_uses_clientFields (hg : g.Sound) (hu : u ∈ (g.clientFields requested).2.uses v) :
    (v < g.size ∧ u ∈ g.uses v) ∨
      (g.size < v ∧ v < (g.clientFields requested).2.size ∧ u = g.size) := by
  have hvlt := lt_size_of_mem_uses hu
  rcases Nat.lt_trichotomy v g.size with hv | rfl | hv
  · rw [uses, children, expr_clientFields_of_lt hv, varSource?_clientFields hg hv] at hu
    exact .inl ⟨hv, hu⟩
  · simp [uses, children, expr_clientFields_self, varSource?, var?, domain?, Expr.children,
      Expr.declared, Expr.context] at hu
  · obtain ⟨f, hf, rfl⟩ := mem_clientFields hv hvlt
    simp only [uses, children, expr_clientFields_field hf, varSource?, var?, Expr.isScan,
      Expr.children, Expr.declared, Expr.context, Bool.false_eq_true, if_false,
      Option.toList_none, append_nil, mem_singleton] at hu
    exact .inr ⟨hv, hvlt, hu⟩

/-- The fields rank above the variable, and both above the boundary. -/
theorem ordered_clientFields (hg : g.Sound) (ho : g.Ordered rank) : (g.clientFields requested).2.Ordered
    (clientRank rank boundary g.size (g.clientFields requested).2.size) := by
  have hsize : (g.clientFields requested).2.size = g.size + 1 + requested.length :=
    size_clientFields
  refine ⟨fun v u hu => ?_, fun v u hu => ?_⟩
  · rcases mem_uses_clientFields hg hu with ⟨hv, hu⟩ | ⟨hgt, hlt, rfl⟩
    · have hrank := ho.rank_lt v u hu
      have hult := ho.mem v u hu
      simp only [clientRank, hv, hult, if_true]
      split <;> split <;> omega
    · have h₁ : ¬ v < g.size := not_lt.2 hgt.le
      have h₂ : v ≠ g.size := hgt.ne'
      have h₃ : ¬ g.size < g.size := Nat.lt_irrefl _
      simp only [clientRank, h₁, h₂, h₃, hlt, if_false, if_true]
      exact Nat.lt_succ_self _
  · rw [hsize]
    rcases mem_uses_clientFields hg hu with ⟨hv, hu⟩ | ⟨-, -, rfl⟩
    · have := ho.mem v u hu
      grind
    · grind

/-- The client part ranks above its fields. -/
theorem clientRank_client : clientRank rank boundary g.size (g.clientFields requested).2.size
    (g.clientFields requested).2.size = rank boundary + 3 := by
  have hsize : (g.clientFields requested).2.size = g.size + 1 + requested.length :=
    size_clientFields
  have h₁ : ¬ (g.clientFields requested).2.size < g.size := by omega
  have h₂ : (g.clientFields requested).2.size ≠ g.size := by omega
  simp only [clientRank, h₁, h₂, Nat.lt_irrefl, if_false]

/-- Nodes that were there are there. -/
theorem lt_clientFields (hv : v < g.size) : v < (g.clientFields requested).2.size := by
  rw [size_clientFields]
  grind

/-- What the client part uses. -/
theorem mem_children_clientBlock {c : NodeId}
    (hc : c ∈ (Expr.block (g.clientBlock requested offset limit boundary)).children) :
    c = boundary ∨ (∃ f ∈ (g.clientFields requested).1, f.expr = c) ∨
      c ∈ offset.toList ++ limit.toList := by
  simp only [clientBlock, Expr.children, map_cons, map_nil, Option.toList_none,
    append_nil, append_assoc, mem_append, mem_singleton] at hc
  rcases hc with hc | hc | hc
  · exact .inl hc
  · exact .inr (.inl (mem_map.1 hc))
  · exact .inr (.inr (mem_append.2 hc))

section
variable (hboundary : boundary < g.size) (hwindow : ∀ u ∈ offset.toList ++ limit.toList, u < g.size)
  (hscan : (g.expr boundary).isScan = false)
include hboundary hwindow hscan

/-- The client part may be put above the boundary. -/
theorem isInsertable_client : (g.clientFields requested).2.IsInsertable
    (.block (g.clientBlock requested offset limit boundary)) := by
  refine ⟨fun c hc => ?_, rfl, rfl, nodup_singleton _, fun u hu => ?_, fun b hb => ?_⟩
  · rcases mem_children_clientBlock hc with rfl | ⟨f, hf, rfl⟩ | hc
    · exact lt_clientFields hboundary
    · exact (lt_of_mem_clientFields hf).2
    · exact lt_clientFields (hwindow c hc)
  · obtain rfl : u = g.size := mem_singleton.1 hu
    exact ⟨_, expr_clientFields_self, rfl⟩
  · cases hb
    refine ⟨rfl, fun entry hentry => ?_⟩
    obtain rfl := Option.some.inj hentry
    rw [expr_clientFields_of_lt hboundary]
    exact hscan

variable (hg : g.Sound) (ho : g.Ordered rank)
  (hrank : ∀ u ∈ offset.toList ++ limit.toList, rank u ≤ rank boundary)
  (hk : (g.clientFields requested).2.Sound) (hlive : g.isLive boundary)
include hg ho hrank hk hlive

/-- The graph stays sound with the client part. -/
theorem sound_clientGraph : (g.clientGraph boundary requested offset limit).Sound ∧
    (g.clientGraph boundary requested offset limit).Ordered
      (clientRank rank boundary g.size (g.clientFields requested).2.size) := by
  have hblive : (g.clientFields requested).2.isLive boundary := by
    rw [isLive, node_clientFields_of_lt hboundary]
    exact hlive
  have hmake : (g.clientFields requested).2.IsInsertable
      (.block (g.clientBlock requested offset limit boundary)) :=
    isInsertable_client hboundary hwindow hscan
  have hbscan : ((g.clientFields requested).2.expr boundary).isScan = false := by
    rw [expr_clientFields_of_lt hboundary]
    exact hscan
  let rank' := clientRank rank boundary g.size (g.clientFields requested).2.size
  have hclient : rank' (g.clientFields requested).2.size = rank boundary + 3 := clientRank_client
  have hok : (g.clientFields requested).2.Ordered rank' := ordered_clientFields hg ho
  have hold : ∀ v, boundary ∈ (g.clientFields requested).2.uses v →
      rank' (g.clientFields requested).2.size < rank' v := by
    intro v hv
    rcases mem_uses_clientFields hg hv with ⟨hvlt, hv⟩ | ⟨-, -, heq⟩
    · have := ho.rank_lt v boundary hv
      rw [hclient]
      simp only [rank', clientRank, hvlt, if_true]
      split <;> omega
    · exact absurd heq hboundary.ne
  have hnew : ∀ u, u ∈ (Expr.block (g.clientBlock requested offset limit boundary)).children ∨
      u ∈ (Expr.block (g.clientBlock requested offset limit boundary)).declared →
      rank' u < rank' (g.clientFields requested).2.size := by
    rw [hclient]
    rintro u (hu | hu)
    · have hbelow {w : NodeId} (hw : w < g.size) (hle : rank w ≤ rank boundary) :
          rank' w < rank boundary + 3 := by
        simp only [rank', clientRank, hw, if_true, hle]
        omega
      rcases mem_children_clientBlock hu with rfl | ⟨f, hf, rfl⟩ | hu
      · exact hbelow hboundary le_rfl
      · obtain ⟨hgt, hlt⟩ := lt_of_mem_clientFields hf
        have h₁ : ¬ f.expr < g.size := not_lt.2 hgt.le
        have h₂ : f.expr ≠ g.size := hgt.ne'
        simp only [rank', clientRank, h₁, h₂, hlt, if_false, if_true]
        omega
      · exact hbelow (hwindow u hu) (hrank u hu)
    · obtain rfl : u = g.size := mem_singleton.1 hu
      simp only [rank', clientRank, Nat.lt_irrefl, if_false, if_true]
      omega
  exact ⟨hk.inserted hblive hmake hbscan hok hnew hold, hok.inserted hk hblive hmake hnew hold⟩

end

/-- The graph stays sound with the variable and its fields. -/
theorem Sound.clientFields (hg : g.Sound) (requested : List String) :
    (g.clientFields requested).2.Sound :=
  Sound.addFields requested (hg.add (isPlain_var _ _)) (size_addVar ▸ Nat.lt_succ_self _)

/-- The variable of the client part and its fields. -/
theorem Maintained.clientFields (hm : g.Maintained S work) (requested : List String) :
    (g.clientFields requested).2.Maintained (grown S g (g.clientFields requested).2) work := by
  have hsize : (g.addVar "$from" .row).2.size = g.size + 1 := size_addVar
  have hm₁ := hm.add (isPlain_var "$from" .row) fun c hc => by cases hc
  have hm₂ := hm₁.addFields requested (.inr ⟨le_rfl, hsize ▸ Nat.lt_succ_self _⟩)
  have hle : (g.addVar "$from" .row).2.size ≤ (g.clientFields requested).2.size := by
    rw [hsize, size_clientFields]
    exact Nat.le_add_right _ _
  rw [← grown_grown (S := S) (hsize ▸ Nat.le_succ _) hle]
  exact hm₂

/-- No node but the client part declares its variable. -/
theorem isPending_client (hg : g.Sound) (hboundary : boundary < g.size)
    (hscan : (g.expr boundary).isScan = false)
    (hs : SameShape (g.clientGraph boundary requested offset limit) h) :
    h.IsPending g.size (g.clientFields requested).2.size boundary
      { name := "$from", kind := .row } := by
  have hsize : (g.clientFields requested).2.size = g.size + 1 + requested.length :=
    size_clientFields
  have hnode : (g.clientGraph boundary requested offset limit).node
      (g.clientFields requested).2.size = _ :=
    node_clientGraph_client hboundary (hg.parents_lt boundary)
  have hold {v : NodeId} (hv : v < g.size) :
      (h.expr v).declared = (g.expr v).declared ∧ (h.expr v).isScan = (g.expr v).isScan := by
    rw [hs.expr_eq, expr, node_clientGraph_of_lt hboundary hv]
    simp only
    split <;> simp
  have hnew {v : NodeId} (hge : g.size ≤ v) (hlt : v < (g.clientFields requested).2.size) :
      h.expr v = (g.clientFields requested).2.expr v := by
    rw [hs.expr_eq, expr, node_clientGraph_of_ge hboundary (hg.parents_lt boundary) hge hlt]
    rfl
  refine
    { var := (hnew le_rfl (by rw [hsize]; grind)).trans expr_clientFields_self
      kind := rfl
      undeclared := rfl
      block := ⟨g.clientBlock requested offset limit boundary, ?_, rfl, rfl⟩
      live := ?_
      only := fun q hq => ?_
      input := ?_ }
  · rw [block?_eq_some, hs.expr_eq, expr, hnode]
  · rw [hs.live_eq, isLive, hnode]
  · by_contra hne
    rcases Nat.lt_or_ge q g.size with hlt | hge
    · rw [(hold hlt).1] at hq
      obtain ⟨rank, ho⟩ := hg.ordered
      exact (ho.mem q g.size (by simp [uses, hq])).false
    · rcases Nat.lt_trichotomy q (g.clientFields requested).2.size with hlt | heq | hgt
      · rw [hnew hge hlt] at hq
        rcases Nat.eq_or_lt_of_le hge with rfl | hgt
        · rw [expr_clientFields_self] at hq
          cases hq
        · obtain ⟨f, hf, rfl⟩ := mem_clientFields hgt hlt
          rw [expr_clientFields_field hf] at hq
          cases hq
      · exact hne heq
      · rw [expr_of_size_le (by rw [hs.size_eq, size_clientGraph]; exact hgt)] at hq
        cases hq
  · exact scan?_eq_none.2 ((hold hboundary).2.trans hscan)

end ShardedQuery.Graph

namespace ShardedQuery

open ShardedQuery.Graph List

variable {g : Graph} {S : NodeId → Prop}

/-- Living blocks of a sound graph are anchored. -/
theorem Graph.Sound.anchored (hg : g.Sound) {block : NodeId} {b : Block}
    (hb : g.block? block = some b) (hlive : g.isLive block) : g.Anchored block := by
  obtain ⟨rank, ho⟩ := hg.ordered
  have hscan := isScan_of_block? hb
  refine ⟨fun c hc => hg.children_lt hscan hc, fun v hv => ho.mem block v ?_, hg.parents_lt block,
    fun hself => ?_, hg.slots block hlive hscan⟩
  · simp [uses, hv]
  · exact (ho.rank_lt block block (mem_uses_of_child hscan hself)).false

namespace SplitSite

/-- The site describes a living block that scans a table. -/
structure IsScanned (x : SplitSite) (g : Graph) : Prop where
  block_eq : g.block? x.block = some x.b
  live : g.isLive x.block
  entry : ∃ e, x.b.entries.head? = some e ∧ e.var = x.rowVar ∧ g.scan? e.domain = some x.scan

section
variable {x : SplitSite} (hx : x.IsScanned g)
include hx

/-- The site is in the graph as the stages need it. -/
theorem IsScanned.isIn (hg : g.Sound) : x.IsIn g := by
  obtain ⟨e, he, hvar, hscan⟩ := hx.entry
  refine ⟨hx.block_eq, hg.anchored hx.block_eq hx.live, ?_, fun _ => ?_⟩
  · rw [Block.firstVar?, he, Option.map_some, hvar]
  · obtain ⟨v, hv, hkind, -⟩ := hg.scanned x.block x.b e x.scan hx.block_eq he hscan
    exact ⟨v, hvar ▸ hv, hkind⟩

/-- Offset and limit are slots of the block. -/
theorem IsScanned.window_mem :
    ∀ u ∈ x.b.offset.toList ++ x.b.limit.toList, u ∈ g.children x.block := by
  intro u hu
  rw [children_of_block? hx.block_eq, children_window]
  exact mem_append_right _ hu

/-- The row variable has the type of the scan's rows, whatever happens. -/
theorem IsScanned.constantType?_rowVar (hg : g.Sound) :
    g.constantType? x.rowVar = some (.one x.scan.rowType) := by
  obtain ⟨e, he, hvar, hscan⟩ := hx.entry
  rw [← hvar]
  exact hg.constantType?_rowVar hx.block_eq he hscan

/-- The row variable may be counted in. -/
theorem IsScanned.withRowVar (hm : g.Maintained S []) (hS : S x.block) :
    g.Maintained (fun v => S v ∨ v = x.rowVar) [] := by
  obtain ⟨e, he, hvar, hscan⟩ := hx.entry
  obtain ⟨v, hv, hkind, hdecl⟩ := hm.scanned x.block x.b e x.scan hx.block_eq he hscan
  have hdomain : S e.domain := hm.closed x.block hS e.domain
    (.inl (domain_mem_children hx.block_eq (mem_of_head? he)))
  refine hm.withConstant (hx.isIn hm.toSound).rowVar_lt
    (by rw [hx.constantType?_rowVar hm.toSound]; simp) fun w hw => ?_
  rw [hvar] at hv
  have hsource : g.varSource? x.rowVar = some e.domain := by
    have := domain?_of_mem_entries (hm.declared_nodup _) hx.block_eq (mem_of_head? he)
      (hvar ▸ hv) hdecl
    rw [hvar] at this
    simpa [varSource?, var?, hv, hkind] using this
  simp only [children, reads, hv, hsource, Expr.children, not_mem_nil, Option.toList_some,
    mem_singleton, false_or] at hw
  exact hw ▸ hdomain

/-! ### Soundness, whatever the types are -/

section
variable (hg : g.Sound)
include hg

/-- The graph is sound with the boundary. -/
theorem IsScanned.sound_bounded : (x.bounded g).Sound := by
  exact (SameShape.refreshAll _ _).sound
    (sound_inserted_boundary hg hx.live (isScan_of_block? hx.block_eq))

/-- The stages of the server part keep the scope of the block. -/
theorem IsScanned.keepsScope_of {k : Graph} {b' : Block}
    (hedits : EditsBlock x.block (serverOperands x.rowVar x.b) (x.bounded g) k)
    (hblock : k.block? x.block = some b') (hslots : k.RecordsSlots x.block)
    (hentries : b'.entries = x.b.entries) (hstar : b'.star → x.b.star)
    (hchildren : ∀ c ∈ (Expr.block b').children, c ∈ (Expr.block x.b).children ∨
      ((x.bounded g).size ≤ c ∧ c < k.size)) :
    KeepsScope x.block (serverOperands x.rowVar x.b) (x.bounded g) k x.b b' := by
  have hin := hx.isIn hg
  have hbefore : (x.bounded g).block? x.block = some x.b :=
    block?_bounded hin.block_eq hin.anchored
  refine
    { toEditsBlock := hedits
      before := hbefore
      after := hblock
      entries := hentries
      star := hstar
      operands_mem := fun u hu => ?_
      slots := hslots
      mem_children := hchildren }
  have hexpr := block?_eq_some.1 hbefore
  rcases mem_serverOperands hu with rfl | hu
  · obtain ⟨e, he, hvar, -⟩ := hx.entry
    have hdecl : x.rowVar ∈ (Expr.block x.b).declared :=
      hvar ▸ mem_map_of_mem (mem_of_head? he)
    simp [uses, hexpr, hdecl]
  · exact mem_uses_of_child (isScan_of_block? hbefore) (children_of_block? hbefore ▸ hu)

/-- So does the server part as a whole. -/
theorem IsScanned.keepsScope {expanded server : Block}
    (hp : x.IsServed g expanded server) :
    KeepsScope x.block (serverOperands x.rowVar x.b) (x.bounded g) (x.server g).graph
      x.b server := by
  have hstar : server.star → x.b.star := by
    rw [hp.server_eq]
    rcases hp.star with rfl | ⟨_, _, hstar, -, rfl, -, -⟩
    · exact id
    · exact fun _ => hstar
  exact hx.keepsScope_of hg hp.edits hp.block_eq hp.slots hp.clauses_eq.1 hstar
    fun c hc => hp.mem_children hc

/-- The boundary is live. -/
theorem IsScanned.live_received : (x.received g).isLive g.size := by
  obtain ⟨expanded, server, hp⟩ := (hx.isIn hg).exists_server
  rw [received, ServerPart.received, isLive_modifyExpr, hp.edits.live_eq g.size size_lt_bounded,
    bounded, Graph.bounded, (SameShape.refreshAll _ _).live_eq, isLive,
    node_inserted_self (hx.isIn hg).block_lt (hg.parents_lt x.block)]

omit hx hg in
/-- The boundary gets to know where its columns are, which is of no concern to types. -/
theorem retouches_received : Retouches (x.server g).graph (x.received g) := by
  rw [received, ServerPart.received]
  refine .modifyExpr ?_
  cases (x.server g).graph.expr g.size with
  | receive r => exact .receive rfl
  | _ => exact .refl _

/-- Offset and limit are nodes of the graph. -/
theorem IsScanned.window_lt :
    ∀ u ∈ x.b.offset.toList ++ x.b.limit.toList, u < (x.received g).size := by
  have hin := hx.isIn hg
  exact fun u hu => hin.lt_size_received (hin.anchored.children_lt u (hx.window_mem u hu))

/-- The boundary is no scan. -/
theorem IsScanned.isScan_received : ((x.received g).expr g.size).isScan = false := by
  have hin := hx.isIn hg
  obtain ⟨expanded, server, hp⟩ := hin.exists_server
  rw [expr_received_boundary hin hp]
  rfl

/-- The graph is sound with the server part, below the boundary and above its window. -/
theorem IsScanned.sound_received : (x.received g).Sound ∧ ∃ rank, (x.received g).Ordered rank ∧
    ∀ u ∈ x.b.offset.toList ++ x.b.limit.toList, rank u ≤ rank g.size := by
  have hin := hx.isIn hg
  obtain ⟨expanded, server, hp⟩ := hin.exists_server
  have hscope := hx.keepsScope hg hp
  have hbounded := hx.sound_bounded hg
  have hretouch : Retouches (x.server g).graph (x.received g) := retouches_received
  obtain ⟨rank, ho, hbelow⟩ := hscope.exists_ordered hbounded
  refine ⟨hretouch.sound (hscope.sound hbounded), rank, hretouch.ordered (hscope.scoped hbounded) ho,
    fun u hu => ?_⟩
  -- The boundary is over the block, and the block is over its window.
  have hblock : x.block ∈ (x.server g).graph.uses g.size := by
    simp [uses, children, hin.expr_server_boundary, Expr.isScan, Expr.children]
  have h₁ := hbelow u (hscope.operands_mem u (.tail _ hu))
  have h₂ := ho.rank_lt _ _ hblock
  omega

/-- The graph is sound with the client part, whose variable ranks above the boundary. -/
theorem IsScanned.sound_grown : (x.grown g).Sound ∧ ∃ rank, (x.grown g).Ordered rank ∧
    rank g.size < rank (x.var g) := by
  have hboundary := (hx.isIn hg).boundary_lt
  obtain ⟨hsound, rank, ho, hrank⟩ := hx.sound_received hg
  obtain ⟨hgrown, hordered⟩ := sound_clientGraph hboundary (hx.window_lt hg) (hx.isScan_received hg)
    hsound ho hrank (hsound.clientFields (x.server g).requested) (hx.live_received hg)
  refine ⟨hgrown, _, hordered, ?_⟩
  simp only [clientRank, var, hboundary, Nat.lt_irrefl, Nat.le_refl, if_true, if_false]
  exact Nat.lt_succ_self _

/-- The variable of the client part is still to be declared. -/
theorem IsScanned.isPending : (((x.received g).parents g.size).foldl refresh (x.grown g)).IsPending
    (x.var g) (x.client g) g.size { name := "$from", kind := .row } :=
  isPending_client (hx.sound_received hg).1 (hx.isIn hg).boundary_lt (hx.isScan_received hg)
    (SameShape.refreshAll _ _)

omit hx hg in
/-- The boundary is there. -/
theorem size_lt_grown (hin : x.IsIn g) : g.size < (x.grown g).size := by
  rw [SplitSite.grown, size_clientGraph, size_clientFields]
  have := hin.boundary_lt
  omega

/-- The graph is sound with the variable declared. -/
theorem IsScanned.sound_declared : (x.declared g).Sound := by
  obtain ⟨hgrown, rank, ho, hrank⟩ := hx.sound_grown hg
  have hshape := SameShape.refreshAll ((x.received g).parents g.size) (x.grown g)
  exact (hx.isPending hg).sound (hshape.sound hgrown) (hshape.toSameExprs.ordered ho) hrank
    (by rw [hshape.size_eq]; exact size_lt_grown (hx.isIn hg))

/-- A split keeps the graph sound. -/
theorem IsScanned.sound_result : (x.result g).Sound := by
  have hshape : SameShape (x.declared g) (x.result g) :=
    ((SameShape.refresh _ _).trans (SameShape.refresh _ _)).trans (SameShape.refresh _ _)
  exact hshape.sound (hx.sound_declared hg)

end

/-! ### Types -/

variable (hm : g.Maintained S []) (hS : S x.block) (hrow : S x.rowVar)
include hm hS

/-- The boundary leaves nothing to be refreshed. -/
theorem IsScanned.maintained_bounded : (x.bounded g).Maintained
    (Graph.grown S g (x.bounded g)) [] := by
  have hexpr := block?_eq_some.1 hx.block_eq
  have hm₁ := hm.insertBoundary (d := x.scan.distribution) hx.live (by rw [hexpr]; rfl) hS
    (by simp [hexpr])
  have hsize : (x.bounded g).size =
      (g.inserted x.block (boundaryOver x.scan.distribution)).size :=
    (SameShape.refreshAll _ _).size_eq
  rw [grown_congr hsize]
  exact Maintained.refreshAll (hm₁.mono fun y hy => by cases hy)

/-- The window is among the nodes whose types are up to date. -/
theorem IsScanned.mem_of_window : ∀ u ∈ x.b.offset.toList ++ x.b.limit.toList, S u := by
  exact fun u hu => hm.closed x.block hS u (.inl (hx.window_mem u hu))

include hrow

/-- The types are settled but for the block, when the boundary knows the server part. -/
theorem IsScanned.maintained_received :
    (x.received g).Maintained (Graph.grown S g (x.received g)) [x.block] := by
  have hin := hx.isIn hm.toSound
  obtain ⟨expanded, server, hp⟩ := hin.exists_server
  have hscope := hx.keepsScope hm.toSound hp
  have hm₁ := hx.maintained_bounded hm hS
  have hm₂ := hscope.maintained hm₁ (.inl hS) fun u hu => by
    rcases mem_cons.1 hu with rfl | hu
    · exact .inl hrow
    · exact .inl (hx.mem_of_window hm hS u hu)
  have hle : g.size ≤ (x.bounded g).size := size_bounded ▸ Nat.le_succ _
  rw [grown_grown hle hp.edits.size_le] at hm₂
  have hretouch : Retouches (x.server g).graph (x.received g) := retouches_received
  rw [grown_congr hretouch.size_eq]
  refine hretouch.maintained hm₂ fun v s hv hs c hc => hm₂.closed v hv c (.inl ?_)
  -- Scans are as they were.
  rw [scan?_eq_some, received, ServerPart.received, expr_modifyExpr] at hs
  split at hs
  · cases he : (x.server g).graph.expr v with
    | scan s' =>
      rw [he] at hs
      cases hs
      rwa [children, he]
    | _ => rw [he] at hs; cases hs
  · rwa [children, hs]

/-- The client part is above the boundary. It is to be refreshed, and so is what used the boundary. -/
theorem IsScanned.maintained_grown : (x.grown g).Maintained (Graph.grown S g (x.grown g))
    ((x.received g).parents g.size ++ [x.client g, x.block]) := by
  have hin := hx.isIn hm.toSound
  have hboundary := hin.boundary_lt
  have hm₃ := hx.maintained_received hm hS hrow
  have hscan := hx.isScan_received hm.toSound
  -- The variable and the fields are added.
  have hm₄ := hm₃.clientFields (x.server g).requested
  have hsize₄ : (x.received g).size ≤ (x.prepared g).size := by
    rw [size_clientFields]
    omega
  rw [grown_grown hboundary.le hsize₄] at hm₄
  -- The client part is put above the boundary.
  have hmake : (x.prepared g).IsInsertable (.block
      ((x.received g).clientBlock (x.server g).requested x.b.offset x.b.limit g.size)) :=
    isInsertable_client hboundary (hx.window_lt hm.toSound) hscan
  have hm₅ := hm₄.inserted hm₄.toSound
    (by rw [isLive, node_clientFields_of_lt hboundary]; exact hx.live_received hm.toSound) hmake
    (by rw [expr_clientFields_of_lt hboundary]; exact hscan) (hx.sound_grown hm.toSound).1
    (fun c hc => ?_) ?_
  · have hsize₅ : (x.prepared g).size ≤ (x.grown g).size := by
      rw [SplitSite.grown, size_clientGraph]
      exact Nat.le_succ _
    rw [parents_clientFields_of_lt hboundary] at hm₅
    have hgrown : Graph.grown S g (x.grown g) = Graph.grown (Graph.grown S g
        (x.prepared g))
        (x.prepared g) (x.grown g) :=
      (grown_grown (hboundary.le.trans hsize₄) hsize₅).symm
    rw [hgrown]
    exact hm₅
  · rcases mem_children_clientBlock hc with rfl | ⟨f, hf, rfl⟩ | hc
    · exact .inr ⟨le_rfl, hboundary.trans_le hsize₄⟩
    · obtain ⟨hgt, hlt⟩ := lt_of_mem_clientFields hf
      exact .inr ⟨(hboundary.trans hgt).le, hlt⟩
    · exact .inl (hx.mem_of_window hm hS c hc)
  · have hself : (x.grown g).expr (x.client g) = .block (x.clientBlock g) := by
      rw [SplitSite.grown, expr, client,
        node_clientGraph_client hboundary (hm₃.parents_lt g.size)]
      rfl
    have hself' : (((x.prepared g).inserted g.size fun input =>
        .block ((x.received g).clientBlock (x.server g).requested x.b.offset x.b.limit input)).expr
        (x.prepared g).size) = .block (x.clientBlock g) :=
      hself
    simp only [constantType?, hself']

/-- The variable is declared, and its type is to be derived as well. -/
theorem IsScanned.maintained_declared : (x.declared g).Maintained (Graph.grown S g (x.result g))
    [x.block, x.var g, x.client g] := by
  have hm₆ := Maintained.refreshAll (hx.maintained_grown hm hS hrow)
  have hm₇ := (hx.isPending hm.toSound).maintained hm₆ (hx.sound_declared hm.toSound)
    (.inr ⟨le_rfl, size_lt_grown (hx.isIn hm.toSound)⟩)
  have hm₈ : (x.declared g).Maintained (Graph.grown S g (x.grown g))
      [x.block, x.var g, x.client g] :=
    hm₇.mono fun y hy => .here (by
      simp only [mem_cons, not_mem_nil, or_false] at hy ⊢
      rcases hy with rfl | rfl | rfl
      · exact .inr (.inl rfl)
      · exact .inr (.inr rfl)
      · exact .inl rfl)
  have hgrown : Graph.grown S g (x.result g) = Graph.grown S g (x.grown g) :=
    grown_congr (sameShape_result.size_eq.trans (size_modify ..))
  rw [hgrown]
  exact hm₈

/-- A split leaves nothing to be refreshed. -/
theorem IsScanned.maintained_result :
    (x.result g).Maintained (Graph.grown S g (x.result g)) [] :=
  (hx.maintained_declared hm hS hrow).refresh.refresh.refresh

end

end SplitSite

end ShardedQuery
