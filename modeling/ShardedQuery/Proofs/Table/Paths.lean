import ShardedQuery.Proofs.Access.PathTypes
import ShardedQuery.Proofs.IndexPath

/-!
# Paths of tables

The paths of an index are read from texts, and then brackets over a map are stored as a step to its
values. The text of a stored path can be read if no brackets stand behind such a step, and then it
gives the stored path back (`Table.IsBuilt.parse_text_iff`).
-/

namespace ShardedQuery

open List

variable {table text : String} {last t : ItemType} {steps stored : List PathStep} {s : PathStep}

/-- The step as it is stored: brackets may become the values of a map. -/
def PathStep.StoredAs (s stored : PathStep) : Prop :=
  stored = s ∨ (s = .elements ∧ stored = .values)

namespace PathStep

theorem storedAs_of_resolve {stored : PathStep} {next : ItemType}
    (h : s.resolve table text t = .ok (stored, next)) : s.StoredAs stored := by
  unfold resolve at h
  split at h
  case h_1 | h_4 | h_6 | h_7 =>
    cases h
    exact .inl rfl
  case h_2 | h_3 =>
    split at h
    · cases h
      exact .inl rfl
    · cases h
  case h_5 =>
    cases h
    exact .inr ⟨rfl, rfl⟩
  case h_8 => cases h

theorem forall₂_of_resolveAll (h : resolveAll table text steps t = .ok (stored, last)) :
    Forall₂ StoredAs steps stored := by
  induction steps generalizing t stored with
  | nil =>
    cases h
    exact .nil
  | cons s steps ih =>
    obtain ⟨⟨s', next⟩, hs, h⟩ := ok_of_bind h
    obtain ⟨⟨tail, last'⟩, htail, h⟩ := ok_of_bind h
    cases h
    exact .cons (storedAs_of_resolve hs) (ih htail)

/-- Brackets can stand where they stood, unless the step before them is stored as values. -/
theorem takesBrackets_iff {next stored stored' : PathStep} (h : next = .elements → s.takesBrackets)
    (hs : s.StoredAs stored) (hnext : next.StoredAs stored') :
    (stored' = .elements → stored.takesBrackets) ↔ ¬(stored = .values ∧ stored' = .elements) := by
  obtain rfl | ⟨-, rfl⟩ := hnext
  · obtain rfl | ⟨rfl, rfl⟩ := hs
    · refine ⟨?_, fun _ => h⟩
      rintro hs ⟨rfl, rfl⟩
      cases hs rfl
    · simp [takesBrackets]
  · exact iff_of_true nofun nofun

theorem isChain_iff_of_storedAs (h : Forall₂ StoredAs steps stored)
    (hchain : steps.IsChain fun step next => next = .elements → step.takesBrackets) :
    (stored.IsChain fun step next => next = .elements → step.takesBrackets) ↔
      stored.IsChain fun step next => ¬(step = .values ∧ next = .elements) := by
  induction h with
  | nil => exact iff_of_true .nil .nil
  | cons hs hrest ih =>
    cases hrest with
    | nil => exact iff_of_true (.singleton _) (.singleton _)
    | cons hnext _ =>
      rw [isChain_cons_cons] at hchain
      rw [isChain_cons_cons, isChain_cons_cons, ih hchain.2,
        takesBrackets_iff hchain.1 hs hnext]

end PathStep

/-- A path is stored with the fields and the number of steps that its text has. -/
theorem IndexPath.isWritable_iff_of_resolve {row : ItemType} {p stored : IndexPath}
    (hp : p.IsWritable) (h : p.resolve table row = .ok (stored, last)) :
    stored.IsWritable ↔ stored.steps.IsChain fun step next => ¬(step = .values ∧ next = .elements) := by
  obtain ⟨⟨steps, last'⟩, hall, h⟩ := ok_of_bind h
  have hstored := PathStep.forall₂_of_resolveAll hall
  dsimp only at h
  split at h
  · cases h
    obtain ⟨⟨name, rest, hsteps⟩, hnames, hchain⟩ := hp
    refine ⟨fun h => ?_, fun h => ⟨?_, fun name hname => ?_, ?_⟩⟩
    · exact (PathStep.isChain_iff_of_storedAs hstored hchain).1 h.2.2
    · rw [hsteps] at hstored
      obtain ⟨first, tail, hfirst | ⟨hfirst, -⟩, -, rfl⟩ := forall₂_cons_left_iff.1 hstored
      · exact ⟨name, tail, by rw [hfirst]⟩
      · cases hfirst
    · obtain ⟨s, hs, hname | ⟨-, hname⟩⟩ := exists_of_forall₂ hstored hname
      · exact hnames name (hname ▸ hs)
      · cases hname
    · exact (PathStep.isChain_iff_of_storedAs hstored hchain).2 h
  · cases h

/-- The path of an index can be read back from its text if and only if it does not take the elements of
the values of a map. -/
theorem Table.IsBuilt.parse_text_iff {t : Table} (ht : t.IsBuilt) {i : Index} (hi : i ∈ t.indexes)
    {p : IndexPath} (hp : p ∈ i.paths) :
    IndexPath.parse p.text = .ok p ↔
      p.steps.IsChain fun step next => ¬(step = .values ∧ next = .elements) := by
  obtain ⟨d, -, hbuild⟩ := ht.exists_draft
  obtain ⟨e, -, hindex⟩ := exists_of_forall₂ hbuild.indexes hi
  obtain ⟨paths, resolved, hread, hresolved, rfl⟩ := Index.exists_of_build hindex
  obtain ⟨⟨stored, last⟩, hmem, rfl⟩ := mem_map.1 hp
  obtain ⟨q, hq, hresolve⟩ := exists_of_forall₂ hresolved hmem
  obtain ⟨text, -, hparse⟩ := exists_of_forall₂ hread hq
  rw [← IndexPath.isWritable_iff_of_resolve (IndexPath.isWritable_of_parse hparse).2 hresolve]
  exact ⟨fun h => (IndexPath.isWritable_of_parse h).2, fun h => h.parse_text⟩

theorem Table.IsBuilt.parse_text_iff_nested :
    IndexPath.parse "m.values()" = .ok ⟨[.field "m", .values]⟩ ∧
    IndexPath.parse "r[].tags.values()[]" ≠
      .ok ⟨[.field "r", .elements, .field "tags", .values, .elements]⟩ := by
  refine ⟨?_, fun h => ?_⟩
  · exact (isBuilt_nestedTable.parse_text_iff (i := ⟨"im", "t", [⟨[.field "m", .values]⟩], [.long]⟩)
      (by decide +kernel) (.head _)).2 (by decide)
  · exact absurd ((isBuilt_nestedTable.parse_text_iff (i := nestedIndex) (by decide +kernel)
      (.head _)).1 h) (by decide)

/-- The path `r[].tags[][]`, where `tags` is a map of arrays, is stored with a text that is refused. -/
theorem IndexPath.parse_text_stored :
    nestedTable.IsBuilt ∧ nestedIndex ∈ nestedTable.indexes ∧
    nestedIndex.paths.map IndexPath.text = ["r[].tags.values()[]"] ∧
    IndexPath.parse "r[].tags.values()[]" = .error
      ⟨.invalidSchema "Invalid step 'values()[]' in index path r[].tags.values()[]", none⟩ :=
  ⟨isBuilt_nestedTable, by decide +kernel, by decide +kernel, by rfl⟩

end ShardedQuery
