import Mathlib.Data.List.Forall2
import Mathlib.Data.List.Nodup
import ShardedQuery.Table.Draft

/-!
# Tables that were built

What holds of every table that comes of a draft, whatever the steps were: its fields have distinct
names, it has a primary key, and the components of the key are fields of the row.
-/

namespace ShardedQuery

open List

variable {name : String} {t : Table} {d : TableDraft} {s : TableStep}

theorem ok_of_bind {ε α β : Type} {x : Except ε α} {f : α → Except ε β} {b : β}
    (h : (x >>= f) = .ok b) : ∃ a, x = .ok a ∧ f a = .ok b := by
  cases x with
  | error e => cases h
  | ok a => exact ⟨a, rfl, h⟩

theorem forall₂_of_mapM {α β ε : Type} {f : α → Except ε β} :
    ∀ {as : List α} {bs : List β}, as.mapM f = .ok bs → Forall₂ (fun a b => f a = .ok b) as bs
  | [], _, h => by cases h; exact .nil
  | a :: as, bs, h => by
    rw [mapM_cons] at h
    cases ha : f a with
    | error e => rw [ha] at h; cases h
    | ok b =>
      cases has : as.mapM f with
      | error e => rw [ha, has] at h; cases h
      | ok bs' =>
        rw [ha, has] at h
        cases h
        exact .cons ha (forall₂_of_mapM has)

theorem ok_of_locateFailure {α : Type} {l : Option Location} {r : Except CompileError α} {a : α}
    (h : locateFailure l r = .ok a) : r = .ok a := by
  cases r with
  | error e => cases h
  | ok b => exact h

/-- The table comes of a draft, step by step. -/
def Table.IsBuilt (t : Table) : Prop :=
  ∃ name steps d, (TableDraft.start name >>= fun d => d.run steps) = .ok d ∧ d.build = .ok t

/-! ## Drafts -/

namespace TableDraft

/-- Fields have distinct names, and key components are fields. -/
structure Sound (d : TableDraft) : Prop where
  nodup : (d.fields.map (·.name)).Nodup
  key : ∀ name ∈ d.primaryKey, name ∈ d.fields.map (·.name)

section
variable {d' : TableDraft}

theorem start_sound (h : start name = .ok d) : d.Sound := by
  obtain ⟨-, -, hd⟩ := ok_of_bind h
  cases hd
  exact ⟨nodup_nil, fun name hname => by cases hname⟩

theorem names_addNotNull (d : TableDraft) (names : List String) :
    (d.addNotNull names).fields.map (·.name) = d.fields.map (·.name) := by
  rw [addNotNull, map_map]
  refine map_congr_left fun f _ => ?_
  simp only [Function.comp]
  split <;> rfl

theorem mem_of_checkKey {names : List String} (h : d.checkKey names = .ok ()) :
    ∀ name ∈ names, name ∈ d.fields.map (·.name) := by
  induction names with
  | nil => exact fun name hname => by cases hname
  | cons name names ih =>
    rw [checkKey] at h
    split at h
    · cases h
    · next f hf =>
      split at h
      · have hname : f.name = name := by simpa using find?_some hf
        refine forall_mem_cons.2 ⟨?_, ih h⟩
        exact hname ▸ mem_map_of_mem (mem_of_find?_eq_some hf)
      · cases h

/-- What a step does to a draft that it fits. -/
inductive Takes (d : TableDraft) : TableStep → TableDraft → Prop
  | field {name : String} {type : ItemType} (hnew : name ∉ d.fields.map (·.name)) :
    Takes d (.field name type) { d with fields := d.fields ++ [⟨name, type, true, 0⟩] }
  | notNull {names : List String} : Takes d (.notNull names) (d.addNotNull names)
  | primaryKey {names : List String} (hcheck : d.checkKey names = .ok ()) :
    Takes d (.primaryKey names) { d.addNotNull names with primaryKey := names }
  | shardKey {names : List String} (hne : names ≠ []) (hbegins : names <+: d.primaryKey) :
    Takes d (.shardKey names) { d with shardKeyLength := some names.length }
  | index {name : String} {paths : List String} (hnew : name ∉ d.indexes.map (·.1)) :
    Takes d (.index name paths) { d with indexes := d.indexes ++ [(name, paths)] }

theorem takes_of_step (h : d.step s = .ok d') : d.Takes s d' := by
  cases s with
  | field name type =>
    obtain ⟨-, -, h⟩ := ok_of_bind h
    split at h
    · cases h
    · next hnew =>
      cases h
      exact .field (by simpa using hnew)
  | notNull names =>
    cases h
    exact .notNull
  | primaryKey names =>
    rw [step, setPrimaryKey] at h
    split at h
    · cases h
    · obtain ⟨u, hcheck, h⟩ := ok_of_bind h
      cases h
      exact .primaryKey hcheck
  | shardKey names =>
    rw [step, setShardKey] at h
    split at h
    · cases h
    · next hfits =>
      cases h
      simp only [Bool.or_eq_true, not_or, Bool.not_eq_true', Bool.not_eq_false,
        List.isPrefixOf_iff_prefix, List.isEmpty_iff] at hfits
      exact .shardKey hfits.1 hfits.2
  | index name paths =>
    obtain ⟨-, -, h⟩ := ok_of_bind h
    split at h
    · cases h
    · split at h
      · cases h
      · next hnew =>
        cases h
        exact .index (by simpa using hnew)

/-- Every step keeps a draft sound. -/
theorem Sound.step (hd : d.Sound) (h : d.step s = .ok d') : d'.Sound := by
  cases takes_of_step h with
  | field hnew =>
    refine ⟨?_, fun key hkey => ?_⟩
    · rw [map_append]
      exact nodup_append_comm.1 (nodup_cons.2 ⟨hnew, hd.nodup⟩)
    · rw [map_append]
      exact mem_append_left _ (hd.key key hkey)
  | notNull =>
    exact ⟨names_addNotNull d _ ▸ hd.nodup, fun key hkey => by
      rw [names_addNotNull]
      exact hd.key key hkey⟩
  | primaryKey hcheck =>
    refine ⟨names_addNotNull d _ ▸ hd.nodup, fun key hkey => ?_⟩
    exact names_addNotNull d _ ▸ mem_of_checkKey hcheck key hkey
  | shardKey | index => exact ⟨hd.nodup, hd.key⟩

theorem Sound.run (hd : d.Sound) {steps : List TableStep} (h : d.run steps = .ok d') : d'.Sound := by
  induction steps generalizing d with
  | nil =>
    cases h
    exact hd
  | cons s steps ih =>
    obtain ⟨d₁, hstep, hrest⟩ := ok_of_bind h
    exact ih (hd.step hstep) hrest

end

/-- A table has the fields, in their places, and the keys of its draft, and an index for each that the
draft lists. -/
structure Builds (d : TableDraft) (t : Table) : Prop where
  key_ne_nil : d.primaryKey ≠ []
  fields : t.fields = d.fields.mapIdx fun i f => { f with position := i }
  primaryKey : t.primaryKey = d.primaryKey
  shardKeyLength : t.shardKeyLength = d.shardKeyLength.getD d.primaryKey.length
  indexes : Forall₂ (fun e i => Index.build d.name t.rowType e.1 e.2 = .ok i) d.indexes t.indexes

theorem builds_of_build (h : d.build = .ok t) : d.Builds t := by
  rw [build] at h
  split at h
  · cases h
  · next hkey =>
    obtain ⟨indexes, hindexes, ht⟩ := ok_of_bind h
    cases ht
    exact ⟨fun hnil => hkey (by rw [hnil]; rfl), rfl, rfl, rfl, forall₂_of_mapM hindexes⟩

theorem Builds.names_eq (h : d.Builds t) : t.fields.map (·.name) = d.fields.map (·.name) := by
  rw [h.fields]
  refine ext_getElem? fun i => ?_
  simp [getElem?_mapIdx, Function.comp_def]

end TableDraft

theorem Index.exists_of_build {table : String} {row : ItemType} {texts : List String} {i : Index}
    (h : Index.build table row name texts = .ok i) : ∃ paths resolved,
      Forall₂ (fun text p => IndexPath.parse text = .ok p) texts paths ∧
      Forall₂ (fun p r => p.resolve table row = .ok r) paths resolved ∧
      i = ⟨name, table, resolved.map (·.1), resolved.map (·.2)⟩ := by
  obtain ⟨paths, hpaths, h⟩ := ok_of_bind h
  obtain ⟨resolved, hresolved, h⟩ := ok_of_bind h
  cases h
  exact ⟨paths, resolved, forall₂_of_mapM hpaths, forall₂_of_mapM hresolved, rfl⟩

/-! ## Tables -/

namespace Table.IsBuilt

variable (ht : t.IsBuilt)
include ht

theorem exists_draft : ∃ d : TableDraft, d.Sound ∧ d.Builds t := by
  obtain ⟨name, steps, d, hrun, hbuild⟩ := ht
  obtain ⟨d₀, hstart, hrun⟩ := ok_of_bind hrun
  exact ⟨d, (TableDraft.start_sound hstart).run hrun, TableDraft.builds_of_build hbuild⟩

theorem primaryKey_ne_nil : t.primaryKey ≠ [] := by
  obtain ⟨d, -, hbuild⟩ := ht.exists_draft
  exact hbuild.primaryKey ▸ hbuild.key_ne_nil

theorem nodup_names : (t.fields.map (·.name)).Nodup := by
  obtain ⟨d, hd, hbuild⟩ := ht.exists_draft
  exact hbuild.names_eq ▸ hd.nodup

theorem exists_field (hname : name ∈ t.primaryKey) : ∃ f, t.field? name = some f := by
  obtain ⟨d, hd, hbuild⟩ := ht.exists_draft
  have hmem := hbuild.names_eq ▸ hd.key name (hbuild.primaryKey ▸ hname)
  obtain ⟨f, hf, rfl⟩ := mem_map.1 hmem
  exact Option.isSome_iff_exists.1 (find?_isSome.2 ⟨f, hf, by simp⟩)

end Table.IsBuilt

end ShardedQuery
