import ShardedQuery.Proofs.BuiltTable

/-!
# Keys of built tables

A step of a draft is checked against the draft as it is when the step is taken, and later steps may
undo what was checked. Most checks hold for good: fields are never taken out or made nullable again,
so that the components of the primary key stay what a key needs, and names that were refused twice
stay distinct. Two things are left to the steps. A primary key may name a field twice, and a new
primary key may be shorter than the shard key that was set before it (`Table.keys_of_build`).
-/

namespace ShardedQuery

open List

variable {d d' : TableDraft} {done steps : List TableStep} {name : String} {s : TableStep}
  {names : List String} {t : Table}

/-! ## What the steps ask for -/

namespace TableStep

/-- The primary key that a step sets. -/
def key? : TableStep → Option (List String)
  | primaryKey names => some names
  | _ => none

/-- The shard key that a step sets. -/
def shardKey? : TableStep → Option (List String)
  | shardKey names => some names
  | _ => none

/-- The primary key of the last step that sets one. -/
def lastKey? (steps : List TableStep) : Option (List String) := (steps.filterMap key?).getLast?

/-- The shard key of the last step that sets one. -/
def lastShardKey? (steps : List TableStep) : Option (List String) :=
  (steps.filterMap shardKey?).getLast?

/-- No primary key is set once a shard key is. -/
def KeysFirst (steps : List TableStep) : Prop :=
  steps.Pairwise fun s s' => s.shardKey?.isSome → s'.key? = none

theorem lastKey?_concat (steps : List TableStep) (s : TableStep) :
    lastKey? (steps ++ [s]) = s.key?.or (lastKey? steps) := by
  cases h : s.key? <;> simp [lastKey?, h]

theorem lastShardKey?_concat (steps : List TableStep) (s : TableStep) :
    lastShardKey? (steps ++ [s]) = s.shardKey?.or (lastShardKey? steps) := by
  cases h : s.shardKey? <;> simp [lastShardKey?, h]

/-- Where primary keys come first, the shard key is still to be set when one is. -/
theorem KeysFirst.lastShardKey?_eq_none (h : KeysFirst (steps ++ [s])) (hs : s.key?.isSome) :
    lastShardKey? steps = none := by
  rw [lastShardKey?, getLast?_eq_none_iff, filterMap_eq_nil_iff]
  intro s' hs'
  have hlater := (pairwise_append.1 h).2.2 s' hs' s (mem_singleton_self s)
  by_contra hne
  rw [hlater (Option.isSome_iff_ne_none.2 hne)] at hs
  cases hs

end TableStep

namespace TableDraft

open TableStep

/-! ## Components of the key -/

/-- The field can be a component of the primary key and holds no nulls. -/
def HasComponent (d : TableDraft) (name : String) : Prop :=
  ∃ f ∈ d.fields, f.name = name ∧ f.isKeyCandidate ∧ f.nullable = false

theorem HasComponent.addNotNull (h : d.HasComponent name) (names : List String) :
    (d.addNotNull names).HasComponent name := by
  obtain ⟨f, hf, hname, hkey, hnull⟩ := h
  refine ⟨_, mem_map_of_mem hf, ?_⟩
  split
  · exact ⟨hname, hkey, rfl⟩
  · exact ⟨hname, hkey, hnull⟩

theorem candidate_of_checkKey (h : d.checkKey names = .ok ()) (hname : name ∈ names) :
    ∃ f ∈ d.fields, f.name = name ∧ f.isKeyCandidate := by
  induction names with
  | nil => cases hname
  | cons first names ih =>
    rw [checkKey] at h
    split at h
    · cases h
    · next f hf =>
      split at h
      · next hkey =>
        rcases mem_cons.1 hname with rfl | hname
        · exact ⟨f, mem_of_find?_eq_some hf, by simpa using find?_some hf, hkey⟩
        · exact ih h hname
      · cases h

/-! ## What a step changes -/

namespace Takes

variable (h : d.Takes s d')
include h

theorem primaryKey_eq : d'.primaryKey = s.key?.getD d.primaryKey := by
  cases h <;> rfl

theorem shardKeyLength_eq :
    d'.shardKeyLength = (s.shardKey?.map (·.length)).or d.shardKeyLength := by
  cases h <;> rfl

/-- A shard key is checked against the primary key at the time, which the step does not change. -/
theorem shardKey_fits (hs : s.shardKey? = some names) : names ≠ [] ∧ names <+: d'.primaryKey := by
  cases h with
  | shardKey hne hbegins =>
    cases hs
    exact ⟨hne, hbegins⟩
  | _ => cases hs

/-- Components of the primary key stay what they are, and those of a new one are made so. -/
theorem components (hd : ∀ name ∈ d.primaryKey, d.HasComponent name) :
    ∀ name ∈ d'.primaryKey, d'.HasComponent name := by
  cases h with
  | field =>
    intro name hname
    obtain ⟨f, hf, hcomponent⟩ := hd name hname
    exact ⟨f, mem_append_left _ hf, hcomponent⟩
  | notNull => exact fun name hname => (hd name hname).addNotNull _
  | primaryKey hcheck =>
    intro name hname
    obtain ⟨f, hf, rfl, hkey⟩ := candidate_of_checkKey hcheck hname
    refine ⟨_, mem_map_of_mem hf, ?_⟩
    rw [if_pos (contains_iff_mem.2 hname)]
    exact ⟨rfl, hkey, rfl⟩
  | shardKey | index => exact hd

theorem nodup_indexes (hd : (d.indexes.map (·.1)).Nodup) : (d'.indexes.map (·.1)).Nodup := by
  cases h with
  | index hnew =>
    rw [map_append]
    exact nodup_append_comm.1 (nodup_cons.2 ⟨hnew, hd⟩)
  | _ => exact hd

end Takes

/-! ## A draft and the steps it comes of -/

/-- What the steps `done` have made of a draft. -/
structure Records (d : TableDraft) (done : List TableStep) : Prop where
  key : d.primaryKey = (lastKey? done).getD []
  shard : d.shardKeyLength = (lastShardKey? done).map (·.length)
  shard_ne_nil : ∀ names ∈ lastShardKey? done, names ≠ []
  /-- A shard key is a beginning of the primary key until another primary key is set. -/
  shard_begins : KeysFirst done → ∀ names ∈ lastShardKey? done, names <+: d.primaryKey
  components : ∀ name ∈ d.primaryKey, d.HasComponent name
  indexes : (d.indexes.map (·.1)).Nodup

theorem records_start (h : start name = .ok d) : d.Records [] := by
  obtain ⟨-, -, h⟩ := ok_of_bind h
  cases h
  exact ⟨rfl, rfl, by rintro _ ⟨⟩, by rintro - _ ⟨⟩, by rintro _ ⟨⟩, nodup_nil⟩

theorem Records.step (hd : d.Records done) (h : d.step s = .ok d') : d'.Records (done ++ [s]) := by
  have ht := takes_of_step h
  refine ⟨?_, ?_, fun names hnames => ?_, fun hfirst names hnames => ?_,
    ht.components hd.components, ht.nodup_indexes hd.indexes⟩
  · rw [lastKey?_concat, ht.primaryKey_eq, hd.key]
    cases s.key? <;> rfl
  · rw [lastShardKey?_concat, ht.shardKeyLength_eq, hd.shard]
    cases s.shardKey? <;> rfl
  · rw [lastShardKey?_concat] at hnames
    cases hs : s.shardKey? with
    | none => exact hd.shard_ne_nil names (by rwa [hs] at hnames)
    | some shard =>
      rw [hs] at hnames
      cases hnames
      exact (ht.shardKey_fits hs).1
  · rw [lastShardKey?_concat] at hnames
    cases hs : s.shardKey? with
    | none =>
      rw [hs] at hnames
      cases hk : s.key? with
      | none =>
        rw [ht.primaryKey_eq, hk]
        exact hd.shard_begins (pairwise_append.1 hfirst).1 names hnames
      | some key =>
        rw [hfirst.lastShardKey?_eq_none (by rw [hk]; rfl)] at hnames
        cases hnames
    | some shard =>
      rw [hs] at hnames
      cases hnames
      exact (ht.shardKey_fits hs).2

theorem Records.run (hd : d.Records done) (h : d.run steps = .ok d') :
    d'.Records (done ++ steps) := by
  induction steps generalizing d done with
  | nil =>
    cases h
    rwa [append_nil]
  | cons s steps ih =>
    obtain ⟨d₁, hstep, hrest⟩ := ok_of_bind h
    rw [← singleton_append, ← append_assoc]
    exact ih (hd.step hstep) hrest

end TableDraft

/-! ## Built tables -/

open TableStep

namespace Table

theorem field?_of_mem (hnodup : (t.fields.map (·.name)).Nodup) {f : Field} (hf : f ∈ t.fields) :
    t.field? f.name = some f := by
  obtain ⟨before, after, heq⟩ := append_of_mem hf
  rw [field?, find?_eq_some_iff_append]
  refine ⟨beq_self_eq_true _, before, after, heq, fun g hg => ?_⟩
  rw [heq, map_append, map_cons, nodup_append] at hnodup
  simpa using hnodup.2.2 g.name (mem_map_of_mem hg) f.name (.head _)

section
variable (hrun : (TableDraft.start name >>= fun d => d.run steps) = .ok d)
  (hbuild : d.build = .ok t)
include hrun

theorem records_of_run : d.Records steps := by
  obtain ⟨d₀, hstart, hrun⟩ := ok_of_bind hrun
  exact (TableDraft.records_start hstart).run hrun

include hbuild

theorem lastKey?_of_build : lastKey? steps = some t.primaryKey := by
  have hd := records_of_run hrun
  have hb := TableDraft.builds_of_build hbuild
  rw [hb.primaryKey, hd.key]
  cases hlast : lastKey? steps with
  | none => exact absurd (by rw [hd.key, hlast]; rfl) hb.key_ne_nil
  | some key => rfl

theorem shardKeyLength_of_build :
    t.shardKeyLength = ((lastShardKey? steps).map (·.length)).getD t.primaryKey.length := by
  have hb := TableDraft.builds_of_build hbuild
  rw [hb.shardKeyLength, (records_of_run hrun).shard, hb.primaryKey]

/-- A component of the primary key is a field that can be one and holds no nulls. -/
theorem component_of_build {c : String} (hc : c ∈ t.primaryKey) :
    ∃ f, t.field? c = some f ∧ f.isKeyCandidate ∧ f.nullable = false := by
  have hbuilt : t.IsBuilt := ⟨name, steps, d, hrun, hbuild⟩
  have hb := TableDraft.builds_of_build hbuild
  rw [hb.primaryKey] at hc
  obtain ⟨f, hf, rfl, hcomponent⟩ := (records_of_run hrun).components c hc
  obtain ⟨i, hi⟩ := getElem?_of_mem hf
  have hplaced : t.fields[i]? = some { f with position := i } := by
    rw [hb.fields, getElem?_mapIdx, hi]
    rfl
  have hfound := field?_of_mem hbuilt.nodup_names (mem_of_getElem? hplaced)
  exact ⟨_, hfound, hcomponent⟩

theorem nodup_indexes_of_build : (t.indexes.map (·.name)).Nodup := by
  have hb := TableDraft.builds_of_build hbuild
  have hnames : Forall₂ (· = ·) (d.indexes.map (·.1)) (t.indexes.map (·.name)) := by
    rw [forall₂_map_left_iff, forall₂_map_right_iff]
    refine hb.indexes.imp fun e i hi => ?_
    obtain ⟨paths, resolved, -, -, rfl⟩ := Index.exists_of_build hi
    rfl
  rw [forall₂_eq_eq_eq] at hnames
  exact hnames ▸ (records_of_run hrun).indexes

end

/-- Whatever the steps were, a table that was built has a primary key of fields that can be components
of one and hold no nulls, its fields have distinct names and stand in their places, its indexes have
distinct names, and its shard key has a component.

Nothing keeps a primary key from naming a field twice: its components are distinct just if those of the
key that was set last are. And a shard key is checked only when it is set, so that it is no longer than
the primary key just if the last shard key is no longer than the last primary key. Where no primary
key is set after a shard key, it is a beginning of the primary key. -/
theorem keys_of_build {name : String} {steps : List TableStep} {d : TableDraft} {t : Table}
    (hrun : (TableDraft.start name >>= fun d => d.run steps) = .ok d) (hbuild : d.build = .ok t) :
    t.primaryKey ≠ [] ∧
    (∀ c ∈ t.primaryKey, ∃ f, t.field? c = some f ∧ f.isKeyCandidate ∧ f.nullable = false) ∧
    (t.fields.map (·.name)).Nodup ∧
    (∀ (i : Nat) (f : Field), t.fields[i]? = some f → f.position = i) ∧
    (t.indexes.map (·.name)).Nodup ∧
    0 < t.shardKeyLength ∧
    (t.primaryKey.Nodup ↔ ∀ key ∈ lastKey? steps, key.Nodup) ∧
    (t.shardKeyLength ≤ t.primaryKey.length ↔
      ∀ key ∈ lastKey? steps, ∀ shard ∈ lastShardKey? steps, shard.length ≤ key.length) ∧
    (KeysFirst steps → t.shardKeyLength ≤ t.primaryKey.length ∧
      ∀ shard ∈ lastShardKey? steps, shard <+: t.primaryKey) := by
  have hbuilt : t.IsBuilt := ⟨name, steps, d, hrun, hbuild⟩
  have hd := records_of_run hrun
  have hb := TableDraft.builds_of_build hbuild
  have hkey := lastKey?_of_build hrun hbuild
  have hshard := shardKeyLength_of_build hrun hbuild
  have hfits : t.shardKeyLength ≤ t.primaryKey.length ↔
      ∀ shard ∈ lastShardKey? steps, shard.length ≤ t.primaryKey.length := by
    rw [hshard]
    cases lastShardKey? steps <;> simp
  refine ⟨hbuilt.primaryKey_ne_nil, fun c hc => component_of_build hrun hbuild hc,
    hbuilt.nodup_names, fun i f hf => ?_, nodup_indexes_of_build hrun hbuild, ?_, ?_, ?_, ?_⟩
  · rw [hb.fields, getElem?_mapIdx] at hf
    obtain ⟨g, -, rfl⟩ := Option.map_eq_some_iff.1 hf
    rfl
  · rw [hshard]
    cases hlast : lastShardKey? steps with
    | none => exact length_pos_iff.2 hbuilt.primaryKey_ne_nil
    | some shard => exact length_pos_iff.2 (hd.shard_ne_nil shard hlast)
  · simp [hkey]
  · simp [hfits, hkey]
  · intro hfirst
    have hbegins := hb.primaryKey ▸ hd.shard_begins hfirst
    exact ⟨hfits.2 fun shard hshard => (hbegins shard hshard).length_le, hbegins⟩

/-! ### Samples -/

/-- Both keys are set twice, with fields and indexes in between. -/
def rekeyedSteps : List TableStep :=
  [.field "a" .integer, .field "b" .string, .primaryKey ["b", "a"], .shardKey ["b"], .index "ib" ["b"],
    .field "c" .long, .primaryKey ["c", "a"], .notNull ["b", "x"], .index "ic" ["c", "b"]]

def rekeyedTable : Table :=
  { name := "t"
    fields := [⟨"a", .integer, false, 0⟩, ⟨"b", .string, false, 1⟩, ⟨"c", .long, false, 2⟩]
    primaryKey := ["c", "a"]
    shardKeyLength := 1
    indexes := [⟨"ib", "t", [⟨[.field "b"]⟩], [.string]⟩,
      ⟨"ic", "t", [⟨[.field "c"]⟩, ⟨[.field "b"]⟩], [.long, .string]⟩] }

theorem keys_of_build_rekeyed :
    ∃ d, (TableDraft.start "t" >>= fun d => d.run rekeyedSteps) = .ok d ∧ d.build = .ok rekeyedTable ∧
      rekeyedTable.primaryKey.Nodup ∧ rekeyedTable.shardKeyLength ≤ rekeyedTable.primaryKey.length ∧
      (∀ c ∈ rekeyedTable.primaryKey,
        ∃ f, rekeyedTable.field? c = some f ∧ f.isKeyCandidate ∧ f.nullable = false) := by
  have hbuild : ∃ d, (TableDraft.start "t" >>= fun d => d.run rekeyedSteps) = .ok d ∧
      d.build = .ok rekeyedTable := ⟨_, rfl, by decide +kernel⟩
  obtain ⟨d, hrun, hbuild⟩ := hbuild
  obtain ⟨-, hcomponents, -, -, -, -, hnodup, hlength, -⟩ := keys_of_build hrun hbuild
  exact ⟨d, hrun, hbuild, hnodup.2 (by decide), hlength.2 (by decide), hcomponents⟩

/-- A primary key may name a field twice, and a shard key may be longer than the primary key that is
set after it. -/
theorem keys_of_build_unchecked :
    (∃ d t, (TableDraft.start "t" >>= fun d => d.run [.field "a" .integer, .primaryKey ["a", "a"]]) =
        .ok d ∧ d.build = .ok t ∧ ¬ t.primaryKey.Nodup) ∧
    ∃ d t, (TableDraft.start "t" >>= fun d => d.run [.field "a" .integer, .field "b" .integer,
        .primaryKey ["a", "b"], .shardKey ["a", "b"], .primaryKey ["a"]]) = .ok d ∧
      d.build = .ok t ∧ ¬ t.shardKeyLength ≤ t.primaryKey.length :=
  ⟨⟨_, _, rfl, rfl, by decide⟩, _, _, rfl, rfl, by decide⟩

end Table

end ShardedQuery
