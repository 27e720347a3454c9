import EnumNames.Proofs.OtherTypes
import EnumNames.Proofs.TableRecords
import Mathlib.Data.List.Induction

/-!
Tables and the records that made them. A table keeps its names in a list and
values and display texts in two maps, each written on its own. Whatever is
recorded, in any order and however often, the three stay in step: the names are
those recorded, by first occurrence, and the maps have the last value and text of
each. The tables of runs are made this way and have no dropped name.
-/

namespace EnumNames

structure Recording where
  name : String
  value : Int
  display : String
  deriving DecidableEq, Repr

namespace Recording

variable {rs : List Recording} {r : Recording} {name : String}

def last? (rs : List Recording) (name : String) : Option Recording :=
  rs.reverse.find? (·.name == name)

theorem last?_concat (rs : List Recording) (r : Recording) (name : String) :
    last? (rs ++ [r]) name = if name = r.name then some r else last? rs name := by
  rw [last?, List.reverse_append, List.reverse_singleton, List.singleton_append, List.find?_cons]
  by_cases h : name = r.name
  · simp [h]
  · have hne : (r.name == name) = false := beq_eq_false_iff_ne.2 (Ne.symm h)
    rw [hne, if_neg h, last?]

def firstPlace (rs : List Recording) (name : String) : Nat := (rs.map (·.name)).idxOf name

theorem firstPlace_concat_of_mem (h : name ∈ rs.map (·.name)) (r : Recording) :
    firstPlace (rs ++ [r]) name = firstPlace rs name := by
  rw [firstPlace, List.map_append, List.idxOf_append_of_mem h, firstPlace]

theorem firstPlace_lt_concat (h : name ∈ rs.map (·.name)) (hr : r.name ∉ rs.map (·.name)) :
    firstPlace (rs ++ [r]) name < firstPlace (rs ++ [r]) r.name := by
  rw [firstPlace_concat_of_mem h, firstPlace, firstPlace, List.map_append,
    List.idxOf_append_of_notMem hr]
  exact Nat.lt_of_lt_of_le (List.idxOf_lt_length_of_mem h) (Nat.le_add_right _ _)

end Recording

namespace Table

open Recording

variable {t : Table} {rs : List Recording}

def ofRecordings (rs : List Recording) : Table :=
  rs.foldl (fun t r => t.record r.name r.value r.display) {}

theorem ofRecordings_concat (rs : List Recording) (r : Recording) :
    ofRecordings (rs ++ [r]) = (ofRecordings rs).record r.name r.value r.display := by
  rw [ofRecordings, List.foldl_append]
  rfl

/-- What a table says of the recordings that made it. -/
structure Tells (rs : List Recording) (t : Table) : Prop where
  nodup : t.names.Nodup
  mem_names : ∀ name, name ∈ t.names ↔ name ∈ rs.map (·.name)
  inOrder : t.names.Pairwise fun a b => firstPlace rs a < firstPlace rs b
  valueKeys : ∀ name, name ∈ t.values.map (·.1) ↔ name ∈ t.names
  displayKeys : ∀ name, name ∈ t.displays.map (·.1) ↔ name ∈ t.names
  value? : ∀ name, t.value? name = (last? rs name).map (·.value)
  display? : ∀ name, t.display? name = (last? rs name).map (·.display)
  recordNames : t.records.map (·.name) = t.names
  recordOrder : t.records.map (·.order) = List.range t.names.length
  lookups : ∀ r ∈ t.records, t.value? r.name = some r.value ∧ t.display? r.name = some r.display

/-! ## Names -/

theorem coherent_ofRecordings (rs : List Recording) : (ofRecordings rs).Coherent := by
  induction rs using List.reverseRecOn with
  | nil => exact coherent_empty
  | append_singleton rs r ih =>
      rw [ofRecordings_concat]
      exact ih.record r.name r.value r.display

theorem mem_names_ofRecordings (rs : List Recording) (name : String) :
    name ∈ (ofRecordings rs).names ↔ name ∈ rs.map (·.name) := by
  induction rs using List.reverseRecOn with
  | nil => exact Iff.rfl
  | append_singleton rs r ih =>
      rw [ofRecordings_concat, mem_names_record (coherent_ofRecordings rs), ih, List.map_append,
        List.mem_append, or_comm]
      simp

/-- A name that was not recorded before comes last. -/
theorem inOrder_ofRecordings (rs : List Recording) :
    (ofRecordings rs).names.Pairwise fun a b => firstPlace rs a < firstPlace rs b := by
  induction rs using List.reverseRecOn with
  | nil => exact .nil
  | append_singleton rs r ih =>
      have hmem := mem_names_ofRecordings rs
      have hkept : (ofRecordings rs).names.Pairwise fun a b =>
          firstPlace (rs ++ [r]) a < firstPlace (rs ++ [r]) b := by
        refine ih.imp_of_mem fun ha hb hlt => ?_
        rwa [firstPlace_concat_of_mem ((hmem _).1 ha), firstPlace_concat_of_mem ((hmem _).1 hb)]
      rw [ofRecordings_concat, record]
      cases hc : (ofRecordings rs).contains r.name with
      | true => exact hkept
      | false =>
          have hnew : r.name ∉ rs.map (·.name) := by
            rw [← hmem, (coherent_ofRecordings rs).values, ← contains, hc]
            exact Bool.false_ne_true
          refine List.pairwise_append.2 ⟨hkept, List.pairwise_singleton _ _, fun a ha b hb => ?_⟩
          rw [List.mem_singleton.1 hb]
          exact firstPlace_lt_concat ((hmem a).1 ha) hnew

/-! ## Maps -/

theorem mem_keys_iff {α : Type} (entries : List (String × α)) (name : String) :
    name ∈ entries.map (·.1) ↔ (entries.lookup name).isSome = true := by
  induction entries with
  | nil => simp
  | cons entry entries ih =>
      obtain ⟨key, a⟩ := entry
      rw [lookup_cons_ite, List.map_cons, List.mem_cons, ih]
      by_cases h : name = key <;> simp [h]

theorem value?_ofRecordings (rs : List Recording) (name : String) :
    (ofRecordings rs).value? name = (last? rs name).map (·.value) := by
  induction rs using List.reverseRecOn with
  | nil => rfl
  | append_singleton rs r ih =>
      rw [ofRecordings_concat, value?_record, last?_concat, ih]
      split <;> rfl

theorem display?_ofRecordings (rs : List Recording) (name : String) :
    (ofRecordings rs).display? name = (last? rs name).map (·.display) := by
  induction rs using List.reverseRecOn with
  | nil => rfl
  | append_singleton rs r ih =>
      rw [ofRecordings_concat, display?_record, last?_concat, ih]
      split <;> rfl

/-! ## Records -/

theorem map_order_recordsFrom (t : Table) (order : Nat) (names : List String) :
    (t.recordsFrom order names).map (·.order) = List.range' order names.length := by
  induction names generalizing order with
  | nil => rfl
  | cons name names ih => rw [recordsFrom, List.map_cons, ih, List.length_cons, List.range'_succ]

theorem tells_ofRecordings (rs : List Recording) : Tells rs (ofRecordings rs) := by
  have hcoherent := coherent_ofRecordings rs
  exact
    { nodup := hcoherent.nodup
      mem_names := mem_names_ofRecordings rs
      inOrder := inOrder_ofRecordings rs
      valueKeys := fun name => (mem_keys_iff _ name).trans (hcoherent.values name).symm
      displayKeys := fun name => (mem_keys_iff _ name).trans (hcoherent.displays name).symm
      value? := value?_ofRecordings rs
      display? := display?_ofRecordings rs
      recordNames := map_name_records _
      recordOrder := by rw [records, map_order_recordsFrom, List.range_eq_range']
      lookups := fun _ hr => hcoherent.of_mem_records hr }

/-! ## Tables of runs -/

theorem exists_recordings {o : Options} {files : List SourceFile}
    (h : (resolve o files).result = .ok t) :
    ∃ rs, t = ofRecordings rs ∧ ∀ r ∈ rs, r.name ≠ discardName := by
  refine resolve_induction
    (P := fun t => ∃ rs, t = ofRecordings rs ∧ ∀ r ∈ rs, r.name ≠ discardName)
    ⟨[], rfl, fun r hr => absurd hr List.not_mem_nil⟩ ?_ h
  rintro _ name value comment hname ⟨rs, rfl, hrs⟩
  refine ⟨rs ++ [⟨name, value, Resolve.displayText o name comment⟩], ?_, fun r hr => ?_⟩
  · rw [ofRecordings_concat]
  rcases List.mem_append.1 hr with hr | hr
  · exact hrs r hr
  · rw [List.mem_singleton.1 hr]
    exact hname

/-- A run without constants gives no table. -/
theorem isEmpty_of_resolve {o : Options} {files : List SourceFile}
    (h : (resolve o files).result = .ok t) : t.isEmpty = false := by
  obtain ⟨found, _, hrest⟩ := Logged.ok_of_result_bind h
  split at hrest
  · cases hrest
  · next hempty =>
      cases hrest
      exact Bool.eq_false_iff.2 hempty

theorem Coherent.names_ne_nil (h : t.Coherent) (hempty : t.isEmpty = false) : t.names ≠ [] := by
  rw [isEmpty, Bool.or_eq_false_iff, List.isEmpty_eq_false_iff] at hempty
  obtain ⟨entry, entries, hvalues⟩ := List.exists_cons_of_ne_nil hempty.1
  have hname : entry.1 ∈ t.names := by
    rw [h.values, value?, ← mem_keys_iff, hvalues]
    exact List.mem_cons_self
  exact List.ne_nil_of_mem hname

/-- However constants are recorded, the table says of them what it is to say. So does the table of
every run that gives one, which also has a name, and not the one that is dropped. -/
theorem table_tells_recordings (rs : List Recording) (o : Options) (files : List SourceFile)
    (table : Table) :
    Tells rs (ofRecordings rs) ∧
      ((resolve o files).result = .ok table →
        ∃ recorded, table = ofRecordings recorded ∧ Tells recorded table ∧ table.names ≠ [] ∧
          discardName ∉ table.names) := by
  refine ⟨tells_ofRecordings rs, fun h => ?_⟩
  obtain ⟨recorded, rfl, hnames⟩ := exists_recordings h
  refine ⟨recorded, rfl, tells_ofRecordings recorded,
    (coherent_of_resolve h).names_ne_nil (isEmpty_of_resolve h), fun hmem => ?_⟩
  obtain ⟨r, hr, hname⟩ := List.mem_map.1 ((mem_names_ofRecordings recorded discardName).1 hmem)
  exact hnames r hr hname

def redeclaringFile : SourceFile :=
  { package := "p"
    decls :=
      [.consts [namedSpec "A" "T" [.ident ⟨iotaName, {}⟩], namedSpec "_" none [],
        namedSpec "B" none []] true {},
       .consts [namedSpec "A" "T" [.int "7" {}]] false {}] }

def redeclaredTable : Table :=
  { names := ["A", "B"]
    values := [("A", 7), ("B", 2), ("A", 0)]
    displays := [("A", "A"), ("B", "B"), ("A", "A")] }

theorem redeclared_table_tells :
    Tells [⟨"A", 0, "A"⟩, ⟨"B", 2, "B"⟩, ⟨"A", 7, "A"⟩] redeclaredTable ∧
      (resolve { type := "T" } [redeclaringFile]).result = .ok redeclaredTable ∧
      ∃ recorded, redeclaredTable = ofRecordings recorded ∧ Tells recorded redeclaredTable ∧
        redeclaredTable.names ≠ [] ∧ discardName ∉ redeclaredTable.names := by
  have hresolve : (resolve { type := "T" } [redeclaringFile]).result = .ok redeclaredTable := by
    decide +kernel
  obtain ⟨hrecorded, hrun⟩ := table_tells_recordings
    [⟨"A", 0, "A"⟩, ⟨"B", 2, "B"⟩, ⟨"A", 7, "A"⟩] { type := "T" } [redeclaringFile] redeclaredTable
  exact ⟨hrecorded, hresolve, hrun hresolve⟩

end Table
end EnumNames
