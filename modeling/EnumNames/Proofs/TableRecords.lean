import EnumNames.Code.Artifact
import EnumNames.Proofs.DeclaredValues

/-!
The tables that folding builds. A table starts empty and grows by one record at a
time, so what every record keeps holds of every table: its names are distinct,
and a name has a value and a display text exactly when it is listed. Of the
records with one value the first has a case of its own.
-/

namespace EnumNames

/-! ## Induction over the records of a run -/

namespace Resolve

variable {o : Options} {P : Table → Prop}

theorem step_keeps
    (hrecord : ∀ t name value comment, name ≠ discardName → P t →
      P (t.record name value (displayText o name comment)))
    {s s' : State} {spec : ConstSpec} (hs : P s.table) (h : (step o s spec).result = .ok s') :
    P s'.table := by
  rcases Folding.cases_of_step h with ⟨_, rfl⟩ | ⟨_, id, value, counter, _, rfl⟩
  · exact hs
  · dsimp only
    split
    · exact hs
    · next hname => exact hrecord _ _ _ _ hname hs

theorem block_keeps
    (hrecord : ∀ t name value comment, name ≠ discardName → P t →
      P (t.record name value (displayText o name comment)))
    {t t' : Table} {specs : List ConstSpec} (ht : P t) (h : (block o t specs).result = .ok t') :
    P t' := by
  obtain ⟨s, hs, heq⟩ := Logged.ok_of_result_bind h
  cases heq
  exact Logged.foldlM_keeps (I := fun s : State => P s.table)
    (fun _ _ _ _ hi => step_keeps hrecord hi) ht hs

end Resolve

/-- What holds of the empty table and is kept by every record of a name that is not dropped holds
of the table of a run. -/
theorem resolve_induction {o : Options} {P : Table → Prop} {files : List SourceFile}
    {table : Table} (hempty : P {})
    (hrecord : ∀ t name value comment, name ≠ discardName → P t →
      P (t.record name value (Resolve.displayText o name comment)))
    (h : (resolve o files).result = .ok table) : P table := by
  obtain ⟨t, ht, hrest⟩ := Logged.ok_of_result_bind h
  have hfound : P t :=
    Logged.foldlM_keeps (fun _ _ _ _ hi => Resolve.block_keeps hrecord hi) hempty ht
  split at hrest
  · cases hrest
  · cases hrest
    exact hfound

/-! ## Names, values and display texts -/

namespace Table

variable {t : Table}

theorem lookup_cons_ite {α : Type} (entries : List (String × α)) (name other : String) (a : α) :
    ((name, a) :: entries).lookup other = if other = name then some a else entries.lookup other := by
  by_cases h : other = name
  · simp [h]
  · have hne : (other == name) = false := beq_eq_false_iff_ne.2 h
    simp only [List.lookup_cons, hne, if_neg h]

theorem value?_record (t : Table) (name : String) (value : Int) (display other : String) :
    (t.record name value display).value? other =
      if other = name then some value else t.value? other :=
  lookup_cons_ite ..

theorem display?_record (t : Table) (name : String) (value : Int) (display other : String) :
    (t.record name value display).display? other =
      if other = name then some display else t.display? other :=
  lookup_cons_ite ..

/-- The names are distinct, and both maps are defined on them and nowhere else. -/
structure Coherent (t : Table) : Prop where
  nodup : t.names.Nodup
  values : ∀ name, name ∈ t.names ↔ (t.value? name).isSome = true
  displays : ∀ name, name ∈ t.names ↔ (t.display? name).isSome = true

theorem coherent_empty : Coherent {} := by
  refine ⟨List.nodup_nil, ?_, ?_⟩ <;> intro name <;> simp [value?, display?]

theorem mem_names_record (h : t.Coherent) (name : String) (value : Int) (display other : String) :
    other ∈ (t.record name value display).names ↔ other = name ∨ other ∈ t.names := by
  cases hc : t.contains name with
  | true =>
      have hmem : name ∈ t.names := (h.values name).2 hc
      simp only [record, hc, if_true]
      constructor
      · exact Or.inr
      · rintro (rfl | hother)
        · exact hmem
        · exact hother
  | false => simp [record, hc, or_comm]

theorem Coherent.record (h : t.Coherent) (name : String) (value : Int) (display : String) :
    (t.record name value display).Coherent := by
  refine ⟨?_, fun other => ?_, fun other => ?_⟩
  · cases hc : t.contains name with
    | true => simpa [Table.record, hc] using h.nodup
    | false =>
        have hmem : name ∉ t.names := by
          intro hmem
          rw [contains, (h.values name).1 hmem] at hc
          cases hc
        simp only [Table.record, hc]
        exact List.nodup_append.2 ⟨h.nodup, by simp, fun a ha b hb => by
          rw [List.mem_singleton.1 hb]
          exact fun heq => hmem (heq ▸ ha)⟩
  · rw [mem_names_record h, value?_record, h.values other]
    by_cases hother : other = name <;> simp [hother]
  · rw [mem_names_record h, display?_record, h.displays other]
    by_cases hother : other = name <;> simp [hother]

theorem coherent_of_resolve {o : Options} {files : List SourceFile} {table : Table}
    (h : (resolve o files).result = .ok table) : table.Coherent :=
  resolve_induction coherent_empty (fun _ _ _ _ _ ht => ht.record _ _ _) h

/-! ## Records -/

theorem map_name_recordsFrom (t : Table) (order : Nat) (names : List String) :
    (t.recordsFrom order names).map (·.name) = names := by
  induction names generalizing order with
  | nil => rfl
  | cons name names ih => rw [recordsFrom, List.map_cons, ih]

theorem map_name_records (t : Table) : t.records.map (·.name) = t.names :=
  map_name_recordsFrom t 0 t.names

theorem mem_recordsFrom {order : Nat} {names : List String} {r : Record}
    (h : r ∈ t.recordsFrom order names) :
    r.name ∈ names ∧ r.value = (t.value? r.name).getD 0 ∧
      r.display = (t.display? r.name).getD "" := by
  induction names generalizing order with
  | nil => cases h
  | cons name names ih =>
      rcases List.mem_cons.1 h with rfl | h
      · exact ⟨List.mem_cons_self .., rfl, rfl⟩
      · obtain ⟨hname, hvalue, hdisplay⟩ := ih h
        exact ⟨List.mem_cons_of_mem _ hname, hvalue, hdisplay⟩

theorem name_mem_of_mem_records {r : Record} (h : r ∈ t.records) : r.name ∈ t.names :=
  (mem_recordsFrom h).1

/-- A record says what the maps say of its name. -/
theorem Coherent.of_mem_records (h : t.Coherent) {r : Record} (hr : r ∈ t.records) :
    t.value? r.name = some r.value ∧ t.display? r.name = some r.display := by
  obtain ⟨hname, hvalue, hdisplay⟩ := mem_recordsFrom hr
  obtain ⟨value, hv⟩ := Option.isSome_iff_exists.1 ((h.values r.name).1 hname)
  obtain ⟨display, hd⟩ := Option.isSome_iff_exists.1 ((h.displays r.name).1 hname)
  rw [hvalue, hdisplay, hv, hd]
  exact ⟨rfl, rfl⟩

end Table

/-! ## Cases -/

namespace Artifact

variable {seen : List Int} {records : List Record}

theorem filter_firstPerValue (seen : List Int) (records : List Record) (v : Int) :
    (firstPerValue seen records).filter (·.value == v) =
      if v ∈ seen then [] else (records.find? (·.value == v)).toList := by
  induction records generalizing seen with
  | nil => simp [firstPerValue]
  | cons r records ih =>
      rw [firstPerValue, List.find?_cons]
      by_cases hr : r.value ∈ seen
      · rw [if_pos (by simpa using hr), ih]
        by_cases hv : v ∈ seen
        · rw [if_pos hv, if_pos hv]
        · have hne : (r.value == v) = false := beq_eq_false_iff_ne.2 fun heq => hv (heq ▸ hr)
          rw [if_neg hv, if_neg hv, hne]
      · rw [if_neg (by simpa using hr), List.filter_cons, ih]
        by_cases hv : r.value = v
        · subst hv
          simp [hr]
        · have hne : (r.value == v) = false := beq_eq_false_iff_ne.2 hv
          simp [hne, Ne.symm hv]

/-- The case of a value is that of the first record with the value. -/
theorem filter_cases (records : List Record) (v : Int) :
    (cases records).filter (·.value == v) = (records.find? (·.value == v)).toList := by
  rw [cases, filter_firstPerValue, if_neg List.not_mem_nil]

theorem firstPerValue_sublist (seen : List Int) (records : List Record) :
    (firstPerValue seen records).Sublist records := by
  induction records generalizing seen with
  | nil => exact .slnil
  | cons r records ih =>
      rw [firstPerValue]
      split
      · exact (ih seen).cons r
      · exact (ih _).cons_cons r

theorem value_not_mem_seen {r : Record} (h : r ∈ firstPerValue seen records) : r.value ∉ seen := by
  intro hmem
  have hfilter := filter_firstPerValue seen records r.value
  rw [if_pos hmem, List.filter_eq_nil_iff] at hfilter
  exact hfilter r h (beq_self_eq_true r.value)

theorem nodup_firstPerValue (seen : List Int) (records : List Record) :
    ((firstPerValue seen records).map (·.value)).Nodup := by
  induction records generalizing seen with
  | nil => exact List.nodup_nil
  | cons r records ih =>
      rw [firstPerValue]
      split
      · exact ih seen
      · refine List.nodup_cons.2 ⟨fun hmem => ?_, ih _⟩
        obtain ⟨r', hr', heq⟩ := List.mem_map.1 hmem
        exact value_not_mem_seen hr' (by simp [heq])

theorem nodup_cases (records : List Record) : ((cases records).map (·.value)).Nodup :=
  nodup_firstPerValue [] records

theorem firstPerValue_eq_self (hseen : ∀ r ∈ records, r.value ∉ seen)
    (h : (records.map (·.value)).Nodup) : firstPerValue seen records = records := by
  induction records generalizing seen with
  | nil => rfl
  | cons r records ih =>
      obtain ⟨hr, hrest⟩ := List.nodup_cons.1 h
      have hnew : seen.contains r.value = false := by simpa using hseen r (by simp)
      have htail : ∀ r' ∈ records, r'.value ∉ r.value :: seen := by
        intro r' hr' hmem
        rcases List.mem_cons.1 hmem with heq | hmem
        · exact hr (List.mem_map.2 ⟨r', hr', heq⟩)
        · exact hseen r' (by simp [hr']) hmem
      rw [firstPerValue, hnew, ih htail hrest]
      rfl

/-- Ordering by display text only moves the records that have a case. -/
theorem ordered_perm_cases (records : List Record) : (ordered records).Perm (cases records) := by
  have hsort := List.mergeSort_perm (cases records) fun a b => !decide (b.display < a.display)
  have hnodup := (hsort.map (·.value)).nodup_iff.2 (nodup_cases records)
  rw [ordered, cases, firstPerValue_eq_self (by simp) hnodup]
  exact hsort

end Artifact
end EnumNames
