import EnumNames.Proofs.FileRows
import EnumNames.Proofs.IntegerText

/-!
The code for a table, in terms of its records. The lines of the guard and of the
name map can be written when no value has more digits than the limit. Then the
code is known row by row as soon as there is a name for the receiver; a longer
value breaks the writing off.
-/

namespace EnumNames

open Numeral (Short)

/-! ## Failures of sequences -/

section

variable {ε α β : Type}

theorem mapM_eq_map {read : α → Except ε β} {f : α → β} {as : List α}
    (h : ∀ a ∈ as, read a = .ok (f a)) : as.mapM read = .ok (as.map f) := by
  induction as with
  | nil => rfl
  | cons a as ih =>
      rw [List.mapM_cons, h a (by simp), ih fun a' ha' => h a' (by simp [ha'])]
      rfl

/-- A reading that can fail in one way only fails so as soon as it fails on an item. -/
theorem mapM_eq_error {read : α → Except ε β} {e : ε} {as : List α}
    (h : ∀ a ∈ as, ∀ e', read a = .error e' → e' = e) (hfail : ∃ a ∈ as, read a = .error e) :
    as.mapM read = .error e := by
  induction as with
  | nil => simp at hfail
  | cons a as ih =>
      rw [List.mapM_cons]
      cases ha : read a with
      | error e' =>
          rw [h a (by simp) e' ha]
          rfl
      | ok b =>
          have hrest : ∃ a' ∈ as, read a' = .error e := by
            obtain ⟨a', hmem, hread⟩ := hfail
            rcases List.mem_cons.1 hmem with rfl | hmem
            · cases ha.symm.trans hread
            · exact ⟨a', hmem, hread⟩
          rw [ok_bind, ih (fun a' ha' => h a' (by simp [ha'])) hrest]
          rfl

theorem error_of_bind {x : Except ε α} {next : α → Except ε β} {e : ε}
    (h : x >>= next = .error e) : x = .error e ∨ ∃ a, x = .ok a ∧ next a = .error e := by
  cases x with
  | error e' => exact .inl (congrArg Except.error (Except.error.inj h))
  | ok a => exact .inr ⟨a, rfl, h⟩

end

/-! ## Lines with integers -/

namespace Artifact

def guardText (r : Record) : String :=
  "_ = x[" ++ r.name ++ (if r.value < 0 then " - " else "-") ++ Numeral.decimal r.value ++ "]"

def entryText (width : Nat) (r : Record) : String :=
  StringLiteral.quote r.display ++ ":" ++
    String.ofList (List.replicate (1 + width - (StringLiteral.quote r.display).length) ' ') ++
    Numeral.decimal r.value ++ ","

variable {r : Record} {records : List Record} {table : Table} {o : Options} {package : String}

theorem short_of_all (h : records.all (fun r => decide (Short r.value)) = true) :
    ∀ r ∈ records, Short r.value :=
  fun r hr => of_decide_eq_true (List.all_eq_true.1 h r hr)

theorem guardLine_of_short (h : Short r.value) : guardLine r = .ok (guardText r) := by
  rw [guardLine, Numeral.write_of_short h]
  rfl

theorem mapLine_of_short (width : Nat) (h : Short r.value) :
    mapLine width r = .ok (entryText width r) := by
  rw [mapLine, Numeral.write_of_short h]
  rfl

theorem guardLine_of_long (h : ¬ Short r.value) : guardLine r = .error .tooLongToWrite := by
  rw [guardLine, Numeral.write_of_long h]
  rfl

theorem guardLines_of_short (h : ∀ r ∈ records, Short r.value) :
    records.mapM guardLine = .ok (records.map guardText) :=
  mapM_eq_map fun r hr => guardLine_of_short (h r hr)

theorem mapLines_of_short (width : Nat) (h : ∀ r ∈ records, Short r.value) :
    records.mapM (mapLine width) = .ok (records.map (entryText width)) :=
  mapM_eq_map fun r hr => mapLine_of_short width (h r hr)

theorem guardLines_of_long (h : ∃ r ∈ records, ¬ Short r.value) :
    records.mapM guardLine = .error .tooLongToWrite := by
  refine mapM_eq_error (fun r _ e he => ?_) ?_
  · by_cases hr : Short r.value
    · cases (guardLine_of_short hr).symm.trans he
    · exact (Except.error.inj ((guardLine_of_long hr).symm.trans he)).symm
  · obtain ⟨r, hr, hlong⟩ := h
    exact ⟨r, hr, guardLine_of_long hlong⟩

/-! ## Code -/

theorem receiver_eq_error (h : table.contains "i" = true ∧ table.contains "_i" = true) :
    receiver table = .error (.receiverCollision receiverCandidates) := by
  simp [receiver, receiverCandidates, h.1, h.2]

theorem exists_receiver (h : ¬ (table.contains "i" = true ∧ table.contains "_i" = true)) :
    ∃ name, receiver table = .ok name := by
  by_cases hi : table.contains "i" = true
  · have hfree : table.contains "_i" = false := by simpa [hi] using h
    exact ⟨"_i", by simp [receiver, receiverCandidates, hi, hfree]⟩
  · exact ⟨"i", by simp [receiver, receiverCandidates, hi]⟩

theorem code_of_collision (h : table.contains "i" = true ∧ table.contains "_i" = true) :
    code o package table =
      .error (.diagnostic { cause := .receiverCollision receiverCandidates }) := by
  rw [code, receiver_eq_error h]
  rfl

theorem code_of_long {name : String} (hr : receiver table = .ok name)
    (h : ∃ r ∈ table.records, ¬ Short r.value) :
    code o package table = .error (.numeral .tooLongToWrite) := by
  rw [code, hr, guardLines_of_long h]
  rfl

/-- The code for a table whose values can be written, row by row. -/
theorem code_of_short {name : String} (hr : receiver table = .ok name)
    (h : ∀ r ∈ table.records, Short r.value) :
    code o package table =
      .ok (stacked (fileRows o package name table.records (table.records.map guardText)
        (table.records.map (entryText (keyWidth table.records))))) := by
  have hguard := guardLines_of_short h
  have hmap := mapLines_of_short (keyWidth table.records) h
  rw [code, hr, hguard, hmap]
  show Except.ok _ = _
  rw [Layout.write_eq, ← rows_layout package name _ hmap, ← Layout.print_eq]
  exact congrArg Except.ok String.empty_append

end Artifact

end EnumNames
