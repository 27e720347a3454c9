import EnumNames.Proofs.FileRows
import EnumNames.Proofs.TableRecords
import Mathlib.Data.List.Lex
import Mathlib.Data.List.Sort
import Mathlib.Data.String.Basic

/-!
The slice of values. It lists the constants that have a case of their own in the
`String` method: one for each value, the first that was declared with it. They
are ordered by display text, and those with the same text by declaration.
-/

namespace EnumNames

/-! ## Order of texts -/

def codePoints (s : String) : List Nat := s.toList.map Char.toNat

theorem map_toNat_lt_iff (cs ds : List Char) : cs.map Char.toNat < ds.map Char.toNat ↔ cs < ds := by
  induction cs generalizing ds with
  | nil => cases ds <;> simp
  | cons c cs ih =>
      cases ds with
      | nil => simp
      | cons d ds =>
          rw [List.map_cons, List.map_cons, List.cons_lt_cons_iff, List.cons_lt_cons_iff, ih,
            Char.toNat_inj]
          rfl

theorem codePoints_lt_iff (s t : String) : codePoints s < codePoints t ↔ s < t :=
  (map_toNat_lt_iff s.toList t.toList).trans String.lt_iff.symm

namespace Artifact

/-! ## Records in order of declaration -/

theorem order_recordsFrom (t : Table) (order : Nat) (names : List String) :
    (t.recordsFrom order names).Pairwise (·.order < ·.order) ∧
      ∀ r ∈ t.recordsFrom order names, order ≤ r.order := by
  induction names generalizing order with
  | nil => exact ⟨.nil, by simp [Table.recordsFrom]⟩
  | cons name names ih =>
      obtain ⟨hrest, hle⟩ := ih (order + 1)
      refine ⟨List.pairwise_cons.2 ⟨fun r hr => hle r hr, hrest⟩, fun r hr => ?_⟩
      rcases List.mem_cons.1 hr with rfl | hr
      · exact Nat.le_refl order
      · exact Nat.le_of_succ_le (hle r hr)

theorem order_cases (table : Table) : (cases table.records).Pairwise (·.order < ·.order) :=
  (order_recordsFrom table 0 table.names).1.sublist (firstPerValue_sublist [] table.records)

/-! ## Ordering -/

def precedes (a b : Record) : Bool := !decide (b.display < a.display)

theorem precedes_iff (a b : Record) : precedes a b = true ↔ a.display ≤ b.display := by
  rw [precedes, Bool.not_eq_true', decide_eq_false_iff_not, String.not_lt]

theorem precedes_trans (a b c : Record) (hab : precedes a b = true) (hbc : precedes b c = true) :
    precedes a c = true := by
  rw [precedes_iff] at hab hbc ⊢
  exact String.le_trans hab hbc

theorem precedes_total (a b : Record) : (precedes a b || precedes b a) = true := by
  rw [Bool.or_eq_true, precedes_iff, precedes_iff]
  exact String.le_total a.display b.display

/-- The records of one display text stand in the sorted list as they stood before. -/
theorem filter_mergeSort (records : List Record) (text : String) :
    (records.mergeSort precedes).filter (·.display == text) =
      records.filter (·.display == text) := by
  have hpairwise : (records.filter (·.display == text)).Pairwise fun a b => precedes a b = true := by
    refine List.pairwise_of_forall_mem_list fun a ha b hb => ?_
    have hdisplay : a.display = text ∧ b.display = text := by
      simpa using And.intro (List.mem_filter.1 ha).2 (List.mem_filter.1 hb).2
    rw [precedes_iff, hdisplay.1, hdisplay.2]
  have hkept := List.sublist_mergeSort precedes_trans precedes_total hpairwise List.filter_sublist
  have hsublist := hkept.filter (·.display == text)
  simp only [List.filter_filter, Bool.and_self] at hsublist
  have hlength := ((List.mergeSort_perm records precedes).filter (·.display == text)).length_eq
  exact (hsublist.eq_of_length hlength.symm).symm

/-- The second choice of one record for each value finds nothing to leave out. -/
theorem ordered_eq_mergeSort (records : List Record) :
    ordered records = (cases records).mergeSort precedes := by
  have hsort := List.mergeSort_perm (cases records) precedes
  have hnodup := (hsort.map (·.value)).nodup_iff.2 (nodup_cases records)
  exact firstPerValue_eq_self (by simp) hnodup

/-- A list of records with one of each value, the first of it in the order of declaration. They are
ordered by the code points of their display texts, and where these are the same by declaration. -/
structure Listing (records listed : List Record) : Prop where
  distinct : (listed.map (·.value)).Nodup
  complete : ∀ r ∈ records, r.value ∈ listed.map (·.value)
  first : ∀ r ∈ listed, records.find? (·.value == r.value) = some r
  sorted : listed.Pairwise fun a b => codePoints a.display ≤ codePoints b.display
  stable : listed.Pairwise fun a b => a.display = b.display → a.order < b.order

theorem mem_cases_iff (records : List Record) (r : Record) :
    r ∈ cases records ↔ records.find? (·.value == r.value) = some r := by
  have hfilter := filter_cases records r.value
  rw [← Option.mem_toList, ← hfilter, List.mem_filter, beq_self_eq_true]
  simp

theorem listing_ordered (table : Table) : Listing table.records (ordered table.records) := by
  have hperm := ordered_perm_cases table.records
  refine ⟨?_, ?_, ?_, ?_, ?_⟩
  · exact (hperm.map (·.value)).nodup_iff.2 (nodup_cases table.records)
  · intro r hr
    have hsome : (table.records.find? (·.value == r.value)).isSome = true :=
      List.find?_isSome.2 ⟨r, hr, beq_self_eq_true _⟩
    obtain ⟨r', hr'⟩ := Option.isSome_iff_exists.1 hsome
    have hvalue : r'.value = r.value := by simpa using List.find?_some hr'
    have hcase : r' ∈ cases table.records := (mem_cases_iff _ _).2 (hvalue ▸ hr')
    exact List.mem_map.2 ⟨r', hperm.mem_iff.2 hcase, hvalue⟩
  · intro r hr
    exact (mem_cases_iff _ _).1 (hperm.mem_iff.1 hr)
  · rw [ordered_eq_mergeSort]
    refine (List.pairwise_mergeSort precedes_trans precedes_total _).imp fun {a b} hab => ?_
    rw [precedes_iff, ← String.not_lt, ← codePoints_lt_iff] at hab
    exact not_lt.1 hab
  · rw [ordered_eq_mergeSort, List.pairwise_iff_forall_sublist]
    intro a b hab heq
    -- Two records with one text stand among the records of that text as they were declared.
    have hpair := hab.filter (·.display == b.display)
    rw [filter_mergeSort] at hpair
    have hkept : [a, b].filter (·.display == b.display) = [a, b] := by simp [heq]
    rw [hkept] at hpair
    exact List.pairwise_iff_forall_sublist.1 (order_cases table)
      (hpair.trans List.filter_sublist)

theorem names_perm_labels (type receiver : String) (records : List Record) :
    ((ordered records).map (·.name)).Perm
      ((method type receiver records).clauses.map (·.label)) := by
  have hlabels : (method type receiver records).clauses.map (·.label) =
      (cases records).map (·.name) := by
    rw [method, List.map_map]
    rfl
  rw [hlabels]
  exact (ordered_perm_cases records).map (·.name)

/-- The rows of the slice, in terms of the records that it lists. -/
theorem sliceRows_eq {o : Options} (h : o.sliceName ≠ "") (records : List Record) :
    sliceRows o (records.map (·.name)) =
      "" :: ("var " ++ o.sliceName ++ " = []" ++ o.type ++ "\x7b") ::
        (records.map (fun r => "\t" ++ (r.name ++ ",")) ++ ["\x7d"]) := by
  rw [sliceRows, variableRows, if_neg h, List.map_map, List.map_map]
  rfl

end Artifact

/-- The slice lists, one to a line, the names that are case labels of the method. They are the first
ones declared with their values, there is one for each value of the table, and they are ordered by
display text with ties in the order of declaration. Choosing one for each value a second time, after
sorting, leaves out none. -/
theorem value_slice_lists_cases (o : Options) (table : Table) (hslice : o.sliceName ≠ "") :
    ∃ (listed : List Record) (rows : List String),
      rows = "" :: ("var " ++ o.sliceName ++ " = []" ++ o.type ++ "\x7b") ::
        (listed.map (fun r => "\t" ++ (r.name ++ ",")) ++ ["\x7d"]) ∧
      (Artifact.sliceSection o table.records .done).rows "\t" 0 = rows ∧
      (∀ package code, (generate o package table).result = .ok code →
        ∃ receiver guardLines mapLines, Artifact.receiver table = .ok receiver ∧
          table.records.mapM Artifact.guardLine = .ok guardLines ∧
          table.records.mapM (Artifact.mapLine (Artifact.keyWidth table.records)) = .ok mapLines ∧
          code = stacked (Artifact.openingRows package guardLines ++
            ((Artifact.method o.type receiver table.records).rows ++
              (Artifact.mapRows o mapLines ++ rows)))) ∧
      (∀ receiver, (listed.map (·.name)).Perm
        ((Artifact.method o.type receiver table.records).clauses.map (·.label))) ∧
      Artifact.Listing table.records listed ∧
      listed = (Artifact.cases table.records).mergeSort Artifact.precedes ∧
      Artifact.cases listed = listed := by
  have hrows := Artifact.sliceRows_eq hslice (Artifact.ordered table.records)
  have hsorted := Artifact.ordered_eq_mergeSort table.records
  refine ⟨Artifact.ordered table.records, _, rfl, ?_, ?_,
    fun receiver => Artifact.names_perm_labels o.type receiver table.records,
    Artifact.listing_ordered table, hsorted, ?_⟩
  · rw [Artifact.rows_sliceSection, hrows]
  · intro package code hcode
    rw [← hrows]
    exact Artifact.rows_of_code (code_of_generate hcode)
  · exact Artifact.firstPerValue_eq_self (by simp) (Artifact.listing_ordered table).distinct

def sharedTable : Table :=
  { names := ["B", "A", "C", "D"]
    values := [("D", 2), ("C", 1), ("A", 0), ("B", 1)]
    displays := [("D", "x"), ("C", "w"), ("A", "y"), ("B", "x")] }

theorem shared_slice_lists_cases :
    ∃ listed : List Record,
      (Artifact.sliceSection { type := "T", sliceName := "S" } sharedTable.records .done).rows "\t" 0 =
        "" :: "var S = []T\x7b" :: (listed.map (fun r => "\t" ++ (r.name ++ ",")) ++ ["\x7d"]) ∧
      (listed.map (·.name)).Perm ["B", "A", "D"] ∧ Artifact.Listing sharedTable.records listed := by
  obtain ⟨listed, rows, hrows, hsection, _, hperm, hlisting, _⟩ :=
    value_slice_lists_cases { type := "T", sliceName := "S" } sharedTable (by decide)
  exact ⟨listed, hsection.trans hrows, hperm "i", hlisting⟩

end EnumNames
