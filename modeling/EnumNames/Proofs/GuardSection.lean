import EnumNames.Proofs.EmittedCode
import EnumNames.Proofs.LongLiteral
import EnumNames.Proofs.StringMethod

/-!
The guard of a generated file. Each constant is an operand of an index into an
array of one element, so that the code compiles only while the constant has the
value of the table. The indices are read back from the text of the guard. There
is one for each constant, in order, and together they determine the constants and
their values. There is no guard when a value has more digits than can be written.
-/

namespace EnumNames

open EnumNames.Grammar EnumNames.Text
open Numeral (Short)

/-! ## Reading an index -/

structure GuardIndex where
  name : String
  amount : Int
  deriving DecidableEq, Repr

namespace GuardIndex

/-- Reads a subtraction. Two minus signs without a blank between them are one token, and no
subtraction. -/
def ofDifference (cs : List Char) : Option GuardIndex :=
  let name := cs.takeWhile isWord
  match (cs.dropWhile isWord).dropWhile (· == ' ') with
  | '-' :: rest =>
      if isIdentifier name = true ∧ rest.head? ≠ some '-' then
        (IntLiteral.signed? (rest.dropWhile (· == ' '))).map (⟨String.ofList name, ·⟩)
      else none
  | _ => none

/-- Reads the index of a row that does nothing but index the array. -/
def read (row : String) : Option GuardIndex :=
  (between? "\t_ = x[" "]" row).bind fun index => ofDifference index.toList

def eval (values : String → Int) (i : GuardIndex) : Int := values i.name - i.amount

theorem ofDifference_append {name gap rest : List Char} (hn : isIdentifier name = true)
    (hgap : gap.all (· == ' ') = true) (hrest : rest.head? ≠ some '-') :
    ofDifference (name ++ (gap ++ '-' :: rest)) =
      (IntLiteral.signed? (rest.dropWhile (· == ' '))).map (⟨String.ofList name, ·⟩) := by
  have hword := all_isWord_of_isIdentifier hn
  have hstops : Stops isWord (gap ++ '-' :: rest) := by
    cases gap with
    | nil => exact stops_cons.2 (by decide +kernel)
    | cons c gap =>
        obtain rfl : c = ' ' := beq_iff_eq.1 (List.all_eq_true.1 hgap c List.mem_cons_self)
        exact stops_cons.2 (by decide +kernel)
  have hname : (name ++ (gap ++ '-' :: rest)).dropWhile isWord = gap ++ '-' :: rest := by
    rw [List.dropWhile_append_of_pos (List.all_eq_true.1 hword), dropWhile_of_stops hstops]
  have hminus : (gap ++ '-' :: rest).dropWhile (· == ' ') = '-' :: rest := by
    rw [List.dropWhile_append_of_pos (List.all_eq_true.1 hgap),
      dropWhile_of_stops (stops_cons.2 (by decide))]
  simp only [ofDifference, takeWhile_append_stops hword hstops, hname, hminus, hn, hrest, ne_eq,
    not_false_eq_true, and_self, if_true]

end GuardIndex

namespace Artifact

variable {r : Record} {records : List Record} {lines : List String}

/-- The index of a constant is read as the constant and its value. -/
theorem ofDifference_index (hn : isIdentifier r.name.toList = true) (hshort : Short r.value) :
    GuardIndex.ofDifference (r.name.toList ++ ((if r.value < 0 then " - " else "-").toList ++
      (Numeral.decimal r.value).toList)) = some ⟨r.name, r.value⟩ := by
  have hnumber : (Numeral.decimal r.value).toList.dropWhile (· == ' ') =
      (Numeral.decimal r.value).toList := by
    have hstops := Numeral.stops_decimal r.value (stops_nil _)
    rw [List.append_nil] at hstops
    exact dropWhile_of_stops hstops
  have hsigned := IntLiteral.signed?_decimal hshort
  by_cases hneg : r.value < 0
  · -- The blank keeps the two minus signs apart.
    have hread : GuardIndex.ofDifference (r.name.toList ++
        ([' '] ++ '-' :: ' ' :: (Numeral.decimal r.value).toList)) = _ :=
      GuardIndex.ofDifference_append hn (by decide) (by simp)
    rw [List.dropWhile_cons_of_pos (by decide), hnumber, hsigned, String.ofList_toList] at hread
    rw [if_pos hneg]
    exact hread
  · have hhead : (Numeral.decimal r.value).toList.head? ≠ some '-' := by
      intro hminus
      rcases Numeral.mem_decimal (List.mem_of_head? hminus) with ⟨hlt, _⟩ | hdigit
      · exact hneg hlt
      · exact absurd hdigit (by decide)
    have hread : GuardIndex.ofDifference (r.name.toList ++
        ([] ++ '-' :: (Numeral.decimal r.value).toList)) = _ :=
      GuardIndex.ofDifference_append hn rfl hhead
    rw [hnumber, hsigned, String.ofList_toList] at hread
    rw [if_neg hneg]
    exact hread

theorem row_guardText (r : Record) : Layout.row "\t" 1 (guardText r) = "\t" ++ guardText r := by
  rw [guardText]
  simp only [String.append_assoc]
  rw [Layout.row_append _ "\t" 1 (by decide), String.append_assoc]
  rfl

theorem read_guardText (hn : isIdentifier r.name.toList = true) (hshort : Short r.value) :
    GuardIndex.read (Layout.row "\t" 1 (guardText r)) = some ⟨r.name, r.value⟩ := by
  have hrow : "\t" ++ guardText r = "\t_ = x[" ++ (r.name ++
      ((if r.value < 0 then " - " else "-") ++ Numeral.decimal r.value)) ++ "]" := by
    have hopen : "\t_ = x[" = "\t" ++ "_ = x[" := rfl
    simp only [guardText, hopen, String.append_assoc]
  rw [row_guardText, hrow, GuardIndex.read, between?_append, Option.bind_some, String.toList_append,
    String.toList_append]
  exact ofDifference_index hn hshort

/-! ## The section -/

def guardCode (lines : List String) : String := stacked ((guardSection lines).rows "\t" 1)

def guardIndices (text : String) : List GuardIndex := (linesOf text).filterMap GuardIndex.read

def guardHead : List String :=
  (Emitter.commentLines guardComment ++ ["var x [1]struct\x7b\x7d"]).map (Layout.row "\t" 1)

theorem oneLine_guardHead : ∀ row ∈ guardHead, OneLine row := by
  intro row hrow
  have hopening : row ∈ openingRows "p" [] :=
    List.mem_append_right _ (List.mem_append_left _ hrow)
  exact oneLine_opening (by decide +kernel) (by simp) row hopening

theorem read_comment (text : String) :
    GuardIndex.read (Layout.row "\t" 1 ("// " ++ text)) = none := by
  have hrow : Layout.row "\t" 1 ("// " ++ text) = "\t// " ++ text := by
    rw [Layout.row_append _ "\t" 1 (by decide)]
    rfl
  have hchars : ("\t// " ++ text).toList = '\t' :: '/' :: '/' :: ' ' :: text.toList := by
    rw [String.toList_append]
    rfl
  rw [hrow, GuardIndex.read, between?, hchars]
  rfl

theorem filterMap_read_guardHead : guardHead.filterMap GuardIndex.read = [] := by
  refine List.filterMap_eq_nil_iff.2 fun row hrow => ?_
  obtain ⟨line, hline, rfl⟩ := List.mem_map.1 hrow
  rcases List.mem_append.1 hline with hline | hline
  · obtain ⟨part, _, rfl⟩ := List.mem_map.1 hline
    exact read_comment _
  · obtain rfl := List.mem_singleton.1 hline
    decide +kernel

theorem rows_guardSection_map (records : List Record) :
    (guardSection (records.map guardText)).rows "\t" 1 =
      guardHead ++ records.map fun r => Layout.row "\t" 1 (guardText r) := by
  rw [rows_guardSection, List.append_cons, List.map_append, List.map_map, guardHead]
  rfl

theorem linesOf_guardCode (hn : ∀ r ∈ records, isIdentifier r.name.toList = true)
    (hshort : ∀ r ∈ records, Short r.value) :
    linesOf (guardCode (records.map guardText)) =
      guardHead ++ records.map (fun r => Layout.row "\t" 1 (guardText r)) ++ [""] := by
  rw [guardCode, linesOf_stacked, rows_guardSection_map, flatMap_linesOf]
  intro row hrow
  rcases List.mem_append.1 hrow with hrow | hrow
  · exact oneLine_guardHead row hrow
  · obtain ⟨r, hr, rfl⟩ := List.mem_map.1 hrow
    exact Layout.oneLine_row (oneLine_guardLine (hn r hr) (guardLine_of_short (hshort r hr))) 1

/-- The indices in the guard are those of the constants; its other lines have none. -/
theorem guardIndices_guardCode (hn : ∀ r ∈ records, isIdentifier r.name.toList = true)
    (hshort : ∀ r ∈ records, Short r.value) :
    guardIndices (guardCode (records.map guardText)) = records.map fun r => ⟨r.name, r.value⟩ := by
  have hend : [""].filterMap GuardIndex.read = [] := by decide +kernel
  have hread : ∀ r ∈ records, (GuardIndex.read ∘ fun r => Layout.row "\t" 1 (guardText r)) r =
      some ⟨r.name, r.value⟩ := by
    intro r hr
    rw [Function.comp_apply, read_guardText (hn r hr) (hshort r hr)]
  rw [guardIndices, linesOf_guardCode hn hshort, List.filterMap_append, List.filterMap_append,
    filterMap_read_guardHead, hend, List.nil_append, List.append_nil, List.filterMap_map]
  exact List.filterMap_eq_map_iff_forall_eq_some.2 hread

/-- The guard stands between fixed rows before the method. -/
theorem openingRows_eq (package : String) (lines : List String) :
    openingRows package lines =
      [header, "", "package " ++ package, "", "import \"strconv\"", "", "func _() \x7b"] ++
        ((guardSection lines).rows "\t" 1 ++ ["\x7d", ""]) := by
  rw [rows_guardSection]
  rfl

theorem exists_guardLines_iff :
    (∃ lines, records.mapM guardLine = .ok lines) ↔ ∀ r ∈ records, Short r.value := by
  refine ⟨?_, fun hshort => ⟨_, guardLines_of_short hshort⟩⟩
  rintro ⟨lines, hlines⟩
  by_contra hlong
  have herror := guardLines_of_long (by simpa using hlong)
  cases herror.symm.trans hlines

/-- What is emitted for the constants is read as the constants and their values. -/
theorem guardIndices_of_guardLines (hn : ∀ r ∈ records, isIdentifier r.name.toList = true)
    (h : records.mapM guardLine = .ok lines) :
    guardIndices (guardCode lines) = records.map fun r => ⟨r.name, r.value⟩ := by
  have hshort := exists_guardLines_iff.1 ⟨lines, h⟩
  obtain rfl := Except.ok.inj ((guardLines_of_short hshort).symm.trans h)
  exact guardIndices_guardCode hn hshort

theorem eval_eq_zero_iff (records : List Record) (values : String → Int) :
    (∀ i ∈ records.map (fun r => GuardIndex.mk r.name r.value), i.eval values = 0) ↔
      ∀ r ∈ records, values r.name = r.value := by
  simp only [List.forall_mem_map, GuardIndex.eval, Int.sub_eq_zero]

end Artifact

/-- When the names of a table are identifiers, there is a guard exactly when all values can be
written, and nothing can be generated otherwise. The guard has one index for each constant, in
order: the constant less its value. So the indices are all zero exactly when the constants have
the values of the table, and the text of the guard determines names, order and values. -/
theorem guard_pins_constants (table : Table)
    (hnames : ∀ r ∈ table.records, isIdentifier r.name.toList = true) :
    ((∃ lines, table.records.mapM Artifact.guardLine = .ok lines) ↔
      ∀ r ∈ table.records, Short r.value) ∧
    ((∃ r ∈ table.records, ¬ Short r.value) →
      table.records.mapM Artifact.guardLine = .error .tooLongToWrite ∧
      ∀ o package code, (generate o package table).result ≠ .ok code) ∧
    ∀ lines, table.records.mapM Artifact.guardLine = .ok lines →
      (∀ o package code, (generate o package table).result = .ok code →
        ∃ after, code = stacked [Artifact.header, "", "package " ++ package, "",
            "import \"strconv\"", "", "func _() \x7b"] ++
          (Artifact.guardCode lines ++ stacked ("\x7d" :: "" :: after))) ∧
      Artifact.guardIndices (Artifact.guardCode lines) =
        table.records.map (fun r => ⟨r.name, r.value⟩) ∧
      (∀ values : String → Int,
        (∀ i ∈ Artifact.guardIndices (Artifact.guardCode lines), i.eval values = 0) ↔
          ∀ r ∈ table.records, values r.name = r.value) ∧
      ∀ (other : Table) (otherLines : List String),
        (∀ r ∈ other.records, isIdentifier r.name.toList = true) →
        other.records.mapM Artifact.guardLine = .ok otherLines →
        Artifact.guardCode otherLines = Artifact.guardCode lines →
        other.records.map (fun r => (r.name, r.value)) =
          table.records.map (fun r => (r.name, r.value)) := by
  refine ⟨Artifact.exists_guardLines_iff, ?_, ?_⟩
  · intro hlong
    have herror := Artifact.guardLines_of_long hlong
    refine ⟨herror, fun o package code hcode => ?_⟩
    obtain ⟨_, guardLines, _, _, hguard, _⟩ := Artifact.rows_of_code (code_of_generate hcode)
    cases herror.symm.trans hguard
  · intro lines hlines
    have hindices := Artifact.guardIndices_of_guardLines hnames hlines
    refine ⟨?_, hindices, fun values => ?_, ?_⟩
    · intro o package code hcode
      obtain ⟨receiver, guardLines, mapLines, _, hguard, _, hrows⟩ :=
        Artifact.rows_of_code (code_of_generate hcode)
      rw [Except.ok.inj (hguard.symm.trans hlines)] at hrows
      refine ⟨(Artifact.method o.type receiver table.records).rows ++ (Artifact.mapRows o mapLines ++
        Artifact.sliceRows o ((Artifact.ordered table.records).map (·.name))), ?_⟩
      rw [hrows, Artifact.fileRows, Artifact.openingRows_eq, Artifact.guardCode, ← stacked_append,
        ← stacked_append]
      simp -implicitDefEqProofs only [List.append_assoc, List.cons_append, List.nil_append]
    · rw [hindices, Artifact.eval_eq_zero_iff]
    · intro other otherLines hother hread htext
      have hsame := (Artifact.guardIndices_of_guardLines hother hread).symm.trans
        ((congrArg Artifact.guardIndices htext).trans hindices)
      have hpairs := congrArg (List.map fun i => (i.name, i.amount)) hsame
      rw [List.map_map, List.map_map] at hpairs
      exact hpairs

def signedTable : Table :=
  { names := ["Below", "Zero"]
    values := [("Zero", 0), ("Below", -12)]
    displays := [("Zero", "Zero"), ("Below", "Below")] }

theorem signed_guard_pins_constants :
    ∃ lines, signedTable.records.mapM Artifact.guardLine = .ok lines ∧
      Artifact.guardIndices (Artifact.guardCode lines) = [⟨"Below", -12⟩, ⟨"Zero", 0⟩] ∧
      ∀ values : String → Int,
        (∀ i ∈ Artifact.guardIndices (Artifact.guardCode lines), i.eval values = 0) ↔
          ∀ r ∈ signedTable.records, values r.name = r.value := by
  have hnames : ∀ r ∈ signedTable.records, isIdentifier r.name.toList = true := by
    have hall : signedTable.records.all (fun r => isIdentifier r.name.toList) = true := by
      decide +kernel
    exact List.all_eq_true.1 hall
  have hshort : ∀ r ∈ signedTable.records, Short r.value :=
    Artifact.short_of_all (by decide +kernel)
  obtain ⟨hexists, _, hguard⟩ := guard_pins_constants signedTable hnames
  obtain ⟨lines, hlines⟩ := hexists.2 hshort
  obtain ⟨_, hindices, hvalues, _⟩ := hguard lines hlines
  exact ⟨lines, hlines, hindices.trans (by decide), hvalues⟩

/-- A table with identifiers for names that has no guard. -/
theorem long_value_has_no_guard :
    (∀ r ∈ (powerTable longExponent).records, isIdentifier r.name.toList = true) ∧
      (powerTable longExponent).records.mapM Artifact.guardLine = .error .tooLongToWrite := by
  refine ⟨fun r hr => ?_, Artifact.guardLines_of_long (exists_long_power limit_le_power)⟩
  have hname : r.name = "A" := List.mem_singleton.1 (Table.name_mem_of_mem_records hr)
  rw [hname]
  decide +kernel

end EnumNames
