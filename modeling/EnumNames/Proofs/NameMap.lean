import EnumNames.Proofs.EmittedCode
import EnumNames.Proofs.StringMethod

/-!
The name map of a generated file. Its entries are read back from their rows:
the text of the key, the blanks after the colon, the column of the value, and the
value. There is one entry for each constant, in order, and the values stand below
one another. When no two constants are displayed alike, looking up what the
`String` method returns for a value gives the value.
-/

namespace EnumNames

open EnumNames.Grammar EnumNames.Text
open Numeral (Short)

/-! ## Reading an entry -/

/-- An entry of a map: its key, the number of blanks after the colon, the number of characters
before the value, and the value. -/
structure MapEntry where
  key : String
  blanks : Nat
  column : Nat
  value : Int
  deriving DecidableEq, Repr

/-- Reads a row of a tab, a string literal, a colon, blanks, an integer and a comma. -/
def MapEntry.read (row : String) : Option MapEntry :=
  match row.toList with
  | '\t' :: cs =>
      match StringLiteral.readFirst cs with
      | some (key, ':' :: rest) =>
          let number := rest.dropWhile (· == ' ')
          ((number.dropSuffix? [',']).bind IntLiteral.signed?).map fun value =>
            { key := String.ofList key
              blanks := rest.length - number.length
              column := row.toList.length - number.length
              value }
      | _ => none
  | _ => none

def entryPairs (rows : List String) : List (String × Int) :=
  (rows.filterMap MapEntry.read).map fun e => (e.key, e.value)

namespace Artifact

variable {r : Record} {records : List Record} {width : Nat}

theorem toList_entryText (width : Nat) (r : Record) :
    ("\t" ++ entryText width r).toList =
      '\t' :: (StringLiteral.quoteChars r.display.toList ++ ':' ::
        (List.replicate (1 + width - (StringLiteral.quote r.display).length) ' ' ++
          ((Numeral.decimal r.value).toList ++ [',']))) := by
  have htab : "\t".toList = ['\t'] := rfl
  have hcolon : ":".toList = [':'] := rfl
  have hcomma : ",".toList = [','] := rfl
  have hquote : (StringLiteral.quote r.display).toList =
      StringLiteral.quoteChars r.display.toList := String.toList_ofList
  simp only [entryText, String.toList_append, htab, hcolon, hcomma, hquote,
    String.toList_ofList, List.append_assoc, List.cons_append, List.nil_append]

def entryOf (width : Nat) (r : Record) : MapEntry :=
  { key := r.display
    blanks := 1 + width - (StringLiteral.quote r.display).length
    column := width + 3
    value := r.value }

/-- An entry is read as the display text and the value of its record. -/
theorem read_entryText (hshort : Short r.value)
    (hwidth : (StringLiteral.quote r.display).length ≤ width) :
    MapEntry.read ("\t" ++ entryText width r) = some (entryOf width r) := by
  have hnumber : ((List.replicate (1 + width - (StringLiteral.quote r.display).length) ' ' ++
      ((Numeral.decimal r.value).toList ++ [','])).dropWhile (· == ' ')) =
      (Numeral.decimal r.value).toList ++ [','] := by
    rw [List.dropWhile_append_of_pos (fun c hc => by simp [List.eq_of_mem_replicate hc]),
      dropWhile_of_stops (Numeral.stops_decimal r.value (stops_cons.2 (by decide)))]
  have hcomma : ((Numeral.decimal r.value).toList ++ [',']).dropSuffix? [','] =
      some (Numeral.decimal r.value).toList :=
    List.dropSuffix?_eq_some_iff.2 ⟨_, rfl, beq_self_eq_true _⟩
  have hlength : (StringLiteral.quoteChars r.display.toList).length =
      (StringLiteral.quote r.display).length := by
    rw [StringLiteral.quote, String.length_ofList]
  simp only [MapEntry.read, toList_entryText, StringLiteral.readFirst_quoteChars, hnumber, hcomma,
    Option.bind_some, IntLiteral.signed?_decimal hshort, Option.map_some, String.ofList_toList,
    Option.some.injEq, entryOf, MapEntry.mk.injEq, true_and, and_true]
  simp only [List.length_cons, List.length_append, List.length_replicate, hlength]
  omega

/-! ## The column of the values -/

theorem le_foldl_max (lengths : List Nat) (start : Nat) :
    start ≤ lengths.foldl max start ∧ ∀ n ∈ lengths, n ≤ lengths.foldl max start := by
  induction lengths generalizing start with
  | nil => simp
  | cons n lengths ih =>
      obtain ⟨hstart, hrest⟩ := ih (max start n)
      rw [List.foldl_cons]
      refine ⟨by omega, fun m hm => ?_⟩
      rcases List.mem_cons.1 hm with rfl | hm
      · omega
      · exact hrest m hm

theorem length_quote_le_keyWidth (hr : r ∈ records) :
    (StringLiteral.quote r.display).length ≤ keyWidth records :=
  (le_foldl_max _ 0).2 _ (List.mem_map_of_mem hr)

/-! ## The entries -/

def entryRows (records : List Record) : List String :=
  records.map fun r => "\t" ++ entryText (keyWidth records) r

theorem oneLine_entryText (width : Nat) (r : Record) : OneLine ("\t" ++ entryText width r) := by
  have hblanks : ∀ n : Nat, OneLine (String.ofList (List.replicate n ' ')) := by
    intro n hmem
    rw [String.toList_ofList] at hmem
    exact absurd (List.eq_of_mem_replicate hmem) (by decide)
  have hquote : OneLine (StringLiteral.quote r.display) :=
    StringLiteral.newline_not_mem_quote r.display
  have htab : OneLine "\t" := by decide
  have hcolon : OneLine ":" := by decide
  have hcomma : OneLine "," := by decide
  exact htab.append
    ((((hquote.append hcolon).append (hblanks _)).append (oneLine_decimal r.value)).append hcomma)

theorem mapRows_eq {o : Options} (h : o.mapName ≠ "") (records : List Record) :
    mapRows o (records.map (entryText (keyWidth records))) =
      "" :: ("var " ++ o.mapName ++ " = map[string]" ++ o.type ++ "\x7b") ::
        (entryRows records ++ ["\x7d"]) := by
  rw [mapRows, variableRows, if_neg h, List.map_map]
  rfl

theorem forall₂_entryRows (hshort : ∀ r ∈ records, Short r.value) :
    List.Forall₂ (fun row r => ∃ e, MapEntry.read row = some e ∧ e.key = r.display ∧
      e.value = r.value ∧ 1 ≤ e.blanks ∧ e.column = keyWidth records + 3)
      (entryRows records) records := by
  rw [entryRows, List.forall₂_map_left_iff, List.forall₂_same]
  intro r hr
  have hwidth := length_quote_le_keyWidth hr
  have hread := read_entryText (hshort r hr) hwidth
  have hblanks : 1 ≤ (entryOf (keyWidth records) r).blanks := by
    show 1 ≤ 1 + keyWidth records - (StringLiteral.quote r.display).length
    omega
  exact ⟨entryOf (keyWidth records) r, hread, rfl, rfl, hblanks, rfl⟩

theorem entryPairs_entryRows (hshort : ∀ r ∈ records, Short r.value) :
    entryPairs (entryRows records) = records.map fun r => (r.display, r.value) := by
  have hread : ∀ r ∈ records,
      (MapEntry.read ∘ fun r => "\t" ++ entryText (keyWidth records) r) r =
        some (entryOf (keyWidth records) r) := by
    intro r hr
    rw [Function.comp_apply, read_entryText (hshort r hr) (length_quote_le_keyWidth hr)]
  rw [entryPairs, entryRows, List.filterMap_map,
    List.filterMap_eq_map_iff_forall_eq_some.2 hread, List.map_map]
  rfl

end Artifact

/-! ## Looking a text up -/

/-- The text that a method returns for a value by one of its cases, when the constants have the
given values. -/
def StringMethod.shown? (m : StringMethod) (values : String → Int) (v : Int) : Option String :=
  (m.clauses.find? fun c => values c.label == v).bind fun c => StringLiteral.denoted? c.result

namespace Artifact

variable {r : Record} {records : List Record}

theorem lookup_display (hdisplay : (records.map (·.display)).Nodup) (hr : r ∈ records) :
    (records.map fun r => (r.display, r.value)).lookup r.display = some r.value := by
  induction records with
  | nil => cases hr
  | cons s records ih =>
      obtain ⟨hfresh, hdisplay⟩ := List.nodup_cons.1 hdisplay
      rw [List.map_cons, List.lookup_cons]
      rcases List.mem_cons.1 hr with rfl | hr
      · rw [beq_self_eq_true]
      · have hne : r.display ≠ s.display := fun heq =>
          hfresh (List.mem_map.2 ⟨r, hr, heq⟩)
        rw [beq_eq_false_iff_ne.2 hne]
        exact ih hdisplay hr

/-- The method shows a value by the first constant that has it. -/
theorem shown?_method (type receiver : String) {values : String → Int}
    (hvalues : ∀ r ∈ records, values r.name = r.value) (v : Int) :
    (method type receiver records).shown? values v =
      (records.find? (·.value == v)).map (·.display) := by
  have hlabel : ∀ r ∈ cases records, (values r.name == v) = (r.value == v) := fun r hr => by
    rw [hvalues r ((firstPerValue_sublist [] records).subset hr)]
  have hfind : (cases records).find? (fun r => values r.name == v) =
      records.find? (·.value == v) := by
    rw [← List.head?_filter, List.filter_congr hlabel, filter_cases, Option.head?_toList]
  rw [StringMethod.shown?, method, List.find?_map]
  simp only [Function.comp_def, hfind]
  cases records.find? (·.value == v) with
  | none => rfl
  | some r =>
      rw [Option.map_some, Option.map_some, Option.bind_some, StringLiteral.denoted?_quote]

end Artifact

/-- When the values can be written, the map has one entry for each constant, on a line of its own
and in order. An entry is read as the display text and the value of its constant, with a blank or
more after the colon and all values in one column. When no two constants are displayed alike, the
map takes what the method returns for a value back to the value. -/
theorem name_map_inverts_string (o : Options) (table : Table) (hmap : o.mapName ≠ "")
    (hshort : ∀ r ∈ table.records, Short r.value) :
    ∃ (entries lines rows : List String) (column : Nat),
      rows = "" :: ("var " ++ o.mapName ++ " = map[string]" ++ o.type ++ "\x7b") ::
        (entries ++ ["\x7d"]) ∧
      table.records.mapM (Artifact.mapLine (Artifact.keyWidth table.records)) = .ok lines ∧
      (Artifact.mapSection o lines .done).rows "\t" 0 = rows ∧
      (∀ package receiver, Artifact.receiver table = .ok receiver →
        ∃ guardLines, table.records.mapM Artifact.guardLine = .ok guardLines ∧
          (generate o package table).result =
            .ok (stacked (Artifact.openingRows package guardLines ++
              ((Artifact.method o.type receiver table.records).rows ++
                (rows ++ Artifact.sliceRows o
                  ((Artifact.ordered table.records).map (·.name))))))) ∧
      (∀ row ∈ entries, OneLine row) ∧
      List.Forall₂ (fun row r => ∃ e, MapEntry.read row = some e ∧ e.key = r.display ∧
        e.value = r.value ∧ 1 ≤ e.blanks ∧ e.column = column) entries table.records ∧
      ((table.records.map (·.display)).Nodup → ∀ (receiver : String) (values : String → Int),
        (∀ r ∈ table.records, values r.name = r.value) →
        ∀ v ∈ table.records.map (·.value), ∃ text,
          (Artifact.method o.type receiver table.records).shown? values v = some text ∧
          (entryPairs entries).lookup text = some v) := by
  have hlines := Artifact.mapLines_of_short (Artifact.keyWidth table.records) hshort
  refine ⟨Artifact.entryRows table.records, _, _, Artifact.keyWidth table.records + 3, rfl, hlines,
    ?_, ?_, ?_, Artifact.forall₂_entryRows hshort, ?_⟩
  · rw [Artifact.rows_mapSection hlines, Artifact.mapRows_eq hmap, Layout.rows, List.append_nil]
  · intro package receiver hreceiver
    refine ⟨_, Artifact.guardLines_of_short hshort, ?_⟩
    rw [result_generate, Artifact.code_of_short hreceiver hshort, Artifact.fileRows,
      Artifact.mapRows_eq hmap]
  · intro row hrow
    obtain ⟨r, _, rfl⟩ := List.mem_map.1 hrow
    exact Artifact.oneLine_entryText _ r
  · intro hdisplay receiver values hvalues v hv
    rw [Artifact.shown?_method o.type receiver hvalues, Artifact.entryPairs_entryRows hshort]
    -- The constant that is shown for `v` need not be the one that `v` was taken from.
    obtain ⟨r, hfind⟩ : ∃ r, table.records.find? (·.value == v) = some r := by
      obtain ⟨s, hs, rfl⟩ := List.mem_map.1 hv
      exact Option.isSome_iff_exists.1 (List.find?_isSome.2 ⟨s, hs, beq_self_eq_true _⟩)
    have hvalue : r.value = v := by simpa using List.find?_some hfind
    refine ⟨r.display, by rw [hfind, Option.map_some], ?_⟩
    rw [Artifact.lookup_display hdisplay (List.mem_of_find?_eq_some hfind), hvalue]

def quotedTable : Table :=
  { names := ["A", "B", "C"]
    values := [("C", 10), ("B", 10), ("A", -3)]
    displays := [("C", "second ten"), ("B", "ten"), ("A", "\"a")] }

theorem quoted_map_inverts_string :
    (quotedTable.records.map (·.display)).Nodup ∧
    ∃ (entries : List String) (column : Nat),
      List.Forall₂ (fun row r => ∃ e, MapEntry.read row = some e ∧ e.key = r.display ∧
        e.value = r.value ∧ 1 ≤ e.blanks ∧ e.column = column) entries quotedTable.records ∧
      ∀ values : String → Int, values "A" = -3 → values "B" = 10 → values "C" = 10 →
        ∃ text, (Artifact.method "T" "i" quotedTable.records).shown? values 10 = some text ∧
          (entryPairs entries).lookup text = some 10 := by
  have hdisplay : (quotedTable.records.map (·.display)).Nodup := by decide
  obtain ⟨entries, _, _, column, _, _, _, _, _, hread, hinverts⟩ :=
    name_map_inverts_string { type := "T", mapName := "M" } quotedTable (by decide)
      (Artifact.short_of_all (by decide +kernel))
  refine ⟨hdisplay, entries, column, hread, fun values ha hb hc => ?_⟩
  refine hinverts hdisplay "i" values ?_ 10 (by decide)
  have hrecords : quotedTable.records.map (fun r => (r.name, r.value)) =
      [("A", -3), ("B", 10), ("C", 10)] := by
    decide
  intro r hr
  have hmem := List.mem_map_of_mem (f := fun r => (r.name, r.value)) hr
  simp only [hrecords, List.mem_cons, List.not_mem_nil, or_false, Prod.mk.injEq] at hmem
  rcases hmem with ⟨hname, hvalue⟩ | ⟨hname, hvalue⟩ | ⟨hname, hvalue⟩ <;>
    rw [hname, hvalue] <;> assumption

end EnumNames
