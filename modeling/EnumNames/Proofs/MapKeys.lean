import EnumNames.Proofs.FileRows
import EnumNames.Proofs.QuotedText
import EnumNames.Proofs.TableRecords
import Mathlib.Data.List.Nodup

/-!
The keys of the name map. The map has one entry for each constant, with its
display text for a key, so two entries have one key exactly when two constants
are displayed alike. Without comments that takes two names of which one is the
other after the prefix to trim.
-/

namespace EnumNames

/-! ## Reading an entry -/

def entryKey? (row : String) : Option String :=
  match row.toList with
  | '\t' :: cs =>
      match StringLiteral.readFirst cs with
      | some (text, ':' :: _) => some (String.ofList text)
      | _ => none
  | _ => none

namespace Artifact

theorem entryKey?_mapLine {width : Nat} {r : Record} {line : String}
    (h : mapLine width r = .ok line) : entryKey? ("\t" ++ line) = some r.display := by
  obtain ⟨value, _, heq⟩ := ok_of_bind h
  obtain rfl := Except.ok.inj heq
  have hrow : ∀ rest : String, ("\t" ++ (StringLiteral.quote r.display ++ (":" ++ rest))).toList =
      '\t' :: (StringLiteral.quoteChars r.display.toList ++ ':' :: rest.toList) := by
    intro rest
    have htab : "\t".toList = ['\t'] := rfl
    have hcolon : ":".toList = [':'] := rfl
    simp only [String.toList_append, htab, hcolon, StringLiteral.quote, String.toList_ofList,
      List.cons_append, List.nil_append]
  simp only [String.append_assoc, entryKey?, hrow, StringLiteral.readFirst_quoteChars,
    String.ofList_toList]

theorem map_entryKey? {width : Nat} {records : List Record} {lines : List String}
    (h : records.mapM (mapLine width) = .ok lines) :
    (lines.map ("\t" ++ ·)).map entryKey? = records.map fun r => some r.display := by
  rw [List.map_map]
  induction records generalizing lines with
  | nil =>
      cases h
      rfl
  | cons r records ih =>
      rw [List.mapM_cons] at h
      obtain ⟨line, hline, h⟩ := ok_of_bind h
      obtain ⟨rest, hrest, h⟩ := ok_of_bind h
      cases h
      rw [List.map_cons, List.map_cons, ih hrest, Function.comp_apply, entryKey?_mapLine hline]

end Artifact

/-! ## Names without a prefix -/

namespace Resolve

theorem withoutPrefix_append (start cs : List Char) : withoutPrefix start (start ++ cs) = cs := by
  rw [withoutPrefix, if_pos (List.isPrefixOf_iff_prefix.2 (List.prefix_append start cs)),
    List.drop_left]

theorem withoutPrefix_of_lacking {start cs : List Char} (h : ¬ start <+: cs) :
    withoutPrefix start cs = cs := by
  rw [withoutPrefix, if_neg (fun hp => h (List.isPrefixOf_iff_prefix.1 hp))]

/-- Two texts that are the same without a prefix are the same, or one of them lacks the prefix and
is what the other has after it. -/
theorem withoutPrefix_eq {start a b : List Char} (h : withoutPrefix start a = withoutPrefix start b) :
    a = b ∨ (a = start ++ b ∧ ¬ start <+: b) ∨ (b = start ++ a ∧ ¬ start <+: a) := by
  by_cases ha : start <+: a
  · obtain ⟨a', rfl⟩ := ha
    rw [withoutPrefix_append] at h
    by_cases hb : start <+: b
    · obtain ⟨b', rfl⟩ := hb
      rw [withoutPrefix_append] at h
      exact .inl (by rw [h])
    · rw [withoutPrefix_of_lacking hb] at h
      exact .inr (.inl ⟨by rw [h], hb⟩)
  · rw [withoutPrefix_of_lacking ha] at h
    by_cases hb : start <+: b
    · obtain ⟨b', rfl⟩ := hb
      rw [withoutPrefix_append] at h
      exact .inr (.inr ⟨by rw [h], ha⟩)
    · rw [withoutPrefix_of_lacking hb] at h
      exact .inl h

theorem displayText_of_name {o : Options} (ho : o.lineComment = false) (name : String)
    (comment : Option String) :
    displayText o name comment =
      String.ofList (withoutPrefix o.trimPrefix.toList name.toList) := by
  unfold displayText
  rw [ho]

/-- Without comments a constant is displayed by its name after the prefix to trim. -/
theorem display?_of_resolve {o : Options} {files : List SourceFile} {table : Table}
    (ho : o.lineComment = false) (h : (resolve o files).result = .ok table) {name : String}
    (hn : name ∈ table.names) :
    table.display? name =
      some (String.ofList (withoutPrefix o.trimPrefix.toList name.toList)) := by
  have hall : ∀ name display, table.display? name = some display →
      display = String.ofList (withoutPrefix o.trimPrefix.toList name.toList) := by
    refine resolve_induction (P := fun t => ∀ name display, t.display? name = some display →
      display = String.ofList (withoutPrefix o.trimPrefix.toList name.toList)) ?_ ?_ h
    · intro name display hd
      cases hd
    · intro t recorded value comment _ ht name display hd
      rw [Table.display?_record] at hd
      split at hd
      · next heq =>
          obtain rfl := Option.some.inj hd
          rw [displayText_of_name ho, heq]
      · exact ht name display hd
  have hsome := (Table.coherent_of_resolve h).displays name
  obtain ⟨display, hd⟩ := Option.isSome_iff_exists.1 (hsome.1 hn)
  rw [hd, hall name display hd]

/-- No two names are displayed alike, unless one lacks the prefix and the other has it before. -/
theorem displays_distinct_iff {o : Options} {files : List SourceFile} {table : Table}
    (ho : o.lineComment = false) (h : (resolve o files).result = .ok table) :
    (∀ a ∈ table.names, ∀ b ∈ table.names, table.display? a = table.display? b → a = b) ↔
      ∀ name ∈ table.names, o.trimPrefix ++ name ∈ table.names →
        o.trimPrefix.toList <+: name.toList := by
  constructor
  · intro hdistinct name hname hlong
    -- The longer name is displayed as the shorter one, so they are one name and the prefix is empty.
    by_contra hstart
    have hsame : table.display? (o.trimPrefix ++ name) = table.display? name := by
      rw [display?_of_resolve ho h hlong, display?_of_resolve ho h hname, String.toList_append,
        withoutPrefix_append, withoutPrefix_of_lacking hstart]
    have heq := congrArg String.toList (hdistinct _ hlong _ hname hsame)
    rw [String.toList_append] at heq
    exact hstart ⟨_, heq⟩
  · intro hstart a ha b hb hsame
    rw [display?_of_resolve ho h ha, display?_of_resolve ho h hb] at hsame
    have htext := String.ofList_injective (Option.some.inj hsame)
    rcases withoutPrefix_eq htext with heq | ⟨heq, hnot⟩ | ⟨heq, hnot⟩
    · exact String.toList_injective heq
    · have hlong : a = o.trimPrefix ++ b := String.toList_injective (by rw [heq, String.toList_append])
      exact absurd (hstart b hb (hlong ▸ ha)) hnot
    · have hlong : b = o.trimPrefix ++ a := String.toList_injective (by rw [heq, String.toList_append])
      exact absurd (hstart a ha (hlong ▸ hb)) hnot

end Resolve

/-! ## The map of a generated file -/

/-- The name map stands between the method and the slice, with an entry for each constant. -/
theorem map_of_generate {o : Options} {files : List SourceFile} {package code : String}
    {table : Table} (hmap : o.mapName ≠ "") (hresolve : (resolve o files).result = .ok table)
    (hgenerate : (generate o package table).result = .ok code) :
    ∃ (receiver : String) (guardLines entries : List String),
      code = stacked (Artifact.openingRows package guardLines ++
        ((Artifact.method o.type receiver table.records).rows ++
          ("" :: ("var " ++ o.mapName ++ " = map[string]" ++ o.type ++ "\x7b") ::
            (entries ++ "\x7d" ::
              Artifact.sliceRows o ((Artifact.ordered table.records).map (·.name)))))) ∧
      entries.map entryKey? = table.names.map table.display? := by
  have hcoherent := Table.coherent_of_resolve hresolve
  obtain ⟨name, guardLines, mapLines, _, _, hlines, hcode⟩ :=
    Artifact.rows_of_code (code_of_generate hgenerate)
  refine ⟨name, guardLines, mapLines.map ("\t" ++ ·), ?_, ?_⟩
  · rw [hcode, Artifact.fileRows, Artifact.mapRows, Artifact.variableRows, if_neg hmap]
    simp only [List.append_assoc, List.cons_append, List.nil_append]
  · have hdisplays : table.records.map (fun r => some r.display) =
        table.records.map fun r => table.display? r.name :=
      List.map_congr_left fun r hr => (hcoherent.of_mem_records hr).2.symm
    rw [Artifact.map_entryKey? hlines, hdisplays, ← Table.map_name_records table, List.map_map]
    rfl

/-- The entries of the name map have the display texts of the constants for keys, in order. They
are distinct exactly when no two constants are displayed alike, which without comments means that
no name lacks the prefix to trim while the same name after the prefix is a constant too. -/
theorem name_map_keys (o : Options) (files : List SourceFile) (package code : String)
    (table : Table) (hmap : o.mapName ≠ "") (hresolve : (resolve o files).result = .ok table)
    (hgenerate : (generate o package table).result = .ok code) :
    ∃ (receiver : String) (guardLines entries : List String),
      code = stacked (Artifact.openingRows package guardLines ++
        ((Artifact.method o.type receiver table.records).rows ++
          ("" :: ("var " ++ o.mapName ++ " = map[string]" ++ o.type ++ "\x7b") ::
            (entries ++ "\x7d" ::
              Artifact.sliceRows o ((Artifact.ordered table.records).map (·.name)))))) ∧
      entries.map entryKey? = table.names.map table.display? ∧
      ((entries.map entryKey?).Nodup ↔
        ∀ a ∈ table.names, ∀ b ∈ table.names, table.display? a = table.display? b → a = b) ∧
      (o.lineComment = false →
        ((entries.map entryKey?).Nodup ↔
          ∀ name ∈ table.names, o.trimPrefix ++ name ∈ table.names →
            o.trimPrefix.toList <+: name.toList)) := by
  obtain ⟨receiver, guardLines, entries, hcode, hkeys⟩ := map_of_generate hmap hresolve hgenerate
  have hdistinct : (entries.map entryKey?).Nodup ↔
      ∀ a ∈ table.names, ∀ b ∈ table.names, table.display? a = table.display? b → a = b := by
    rw [hkeys]
    exact List.nodup_map_iff_inj_on (Table.coherent_of_resolve hresolve).nodup
  exact ⟨receiver, guardLines, entries, hcode, hkeys, hdistinct,
    fun ho => hdistinct.trans (Resolve.displays_distinct_iff ho hresolve)⟩

def trimmedText : String := "\n".intercalate
  ["package p", "const (", "\tKindA T = iota", "\tB", ")", ""]

def trimmedOptions : Options := { type := "T", trimPrefix := "Kind", mapName := "M" }

def trimmedTable : Table :=
  { names := ["KindA", "B"]
    values := [("B", 1), ("KindA", 0)]
    displays := [("B", "B"), ("KindA", "A")] }

theorem trimmed_map_keys :
    ∃ (file : SourceFile) (code receiver : String) (guardLines entries : List String),
      SourceFile.parse "p.go" trimmedText = .ok file ∧
      (resolve trimmedOptions [file]).result = .ok trimmedTable ∧
      (generate trimmedOptions "p" trimmedTable).result = .ok code ∧
      code = stacked (Artifact.openingRows "p" guardLines ++
        ((Artifact.method trimmedOptions.type receiver trimmedTable.records).rows ++
          ("" :: ("var " ++ trimmedOptions.mapName ++ " = map[string]" ++ trimmedOptions.type ++
              "\x7b") ::
            (entries ++ "\x7d" :: Artifact.sliceRows trimmedOptions
              ((Artifact.ordered trimmedTable.records).map (·.name)))))) ∧
      entries.map entryKey? = [some "A", some "B"] ∧ (entries.map entryKey?).Nodup := by
  have hrun : (Logged.ofResult (SourceFile.parse "p.go" trimmedText) >>= fun file =>
      resolve trimmedOptions [file]).result = .ok trimmedTable := by
    decide +kernel
  have hok : (generate trimmedOptions "p" trimmedTable).result.isOk = true := by decide +kernel
  obtain ⟨file, hfile, hresolve⟩ := Logged.ok_of_result_bind hrun
  obtain ⟨code, hcode⟩ := exists_of_isOk hok
  obtain ⟨receiver, guardLines, entries, hrows, hkeys, _, hdistinct⟩ :=
    name_map_keys trimmedOptions [file] "p" code trimmedTable (by decide) hresolve hcode
  refine ⟨file, code, receiver, guardLines, entries, hfile, hresolve, hcode, hrows, hkeys,
    (hdistinct rfl).2 ?_⟩
  intro name hname hlong
  simp only [trimmedTable, List.mem_cons, List.not_mem_nil, or_false] at hname
  rcases hname with rfl | rfl
  · exact ⟨['A'], rfl⟩
  · exact absurd hlong (by decide)

def alikeText : String := "\n".intercalate
  ["package p", "const (", "\tA T = iota // same", "\tB // same", ")", ""]

def alikeOptions : Options := { type := "T", lineComment := true, mapName := "M" }

def alikeTable : Table :=
  { names := ["A", "B"]
    values := [("B", 1), ("A", 0)]
    displays := [("B", "same"), ("A", "same")] }

/-- Two constants with one comment are two entries with one key. -/
theorem alike_map_repeats_key :
    ∃ (file : SourceFile) (code receiver : String) (guardLines entries : List String),
      SourceFile.parse "p.go" alikeText = .ok file ∧
      (resolve alikeOptions [file]).result = .ok alikeTable ∧
      (generate alikeOptions "p" alikeTable).result = .ok code ∧
      code = stacked (Artifact.openingRows "p" guardLines ++
        ((Artifact.method alikeOptions.type receiver alikeTable.records).rows ++
          ("" :: ("var " ++ alikeOptions.mapName ++ " = map[string]" ++ alikeOptions.type ++
              "\x7b") ::
            (entries ++ "\x7d" :: Artifact.sliceRows alikeOptions
              ((Artifact.ordered alikeTable.records).map (·.name)))))) ∧
      entries.map entryKey? = [some "same", some "same"] := by
  have hrun : (Logged.ofResult (SourceFile.parse "p.go" alikeText) >>= fun file =>
      resolve alikeOptions [file]).result = .ok alikeTable := by
    decide +kernel
  have hok : (generate alikeOptions "p" alikeTable).result.isOk = true := by decide +kernel
  obtain ⟨file, hfile, hresolve⟩ := Logged.ok_of_result_bind hrun
  obtain ⟨code, hcode⟩ := exists_of_isOk hok
  obtain ⟨receiver, guardLines, entries, hrows, hkeys⟩ :=
    map_of_generate (by decide) hresolve hcode
  exact ⟨file, code, receiver, guardLines, entries, hfile, hresolve, hcode, hrows, hkeys⟩

end EnumNames
