import EnumNames.Enumeration.Underlying
import EnumNames.Proofs.GeneratedFile
import EnumNames.Proofs.ParsedNames
import EnumNames.Proofs.TableRecords

/-!
Regeneration. The code for the constants of some files is read as a file of the
same package that declares neither types nor constants. Among the files of a
later run it changes nothing: the check of the type, the table and the code are
the same with it as without it.
-/

namespace EnumNames

open EnumNames.Grammar EnumNames.Text

/-! ## What a table writes -/

namespace Artifact

/-- The receiver is an identifier that is no constant. -/
theorem receiver_spec {table : Table} {name : String} (h : receiver table = .ok name) :
    isIdentifier name.toList = true ∧ table.contains name = false := by
  unfold receiver at h
  split at h
  · next found hfound =>
      cases h
      have hmem := List.mem_of_find?_eq_some hfound
      have hfree := List.find?_some hfound
      refine ⟨?_, by simpa using hfree⟩
      simp only [receiverCandidates, List.mem_cons, List.not_mem_nil, or_false] at hmem
      rcases hmem with rfl | rfl <;> decide +kernel
  · cases h

theorem balanced_receiver {table : Table} {name : String} (h : receiver table = .ok name) :
    Balanced name.toList :=
  balanced_name (receiver_spec h).1

theorem writable_of_table {o : Options} {table : Table} {name : String} {width : Nat}
    {guardLines mapLines : List String} (ht : isIdentifier o.type.toList = true)
    (hm : o.mapName = "" ∨ isIdentifier o.mapName.toList = true)
    (hs : o.sliceName = "" ∨ isIdentifier o.sliceName.toList = true)
    (hn : ∀ name ∈ table.names, isIdentifier name.toList = true)
    (hreceiver : receiver table = .ok name) (hguard : table.records.mapM guardLine = .ok guardLines)
    (hmap : table.records.mapM (mapLine width) = .ok mapLines) :
    Writable o name table.records guardLines mapLines := by
  have hnames : ∀ r ∈ table.records, isIdentifier r.name.toList = true :=
    fun r hr => hn r.name (Table.name_mem_of_mem_records hr)
  refine ⟨ht, hm, hs, balanced_receiver hreceiver, hnames, fun line hline => ?_,
    fun line hline => ?_⟩
  · obtain ⟨r, hr, hread⟩ := exists_of_mapM_ok hguard hline
    exact balanced_guardLine (hnames r hr) hread
  · obtain ⟨r, _, hread⟩ := exists_of_mapM_ok hmap hline
    exact balanced_mapLine hread

/-! ## The text of the file -/

def opening : List Filler :=
  [.line (header.toList.drop 2) (by decide), .newline]

theorem toList_layout {o : Options} (package : String) {receiver : String} {records : List Record}
    {guardLines mapLines : List String} (h : Writable o receiver records guardLines mapLines) :
    ∃ sections : List Section,
      ((layout o package receiver records guardLines mapLines).print "\t" 0).toList =
        Filler.text opening ++ (("package".toList ++ ([' '] ++ package.toList)) ++
          (sections.flatMap Section.spaced ++ ['\n'])) ∧
      sections.map (·.keyword) = (sectionKeywords o).map String.toList := by
  obtain ⟨sections, hshows, hkeywords⟩ := shows_sections h
  refine ⟨sections, ?_, hkeywords⟩
  have hheader := toList_lineAt header (by decide)
  have hclause : ("package " ++ package).toList =
      "package".toList ++ ([' '] ++ package.toList) := by
    rw [String.toList_append]
    rfl
  have hpackage := toList_lineAt ("package " ++ package)
    (isBlankLine_of_mem (c := 'p') (by simp [hclause]) (by decide))
  have hopening : Filler.text opening = header.toList ++ ['\n'] ++ ['\n'] := rfl
  -- The line end after the package clause is the one that `Shows` counts with the sections.
  rw [Shows] at hshows
  unfold layout
  rw [Layout.print, String.toList_append, hheader, toList_blank, Layout.print,
    String.toList_append, hopening, ← hshows]
  show _ ++ '\n' :: ((Emitter.lineAt "\t" 0 ("package " ++ package)).toList ++ _) = _
  rw [hpackage, hclause]
  simp only [List.append_assoc, List.cons_append, List.nil_append]

/-- The generated code is read as a file of the package that has the sections as its
declarations. -/
theorem parse_code {o : Options} {package code : String} {table : Table}
    (ht : isIdentifier o.type.toList = true) (hp : isIdentifier package.toList = true)
    (hn : ∀ name ∈ table.names, isIdentifier name.toList = true)
    (hm : o.mapName = "" ∨ isIdentifier o.mapName.toList = true)
    (hs : o.sliceName = "" ∨ isIdentifier o.sliceName.toList = true)
    (h : Artifact.code o package table = .ok code) (path : String) :
    ∃ parsed, SourceFile.parse path code = .ok parsed ∧ parsed.package = package ∧
      parsed.decls.map Decl.keyword? = (sectionKeywords o).map some := by
  obtain ⟨receiver, hreceiver, h⟩ := ok_of_bind h
  obtain ⟨guardLines, hguard, h⟩ := ok_of_bind h
  obtain ⟨mapLines, hmap, h⟩ := ok_of_bind h
  cases h
  have hwritable := writable_of_table ht hm hs hn (ok_of_mapError hreceiver)
    (ok_of_mapError hguard) (ok_of_mapError hmap)
  obtain ⟨sections, htext, hkeywords⟩ := toList_layout package hwritable
  obtain ⟨parsed, hparsed, hpackage, hdecls⟩ := parse_sections path opening hp sections
  rw [← htext, String.ofList_toList] at hparsed
  refine ⟨parsed, ?_, by rw [hpackage, String.ofList_toList], ?_⟩
  · rw [Layout.write_eq]
    simpa using hparsed
  · have hchars : sections.map (fun s => some (String.ofList s.keyword)) =
        (sections.map (·.keyword)).map fun keyword => some (String.ofList keyword) := by
      rw [List.map_map]
      rfl
    rw [hdecls, hchars, hkeywords, List.map_map]
    simp [Function.comp_def]

end Artifact

/-! ## Files that declare nothing -/

namespace SourceFile

/-- A file whose declarations are all passed over. -/
def Inert (file : SourceFile) : Prop := ∀ d ∈ file.decls, d.keyword? ≠ none

variable {file : SourceFile} {before after : List SourceFile}

theorem inert_of_keywords {keywords : List String}
    (h : file.decls.map Decl.keyword? = keywords.map some) : file.Inert := by
  intro d hd
  have hmem : d.keyword? ∈ keywords.map some := h ▸ List.mem_map_of_mem hd
  obtain ⟨keyword, -, hkeyword⟩ := List.mem_map.1 hmem
  simp [← hkeyword]

theorem Inert.typeSpecs_eq_nil (h : file.Inert) : file.typeSpecs = [] := by
  refine List.flatMap_eq_nil_iff.2 fun d hd => ?_
  cases d with
  | types specs => exact absurd rfl (h _ hd)
  | consts | other => rfl

theorem Inert.constBlocks_eq_nil (h : file.Inert) : file.constBlocks = [] := by
  refine List.filterMap_eq_nil_iff.2 fun d hd => ?_
  cases d with
  | consts specs => exact absurd rfl (h _ hd)
  | types | other => rfl

theorem Inert.checkType_insert (h : file.Inert) (type : String) :
    checkType type (before ++ file :: after) = checkType type (before ++ after) := by
  simp [checkType, h.typeSpecs_eq_nil]

theorem Inert.resolve_insert (h : file.Inert) (o : Options) :
    resolve o (before ++ file :: after) = resolve o (before ++ after) := by
  simp [resolve, h.constBlocks_eq_nil]

end SourceFile

theorem result_generate (o : Options) (package : String) (table : Table) :
    (generate o package table).result = Artifact.code o package table := by
  rw [generate, Logged.result_bind, Logged.result_ofResult]
  cases Artifact.code o package table <;> rfl

theorem code_of_generate {o : Options} {package code : String} {table : Table}
    (h : (generate o package table).result = .ok code) :
    Artifact.code o package table = .ok code :=
  (result_generate o package table).symm.trans h

/-- Code that was generated from files can be read, and it declares no type and no constant: put
anywhere among the files, it leaves the next run as the run before it. -/
theorem generated_file_inert (o : Options) (files : List SourceFile) (package code path : String)
    (table : Table) (hfiles : ∀ file ∈ files, ∃ path text, SourceFile.parse path text = .ok file)
    (hpackage : package ∈ files.map (·.package))
    (hmap : o.mapName = "" ∨ isIdentifier o.mapName.toList = true)
    (hslice : o.sliceName = "" ∨ isIdentifier o.sliceName.toList = true)
    (hresolve : (resolve o files).result = .ok table)
    (hgenerate : (generate o package table).result = .ok code) :
    ∃ parsed, SourceFile.parse path code = .ok parsed ∧ parsed.package = package ∧
      parsed.decls.map Decl.keyword? = (Artifact.sectionKeywords o).map some ∧
      ∀ before after, files = before ++ after →
        checkType o.type (before ++ parsed :: after) = checkType o.type files ∧
        resolve o (before ++ parsed :: after) = resolve o files ∧
        (resolve o (before ++ parsed :: after) >>= generate o package).result = .ok code := by
  have hnamed : ∀ file ∈ files, file.Named := fun file hfile => by
    obtain ⟨path, text, hparse⟩ := hfiles file hfile
    exact SourceFile.named_of_parse hparse
  obtain ⟨hnames, htype⟩ := named_of_resolve hnamed hresolve
  obtain ⟨file, hfile, rfl⟩ := List.mem_map.1 hpackage
  obtain ⟨parsed, hparsed, hsame, hkeywords⟩ := Artifact.parse_code htype
    (hnamed file hfile).package hnames hmap hslice (code_of_generate hgenerate) path
  have hinert := SourceFile.inert_of_keywords hkeywords
  refine ⟨parsed, hparsed, hsame, hkeywords, fun before after hsplit => ?_⟩
  have hinsert : resolve o (before ++ parsed :: after) = resolve o files := by
    rw [hsplit, hinert.resolve_insert]
  refine ⟨by rw [hsplit, hinert.checkType_insert], hinsert, ?_⟩
  rw [hinsert, Logged.result_bind, hresolve]
  exact hgenerate

/-! ## A file with brackets and quotes in its display texts -/

def shadeText : String := "\n".intercalate
  ["package paint", "", "type Shade int8", "", "const (",
   "\tDark Shade = iota - 1 // \"ink\" \x7b",
   "\tPlain",
   ")", ""]

def shadeOptions : Options :=
  { type := "Shade", lineComment := true, mapName := "shades", sliceName := "allShades" }

theorem shade_file_inert :
    ∃ file table code parsed, SourceFile.parse "shade.go" shadeText = .ok file ∧
      (resolve shadeOptions [file]).result = .ok table ∧
      (generate shadeOptions file.package table).result = .ok code ∧
      SourceFile.parse "shade_string.go" code = .ok parsed ∧ parsed.package = file.package ∧
      parsed.decls.map Decl.keyword? = ["import", "func", "func", "var", "var"].map some ∧
      checkType "Shade" [file, parsed] = checkType "Shade" [file] ∧
      resolve shadeOptions [file, parsed] = resolve shadeOptions [file] ∧
      (resolve shadeOptions [file, parsed] >>= generate shadeOptions file.package).result =
        .ok code := by
  -- Only that there is code is decided; its text stays unevaluated, since sorting does not reduce.
  have hok : (Logged.ofResult (SourceFile.parse "shade.go" shadeText) >>= fun file =>
      resolve shadeOptions [file] >>= generate shadeOptions file.package).result.isOk = true := by
    decide +kernel
  obtain ⟨code, hrun⟩ := exists_of_isOk hok
  obtain ⟨file, hfile, hrun⟩ := Logged.ok_of_result_bind hrun
  obtain ⟨table, htable, hcode⟩ := Logged.ok_of_result_bind hrun
  have hparse : SourceFile.parse "shade.go" shadeText = .ok file := hfile
  obtain ⟨parsed, hparsed, hpackage, hkeywords, hinsert⟩ :=
    generated_file_inert shadeOptions [file] file.package code "shade_string.go" table
      (fun f hf => ⟨_, _, List.mem_singleton.1 hf ▸ hparse⟩) (by simp) (.inr (by decide +kernel))
      (.inr (by decide +kernel)) htable hcode
  exact ⟨file, table, code, parsed, hparse, htable, hcode, hparsed, hpackage, hkeywords,
    hinsert [file] [] rfl⟩

end EnumNames
