import EnumNames.Proofs.GuardSection

/-!
Names that the functions of a generated file bind. Both functions refer to
constants: the guard in its indices, the `String` method in its case labels. A
constant is captured where the function binds its name. The scopes are read back
from the code. The receiver of the method is chosen so that it captures nothing;
the array of the guard has a fixed name, and captures the constant of that name.
-/

namespace EnumNames

open EnumNames.Grammar EnumNames.Text
open Numeral (Short)

/-! ## Scopes -/

inductive Referent where
  | localName
  | constant
  deriving DecidableEq, Repr

/-- A function by its names: those that it binds, and those by which it refers to constants. -/
structure Scope where
  bound : List String
  mentioned : List String
  deriving DecidableEq, Repr

namespace Scope

/-- A name is looked up in the function before it is looked up in the package. -/
def referent (s : Scope) (name : String) : Referent :=
  if s.bound.contains name then .localName else .constant

theorem referent_eq_constant_iff (s : Scope) (name : String) :
    s.referent name = .constant ↔ name ∉ s.bound := by
  by_cases h : name ∈ s.bound
  · simp [referent, h]
  · simp [referent, h]

end Scope

/-! ## Reading the guard -/

inductive GuardRow where
  | remark
  | array (name : String)
  | index (i : GuardIndex)
  deriving DecidableEq, Repr

namespace GuardRow

/-- Reads a row as one of the three kinds, and any other row as none. -/
def read (row : String) : Option GuardRow :=
  if "\t// ".toList.isPrefixOf row.toList then some .remark
  else ((between? "\tvar " " [1]struct\x7b\x7d" row).map array).or ((GuardIndex.read row).map index)

def bound? : GuardRow → Option String
  | .array name => some name
  | _ => none

def mentioned? : GuardRow → Option String
  | .index i => some i.name
  | _ => none

/-- A row that indexes the array is neither a remark nor a declaration. -/
theorem read_of_index {index : String} {i : GuardIndex}
    (h : GuardIndex.read ("\t_ = x[" ++ index) = some i) :
    read ("\t_ = x[" ++ index) = some (.index i) := by
  have hchars : ("\t_ = x[" ++ index).toList =
      '\t' :: '_' :: ' ' :: '=' :: ' ' :: 'x' :: '[' :: index.toList := by
    rw [String.toList_append]
    rfl
  have hremark : "\t// ".toList.isPrefixOf ("\t_ = x[" ++ index).toList = false := by
    rw [hchars]
    rfl
  have harray : between? "\tvar " " [1]struct\x7b\x7d" ("\t_ = x[" ++ index) = none := by
    rw [between?, hchars]
    rfl
  rw [read, hremark, harray, h]
  rfl

end GuardRow

namespace Scope

def guardRows (code : String) : List String :=
  (((linesOf code).dropWhile (· != "func _() \x7b")).drop 1).takeWhile (· != "\x7d")

def ofGuard (rows : List GuardRow) : Scope :=
  { bound := rows.filterMap (·.bound?), mentioned := rows.filterMap (·.mentioned?) }

def guard? (code : String) : Option Scope := ((guardRows code).mapM GuardRow.read).map ofGuard

def method? (code : String) : Option Scope :=
  (StringMethod.read code).map fun m =>
    { bound := [m.receiver], mentioned := m.clauses.map (·.label) }

end Scope

namespace Artifact

variable {o : Options} {package name : String} {table : Table} {records : List Record}

/-- The array is the only name that the rows before those of the constants bind. -/
theorem mapM_read_guardHead :
    guardHead.mapM GuardRow.read = some [.remark, .remark, .array "x"] := by
  have hhead : guardHead =
      ["\t// An \"invalid array index\" compiler error signifies that the constant values have changed.",
       "\t// Re-run the stringer command to generate them again.", "\tvar x [1]struct\x7b\x7d"] := by
    decide +kernel
  rw [hhead]
  decide +kernel

theorem read_guardRow {r : Record} (hn : isIdentifier r.name.toList = true)
    (hshort : Short r.value) :
    GuardRow.read (Layout.row "\t" 1 (guardText r)) = some (.index ⟨r.name, r.value⟩) := by
  have hindex := read_guardText hn hshort
  have hrow : Layout.row "\t" 1 (guardText r) = "\t_ = x[" ++
      (r.name ++ (if r.value < 0 then " - " else "-") ++ Numeral.decimal r.value ++ "]") := by
    have hopen : "\t_ = x[" = "\t" ++ "_ = x[" := rfl
    rw [row_guardText, guardText, hopen]
    simp only [String.append_assoc]
  rw [hrow] at hindex ⊢
  exact GuardRow.read_of_index hindex

theorem mapM_read_guardRows (hn : ∀ r ∈ records, isIdentifier r.name.toList = true)
    (hshort : ∀ r ∈ records, Short r.value) :
    (records.map fun r => Layout.row "\t" 1 (guardText r)).mapM GuardRow.read =
      some (records.map fun r => .index ⟨r.name, r.value⟩) := by
  induction records with
  | nil => rfl
  | cons r records ih =>
      have hrest := ih (fun r hr => hn r (by simp [hr])) (fun r hr => hshort r (by simp [hr]))
      rw [List.map_cons, List.mapM_cons, read_guardRow (hn r (by simp)) (hshort r (by simp)), hrest]
      rfl

theorem ofGuard_indices (table : Table) :
    Scope.ofGuard ([.remark, .remark, .array "x"] ++
      table.records.map fun r => .index ⟨r.name, r.value⟩) =
      { bound := ["x"], mentioned := table.names } := by
  have hbound : (table.records.map fun r => GuardRow.index ⟨r.name, r.value⟩).filterMap
      (·.bound?) = [] := by
    rw [List.filterMap_eq_nil_iff, List.forall_mem_map]
    intro r _
    rfl
  have hmentioned : (table.records.map fun r => GuardRow.index ⟨r.name, r.value⟩).filterMap
      (·.mentioned?) = table.names := by
    rw [List.filterMap_map, ← Table.map_name_records]
    exact List.filterMap_eq_map_iff_forall_eq_some.2 fun r _ => rfl
  rw [Scope.ofGuard, List.filterMap_append, List.filterMap_append, hbound, hmentioned]
  rfl

/-- Rows of the guard are indented, so none of them is its end. -/
theorem takeWhile_guardRows (lines after : List String) :
    ((guardSection lines).rows "\t" 1 ++ "\x7d" :: after).takeWhile (· != "\x7d") =
      (guardSection lines).rows "\t" 1 := by
  have hinside : ∀ row ∈ (guardSection lines).rows "\t" 1, (row != "\x7d") = true := by
    intro row hrow
    rw [rows_guardSection] at hrow
    obtain ⟨line, _, rfl⟩ := List.mem_map.1 hrow
    refine bne_iff_ne.2 fun heq => ?_
    have hhead : '\x7d' ∈ (Layout.row "\t" 1 line).toList.head? := by
      rw [heq]
      decide
    exact absurd (Layout.head?_row hhead) (by decide)
  rw [List.takeWhile_append_of_pos hinside, List.takeWhile_cons_of_neg (by simp), List.append_nil]

/-- The rows of the guard, found in the code by its heading. -/
theorem guardRows_stacked {lines : List String} (after : List String)
    (hp : isIdentifier package.toList = true) (hlines : ∀ line ∈ lines, OneLine line) :
    Scope.guardRows (stacked (openingRows package lines ++ after)) =
      (guardSection lines).rows "\t" 1 := by
  have hpackage : ("package " ++ package != "func _() \x7b") = true := by
    refine bne_iff_ne.2 fun heq => ?_
    have hhead := congrArg (fun s : String => s.toList.head?) heq
    rw [String.toList_append] at hhead
    exact absurd (Option.some.inj hhead) (by decide)
  have hbefore : ∀ row ∈ [header, "", "package " ++ package, "", "import \"strconv\"", ""],
      (row != "func _() \x7b") = true := by
    intro row hrow
    simp only [List.mem_cons, List.not_mem_nil, or_false] at hrow
    rcases hrow with rfl | rfl | rfl | rfl | rfl | rfl
    · decide
    · decide
    · exact hpackage
    · decide
    · decide
    · decide
  have hrows : openingRows package lines =
      [header, "", "package " ++ package, "", "import \"strconv\"", ""] ++
        ("func _() \x7b" :: ((guardSection lines).rows "\t" 1 ++ ["\x7d", ""])) := by
    rw [openingRows_eq]
    simp -implicitDefEqProofs only [List.cons_append, List.nil_append]
  rw [Scope.guardRows, linesOf_stacked, List.flatMap_append,
    flatMap_linesOf (oneLine_opening hp hlines), hrows, List.append_assoc, List.append_assoc,
    List.dropWhile_append_of_pos hbefore, List.cons_append, List.dropWhile_cons_of_neg (by simp),
    List.drop_one, List.tail_cons, List.append_assoc, List.cons_append, takeWhile_guardRows]

/-- The guard binds the array and nothing else, and mentions every constant. -/
theorem guard?_code {guardLines mapLines : List String} (hp : isIdentifier package.toList = true)
    (hn : ∀ r ∈ table.records, isIdentifier r.name.toList = true)
    (hguard : table.records.mapM guardLine = .ok guardLines) :
    Scope.guard? (stacked (fileRows o package name table.records guardLines mapLines)) =
      some { bound := ["x"], mentioned := table.names } := by
  have hshort := exists_guardLines_iff.1 ⟨guardLines, hguard⟩
  have hlines : ∀ line ∈ guardLines, OneLine line := by
    intro line hline
    obtain ⟨r, hr, hread⟩ := exists_of_mapM_ok hguard hline
    exact oneLine_guardLine (hn r hr) hread
  rw [Scope.guard?, fileRows, guardRows_stacked _ hp hlines]
  obtain rfl := Except.ok.inj ((guardLines_of_short hshort).symm.trans hguard)
  rw [rows_guardSection_map, List.mapM_append, mapM_read_guardHead, mapM_read_guardRows hn hshort]
  exact congrArg some (ofGuard_indices table)

end Artifact

/-! ## Scopes of generated code -/

section

variable {o : Options} {files : List SourceFile} {package code : String} {table : Table}

/-- The guard binds the array, whatever the constants are called, and mentions all of them. -/
theorem guard?_of_generate (hfiles : ∀ file ∈ files, file.Named)
    (hpackage : isIdentifier package.toList = true)
    (hresolve : (resolve o files).result = .ok table)
    (hgenerate : (generate o package table).result = .ok code) :
    Scope.guard? code = some { bound := ["x"], mentioned := table.names } := by
  obtain ⟨hnames, _⟩ := named_of_resolve hfiles hresolve
  obtain ⟨name, guardLines, mapLines, _, hguard, _, hcode⟩ :=
    Artifact.rows_of_code (code_of_generate hgenerate)
  rw [hcode]
  exact Artifact.guard?_code hpackage
    (fun r hr => hnames r.name (Table.name_mem_of_mem_records hr)) hguard

/-- The method binds the receiver, which is no constant, and mentions the constants that have a
case. -/
theorem method?_of_generate (hfiles : ∀ file ∈ files, file.Named)
    (hpackage : isIdentifier package.toList = true)
    (hresolve : (resolve o files).result = .ok table)
    (hgenerate : (generate o package table).result = .ok code) :
    ∃ receiver, receiver ∉ table.names ∧ Scope.method? code =
      some { bound := [receiver], mentioned := (Artifact.cases table.records).map (·.name) } := by
  obtain ⟨hnames, htype⟩ := named_of_resolve hfiles hresolve
  have hcoherent := Table.coherent_of_resolve hresolve
  obtain ⟨name, guardLines, mapLines, hreceiver, hguard, _, hcode⟩ :=
    Artifact.rows_of_code (code_of_generate hgenerate)
  refine ⟨name, fun hmem => ?_, ?_⟩
  · have hfree := (Artifact.receiver_spec hreceiver).2
    rw [Table.contains, (hcoherent.values name).1 hmem] at hfree
    cases hfree
  · rw [Scope.method?, Artifact.read_code htype hpackage hnames hreceiver hguard hcode,
      Option.map_some, Artifact.method, List.map_map]
    rfl

end

/-- Each function of a generated file binds one name. The receiver of the `String` method captures no
constant, so every case label refers to its constant. The array of the guard captures the constant
of its own name and no other, so every index refers to its constant exactly when no constant is
called `x`. -/
theorem array_captures_its_namesake (o : Options) (files : List SourceFile) (package code : String)
    (table : Table) (hfiles : ∀ file ∈ files, file.Named)
    (hpackage : isIdentifier package.toList = true)
    (hresolve : (resolve o files).result = .ok table)
    (hgenerate : (generate o package table).result = .ok code) :
    ∃ (guard method : Scope) (receiver : String),
      Scope.guard? code = some guard ∧ Scope.method? code = some method ∧
      method.bound = [receiver] ∧ receiver ∉ table.names ∧
      method.mentioned = (Artifact.cases table.records).map (·.name) ∧
      (∀ name ∈ method.mentioned, method.referent name = .constant) ∧
      guard.bound = ["x"] ∧ guard.mentioned = table.names ∧
      (∀ name ∈ guard.mentioned, guard.referent name = .constant ↔ name ≠ "x") ∧
      ((∀ name ∈ guard.mentioned, guard.referent name = .constant) ↔ "x" ∉ table.names) := by
  have hguard := guard?_of_generate hfiles hpackage hresolve hgenerate
  obtain ⟨receiver, hfree, hmethod⟩ := method?_of_generate hfiles hpackage hresolve hgenerate
  have hindex : ∀ name, Scope.referent { bound := ["x"], mentioned := table.names } name = .constant ↔
      name ≠ "x" := by
    intro name
    rw [Scope.referent_eq_constant_iff, List.mem_singleton]
  refine ⟨_, _, receiver, hguard, hmethod, rfl, hfree, rfl, ?_, rfl, rfl, fun name _ => hindex name,
    ?_⟩
  · intro name hname
    obtain ⟨r, hr, rfl⟩ := List.mem_map.1 hname
    have hmem := Table.name_mem_of_mem_records (Artifact.mem_of_mem_firstPerValue hr)
    rw [Scope.referent_eq_constant_iff, List.mem_singleton]
    rintro rfl
    exact hfree hmem
  · constructor
    · intro hall hmem
      exact (hindex "x").1 (hall "x" hmem) rfl
    · rintro habsent name hname
      refine (hindex name).2 ?_
      rintro rfl
      exact habsent hname

def namesakeText : String := "\n".intercalate
  ["package p", "const (", "\ti T = iota", "\tx", ")", ""]

def namesakeTable : Table :=
  { names := ["i", "x"]
    values := [("x", 1), ("i", 0)]
    displays := [("x", "x"), ("i", "i")] }

theorem generate_namesakes :
    ∃ file code, SourceFile.parse "p.go" namesakeText = .ok file ∧ file.Named ∧
      (resolve { type := "T" } [file]).result = .ok namesakeTable ∧
      (generate { type := "T" } "p" namesakeTable).result = .ok code := by
  have hrun : (Logged.ofResult (SourceFile.parse "p.go" namesakeText) >>= fun file =>
      resolve { type := "T" } [file]).result = .ok namesakeTable := by
    decide +kernel
  have hok : (generate { type := "T" } "p" namesakeTable).result.isOk = true := by decide +kernel
  obtain ⟨file, hfile, hresolve⟩ := Logged.ok_of_result_bind hrun
  have hparse : SourceFile.parse "p.go" namesakeText = .ok file := hfile
  obtain ⟨code, hcode⟩ := exists_of_isOk hok
  exact ⟨file, code, hparse, SourceFile.named_of_parse hparse, hresolve, hcode⟩

theorem namesake_label_and_index :
    ∃ file code guard method receiver,
      SourceFile.parse "p.go" namesakeText = .ok file ∧
      (resolve { type := "T" } [file]).result = .ok namesakeTable ∧
      (generate { type := "T" } "p" namesakeTable).result = .ok code ∧
      Scope.guard? code = some guard ∧ Scope.method? code = some method ∧
      method.bound = [receiver] ∧ receiver ∉ namesakeTable.names ∧
      method.referent "i" = .constant ∧ method.referent "x" = .constant ∧
      guard.referent "i" = .constant ∧ guard.referent "x" ≠ .constant := by
  obtain ⟨file, code, hparse, hnamed, hresolve, hgenerate⟩ := generate_namesakes
  obtain ⟨guard, method, receiver, hguard, hmethod, hbound, hfree, hlabels, hcases, _, hnames,
      hindices, _⟩ :=
    array_captures_its_namesake { type := "T" } [file] "p" code namesakeTable
      (fun f hf => List.mem_singleton.1 hf ▸ hnamed) (by decide +kernel) hresolve hgenerate
  have hmentioned : "i" ∈ method.mentioned ∧ "x" ∈ method.mentioned := by
    rw [hlabels]
    decide
  have hlisted : "i" ∈ guard.mentioned ∧ "x" ∈ guard.mentioned := by
    rw [hnames]
    decide
  exact ⟨file, code, guard, method, receiver, hparse, hresolve, hgenerate, hguard, hmethod, hbound,
    hfree, hcases _ hmentioned.1, hcases _ hmentioned.2, (hindices _ hlisted.1).2 (by decide),
    fun hx => (hindices _ hlisted.2).1 hx rfl⟩

/-- An index of the guard that is meant for the constant `x` refers to the array. -/
theorem index_captured_by_array :
    ∃ file code guard,
      SourceFile.parse "p.go" namesakeText = .ok file ∧
      (resolve { type := "T" } [file]).result = .ok namesakeTable ∧
      (generate { type := "T" } "p" namesakeTable).result = .ok code ∧
      Scope.guard? code = some guard ∧ "x" ∈ guard.mentioned ∧ guard.referent "x" = .localName := by
  obtain ⟨file, code, hparse, hnamed, hresolve, hgenerate⟩ := generate_namesakes
  have hguard := guard?_of_generate (fun f hf => List.mem_singleton.1 hf ▸ hnamed)
    (by decide +kernel : isIdentifier "p".toList = true) hresolve hgenerate
  exact ⟨file, code, _, hparse, hresolve, hgenerate, hguard, by decide, by decide⟩

end EnumNames
