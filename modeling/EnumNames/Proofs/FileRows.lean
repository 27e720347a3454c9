import EnumNames.Proofs.CodeLines
import EnumNames.Proofs.Regeneration

/-!
The rows of the generated file: those before the `String` method, those of the
method, and those of the variables after it. The method is a structure of its own
here, with the rows that it is written in.
-/

namespace EnumNames

open EnumNames.Grammar EnumNames.Text

structure Clause where
  label : String
  result : String
  deriving DecidableEq, Repr

structure StringMethod where
  receiver : String
  type : String
  subject : String
  clauses : List Clause
  fallback : String
  deriving DecidableEq, Repr

def Clause.rows (c : Clause) : List String :=
  ["\tcase " ++ c.label ++ ":", "\t\treturn " ++ c.result]

def StringMethod.rows (m : StringMethod) : List String :=
  ["func (" ++ (m.receiver ++ " " ++ m.type) ++ ") String() string \x7b",
   "\tswitch " ++ m.subject ++ " \x7b"] ++
    (m.clauses.flatMap Clause.rows ++
      ["\tdefault:", "\t\treturn " ++ m.fallback, "\t\x7d", "\x7d"])

namespace Artifact

def openingRows (package : String) (guardLines : List String) : List String :=
  [header, "", "package " ++ package, "", "import \"strconv\"", "", "func _() \x7b"] ++
    ((Emitter.commentLines guardComment ++ "var x [1]struct\x7b\x7d" :: guardLines).map
      (Layout.row "\t" 1) ++ ["\x7d", ""])

def method (type receiver : String) (records : List Record) : StringMethod :=
  { receiver, type, subject := receiver
    clauses := (cases records).map fun r => ⟨r.name, StringLiteral.quote r.display⟩
    fallback := defaultResult type receiver }

/-- The rows of a variable, unless it has no name. -/
def variableRows (name container type : String) (lines : List String) : List String :=
  if name = "" then []
  else
    ["", "var " ++ name ++ container ++ type ++ "\x7b"] ++ (lines.map ("\t" ++ ·) ++ ["\x7d"])

def mapRows (o : Options) (lines : List String) : List String :=
  variableRows o.mapName " = map[string]" o.type lines

def sliceRows (o : Options) (names : List String) : List String :=
  variableRows o.sliceName " = []" o.type (names.map (· ++ ","))

def fileRows (o : Options) (package receiver : String) (records : List Record)
    (guardLines mapLines : List String) : List String :=
  openingRows package guardLines ++ ((method o.type receiver records).rows ++
    (mapRows o mapLines ++ sliceRows o ((ordered records).map (·.name))))

/-! ## The rows of each section -/

theorem rows_guardSection (guardLines : List String) :
    (guardSection guardLines).rows "\t" 1 =
      (Emitter.commentLines guardComment ++ "var x [1]struct\x7b\x7d" :: guardLines).map
        (Layout.row "\t" 1) := by
  rw [List.map_append, List.map_cons, guardSection, Layout.rows, Layout.rows, Layout.rows_lines,
    Layout.rows, List.append_nil]

theorem rows_caseClause (label result : String) (next : Layout) :
    (caseClause label result next).rows "\t" 1 =
      Layout.row "\t" 1 label :: ("\t\treturn " ++ result) :: next.rows "\t" 1 := by
  show Layout.row "\t" 1 label :: Layout.row "\t" 2 ("return " ++ result) :: next.rows "\t" 1 = _
  rw [Layout.row_append result "\t" 2 (by decide)]
  rfl

theorem rows_cases (records : List Record) (next : Layout) :
    (records.foldr (fun r => caseClause s!"case {r.name}:" (StringLiteral.quote r.display))
        next).rows "\t" 1 =
      (records.map fun r => Clause.mk r.name (StringLiteral.quote r.display)).flatMap Clause.rows ++
        next.rows "\t" 1 := by
  have hcase : ∀ name : String, Layout.row "\t" 1 s!"case {name}:" = "\tcase " ++ name ++ ":" := by
    intro name
    show Layout.row "\t" 1 ("case " ++ name ++ ":") = _
    rw [String.append_assoc, Layout.row_append _ "\t" 1 (by decide), String.append_assoc]
    rfl
  induction records with
  | nil => rfl
  | cons r records ih =>
      rw [List.foldr_cons, rows_caseClause, hcase, ih, List.map_cons, List.flatMap_cons,
        List.append_assoc]
      rfl

theorem rows_stringSection (type receiver : String) (records : List Record) :
    (stringSection type receiver records).rows "\t" 1 ++ ["\x7d"] =
      (method type receiver records).rows.tail := by
  have hswitch : Layout.row "\t" 1 s!"switch {receiver} \x7b" =
      "\tswitch " ++ receiver ++ " \x7b" := by
    show Layout.row "\t" 1 ("switch " ++ receiver ++ " \x7b") = _
    rw [String.append_assoc, Layout.row_append _ "\t" 1 (by decide), String.append_assoc]
    rfl
  rw [stringSection, Layout.rows, hswitch, rows_cases, rows_caseClause, List.cons_append,
    List.append_assoc]
  rfl

theorem rows_variable (name container type : String) {lines : List String}
    (h : ∀ line ∈ lines, Layout.row "\t" 1 line = "\t" ++ line) (next : Layout) :
    (if name.isEmpty then next
      else .blank 1 (.block ("var " ++ name ++ container ++ type ++ "\x7b")
        (.lines lines .done) "\x7d" next)).rows "\t" 0 =
      variableRows name container type lines ++ next.rows "\t" 0 := by
  by_cases hname : name = ""
  · subst hname
    rfl
  · have hfalse : name.isEmpty = false := by simpa using hname
    have hheader : Layout.row "\t" 0 ("var " ++ name ++ container ++ type ++ "\x7b") =
        "var " ++ name ++ container ++ type ++ "\x7b" := by
      refine Layout.row_zero "\t" (isBlankLine_of_mem (c := '\x7b') ?_ (by decide))
      rw [String.toList_append]
      exact List.mem_append_right _ (by decide)
    have hfooter : Layout.row "\t" 0 "\x7d" = "\x7d" := Layout.row_zero "\t" (by decide)
    rw [hfalse, if_neg Bool.false_ne_true, Layout.rows, Layout.rows, Layout.rows_lines,
      List.map_congr_left h, hheader, hfooter, variableRows, if_neg hname]
    simp only [Layout.rows, List.replicate_one, List.append_nil, List.append_assoc,
      List.cons_append, List.nil_append]

theorem row_mapLine {width : Nat} {r : Record} {line : String} (h : mapLine width r = .ok line) :
    Layout.row "\t" 1 line = "\t" ++ line := by
  obtain ⟨value, _, heq⟩ := ok_of_bind h
  obtain rfl := Except.ok.inj heq
  have hquote : '"' ∈ (StringLiteral.quote r.display).toList := by
    rw [StringLiteral.quote, String.toList_ofList]
    exact List.mem_cons_self ..
  simp only [String.append_assoc]
  rw [Layout.row_append _ "\t" 1 (isBlankLine_of_mem hquote (by decide)), String.append_assoc]
  rfl

theorem row_sliceLine (name : String) :
    Layout.row "\t" 1 (name ++ ",") = "\t" ++ (name ++ ",") := by
  have hcomma : ',' ∈ (name ++ ",").toList := by
    rw [String.toList_append]
    exact List.mem_append_right _ (by decide)
  rw [Layout.row, isBlankLine_of_mem hcomma (by decide)]
  rfl

theorem rows_sliceSection (o : Options) (records : List Record) :
    (sliceSection o records .done).rows "\t" 0 = sliceRows o ((ordered records).map (·.name)) := by
  have hlines : ∀ line ∈ (ordered records).map (·.name ++ ","),
      Layout.row "\t" 1 line = "\t" ++ line := by
    intro line hline
    obtain ⟨r, _, rfl⟩ := List.mem_map.1 hline
    exact row_sliceLine r.name
  have hrows := rows_variable o.sliceName " = []" o.type hlines .done
  rw [Layout.rows, List.append_nil] at hrows
  rw [sliceRows, List.map_map]
  exact hrows

theorem rows_mapSection {o : Options} {records : List Record} {mapLines : List String}
    {width : Nat} (h : records.mapM (mapLine width) = .ok mapLines) (next : Layout) :
    (mapSection o mapLines next).rows "\t" 0 = mapRows o mapLines ++ next.rows "\t" 0 := by
  have hlines : ∀ line ∈ mapLines, Layout.row "\t" 1 line = "\t" ++ line := by
    intro line hline
    obtain ⟨r, _, hread⟩ := exists_of_mapM_ok h hline
    exact row_mapLine hread
  exact rows_variable o.mapName " = map[string]" o.type hlines next

/-! ## The rows of the file -/

theorem rows_layout {o : Options} (package receiver : String) {records : List Record}
    (guardLines : List String) {mapLines : List String} {width : Nat}
    (hmap : records.mapM (mapLine width) = .ok mapLines) :
    (layout o package receiver records guardLines mapLines).rows "\t" 0 =
      fileRows o package receiver records guardLines mapLines := by
  have hpackage : Layout.row "\t" 0 s!"package {package}" = "package " ++ package := by
    show Layout.row "\t" 0 ("package " ++ package) = _
    rw [Layout.row_append package "\t" 0 (by decide)]
    rfl
  have hmethod : Layout.row "\t" 0 s!"func ({receiver} {o.type}) String() string \x7b" =
      "func (" ++ (receiver ++ " " ++ o.type) ++ ") String() string \x7b" := by
    show Layout.row "\t" 0 ("func (" ++ receiver ++ " " ++ o.type ++ ") String() string \x7b") = _
    simp only [String.append_assoc]
    rw [Layout.row_append _ "\t" 0 (by decide), String.append_assoc]
    rfl
  have hheader : Layout.row "\t" 0 header = header := Layout.row_zero "\t" (by decide)
  have himport : Layout.row "\t" 0 "import \"strconv\"" = "import \"strconv\"" :=
    Layout.row_zero "\t" (by decide)
  have hguard : Layout.row "\t" 0 "func _() \x7b" = "func _() \x7b" :=
    Layout.row_zero "\t" (by decide)
  have hend : Layout.row "\t" 0 "\x7d" = "\x7d" := Layout.row_zero "\t" (by decide)
  have hbody : (method o.type receiver records).rows =
      ("func (" ++ (receiver ++ " " ++ o.type) ++ ") String() string \x7b") ::
        ((stringSection o.type receiver records).rows "\t" 1 ++ ["\x7d"]) := by
    rw [rows_stringSection]
    rfl
  -- Unfolding the literals to compare the lists is slow in the kernel, hence the option.
  rw [fileRows, hbody, openingRows, ← rows_guardSection]
  simp -implicitDefEqProofs only [layout, Layout.rows, Nat.zero_add, hheader, hpackage, himport,
    hguard, hend, hmethod, rows_mapSection hmap, rows_sliceSection, List.replicate_one,
    List.append_assoc, List.cons_append, List.nil_append]

/-- Generated code is the rows of the file one under the other. -/
theorem rows_of_code {o : Options} {package code : String} {table : Table}
    (h : Artifact.code o package table = .ok code) :
    ∃ name guardLines mapLines, receiver table = .ok name ∧
      table.records.mapM guardLine = .ok guardLines ∧
      table.records.mapM (mapLine (keyWidth table.records)) = .ok mapLines ∧
      code = stacked (fileRows o package name table.records guardLines mapLines) := by
  obtain ⟨name, hreceiver, h⟩ := ok_of_bind h
  obtain ⟨guardLines, hguard, h⟩ := ok_of_bind h
  obtain ⟨mapLines, hmap, h⟩ := ok_of_bind h
  cases h
  have hlines := ok_of_mapError hmap
  refine ⟨name, guardLines, mapLines, ok_of_mapError hreceiver, ok_of_mapError hguard, hlines, ?_⟩
  rw [Layout.write_eq, ← rows_layout package name guardLines hlines, ← Layout.print_eq]
  exact String.empty_append

end Artifact
end EnumNames
