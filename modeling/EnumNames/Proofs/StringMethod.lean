import EnumNames.Proofs.FileRows
import EnumNames.Proofs.QuotedText
import EnumNames.Proofs.TableRecords
import Mathlib.Data.List.Nodup

/-!
The meaning of the `String` method. The method is read back from the lines of the
generated file: its receiver, the subject of the switch, the labels and results
of the cases and the result of the default branch. A case stands for the value
that the table gives to its label. Every value of a constant has one case, which
returns the display text of the first constant of that value, and any other value
is shown as a number after the name of the type.
-/

namespace EnumNames

open EnumNames.Grammar EnumNames.Text

/-! ## Reading a method -/

def between? (before after text : String) : Option String :=
  ((text.toList.dropPrefix? before.toList).bind (·.dropSuffix? after.toList)).map String.ofList

theorem between?_append (before text after : String) :
    between? before after (before ++ text ++ after) = some text := by
  have hbefore : (before ++ text ++ after).toList.dropPrefix? before.toList =
      some (text.toList ++ after.toList) := by
    rw [String.toList_append, String.toList_append, List.append_assoc]
    exact List.dropPrefix?_append_of_beq _ (beq_self_eq_true _)
  have hafter : (text.toList ++ after.toList).dropSuffix? after.toList = some text.toList :=
    List.dropSuffix?_eq_some_iff.2 ⟨_, rfl, beq_self_eq_true _⟩
  rw [between?, hbefore, Option.bind_some, hafter, Option.map_some, String.ofList_toList]

namespace StringMethod

/-- The cases of a switch, the result of its default branch, and the lines that follow. -/
def readClauses : List String → Option (List Clause × String × List String)
  | label :: line :: rest => do
      let result ← between? "\t\treturn " "" line
      if label = "\tdefault:" then some ([], result, rest)
      else
        let label ← between? "\tcase " ":" label
        let (clauses, fallback, rest) ← readClauses rest
        some (⟨label, result⟩ :: clauses, fallback, rest)
  | _ => none

def isSignature (line : String) : Bool := "func (".toList.isPrefixOf line.toList

/-- Reads the first method of a file. -/
def read (code : String) : Option StringMethod := do
  let signature :: switch :: rest := (linesOf code).dropWhile (!isSignature ·) | none
  let parameter ← between? "func (" ") String() string \x7b" signature
  let [receiver, type] := splitAt ' ' parameter.toList | none
  let subject ← between? "\tswitch " " \x7b" switch
  let (clauses, fallback, rest) ← readClauses rest
  if rest.take 2 = ["\t\x7d", "\x7d"] then
    some { receiver := .ofList receiver, type := .ofList type, subject, clauses, fallback }
  else none

theorem between?_return (result : String) :
    between? "\t\treturn " "" ("\t\treturn " ++ result) = some result := by
  have h := between?_append "\t\treturn " result ""
  rwa [String.append_empty] at h

theorem readClauses_rows (clauses : List Clause) (fallback : String) (rest : List String) :
    readClauses (clauses.flatMap Clause.rows ++
      "\tdefault:" :: ("\t\treturn " ++ fallback) :: rest) = some (clauses, fallback, rest) := by
  induction clauses with
  | nil =>
      rw [List.flatMap_nil, List.nil_append, readClauses, between?_return]
      rfl
  | cons c clauses ih =>
      have hlabel : "\tcase " ++ c.label ++ ":" ≠ "\tdefault:" := by
        intro heq
        have hchars := congrArg (fun s : String => s.toList[1]?) heq
        rw [String.append_assoc, String.toList_append, List.getElem?_append_left (by decide)]
          at hchars
        exact absurd hchars (by decide)
      rw [List.flatMap_cons, List.append_assoc, Clause.rows, List.cons_append, List.cons_append,
        List.nil_append, readClauses, between?_return, Option.bind_eq_bind, Option.bind_some,
        if_neg hlabel, between?_append, Option.bind_some, ih]
      rfl

/-- The rows of the method are lines, and blanks do not stand in its names. -/
structure Legible (m : StringMethod) : Prop where
  oneLine : ∀ row ∈ m.rows, OneLine row
  receiver : ' ' ∉ m.receiver.toList
  type : ' ' ∉ m.type.toList

/-- A method is read back from among rows, when it is the first method there. -/
theorem read_rows {m : StringMethod} {opening : List String} (rest : List String)
    (hm : m.Legible) (hline : ∀ row ∈ opening, OneLine row)
    (hopening : ∀ row ∈ opening, isSignature row = false) :
    read (stacked (opening ++ (m.rows ++ rest))) = some m := by
  have hlines : linesOf (stacked (opening ++ (m.rows ++ rest))) =
      opening ++ (m.rows ++ (rest.flatMap linesOf ++ [""])) := by
    rw [linesOf_stacked, List.flatMap_append, List.flatMap_append, flatMap_linesOf hline,
      flatMap_linesOf hm.oneLine, List.append_assoc, List.append_assoc]
  have hsignature : isSignature
      ("func (" ++ (m.receiver ++ " " ++ m.type) ++ ") String() string \x7b") = true := by
    rw [isSignature, String.append_assoc, String.toList_append, List.isPrefixOf_iff_prefix]
    exact List.prefix_append _ _
  have hparameter : splitAt ' ' (m.receiver ++ " " ++ m.type).toList =
      [m.receiver.toList, m.type.toList] := by
    have hblank : " ".toList = [' '] := rfl
    rw [String.toList_append, String.toList_append, hblank, List.append_assoc,
      List.singleton_append, splitAt_append_sep, splitAt_of_not_mem hm.receiver,
      splitAt_of_not_mem hm.type]
    rfl
  have hclauses := readClauses_rows m.clauses m.fallback
    ("\t\x7d" :: "\x7d" :: (rest.flatMap linesOf ++ [""]))
  rw [read, hlines, List.dropWhile_append_of_pos (fun row hrow => by simp [hopening row hrow]),
    rows, List.append_assoc, List.append_assoc, List.cons_append, List.cons_append,
    List.nil_append, List.dropWhile_cons_of_neg (by simp [hsignature])]
  simp only [between?_append, hparameter, hclauses, List.cons_append, List.nil_append,
    Option.bind_eq_bind, Option.bind_some, String.ofList_toList, List.take_succ_cons, List.take_zero,
    if_true]

end StringMethod

/-! ## Numbers in texts -/

/-- A result that puts the numeral of an operand between two texts. -/
structure Numbered where
  before : String
  operand : String
  after : String
  deriving DecidableEq, Repr

namespace Numbered

/-- Reads the sum of a literal, the decimal numeral of an operand and a literal. -/
def read (result : String) : Option Numbered := do
  let (before, rest) ← StringLiteral.readFirst result.toList
  let rest ← rest.dropPrefix? " + strconv.FormatInt(int64(".toList
  let operand := rest.takeWhile (· != ')')
  let rest ← (rest.dropWhile (· != ')')).dropPrefix? "), 10) + ".toList
  let (after, rest) ← StringLiteral.readFirst rest
  if rest.isEmpty then
    some { before := .ofList before, operand := .ofList operand, after := .ofList after }
  else none

end Numbered

/-! ## The method of a generated file -/

theorem oneLine_of_isIdentifier {s : String} (h : isIdentifier s.toList = true) : OneLine s := by
  intro hmem
  have hword := List.all_eq_true.1 (all_isWord_of_isIdentifier h) '\n' hmem
  exact absurd hword (by decide)

theorem blank_not_mem {s : String} (h : isIdentifier s.toList = true) : ' ' ∉ s.toList := by
  intro hmem
  have hword := List.all_eq_true.1 (all_isWord_of_isIdentifier h) ' ' hmem
  exact absurd hword (by decide)

theorem oneLine_decimal (n : Int) : OneLine (Numeral.decimal n) := by
  have hdigits : OneLine (String.ofList (Nat.toDigits 10 n.natAbs)) := by
    rw [OneLine, String.toList_ofList]
    intro hmem
    have hdigit := Nat.isDigit_of_mem_toDigits (by decide) (by decide) hmem
    exact absurd hdigit (by decide)
  unfold Numeral.decimal
  dsimp only
  split
  · have hminus : OneLine "-" := by decide
    exact hminus.append hdigits
  · exact hdigits

namespace Artifact

variable {o : Options} {table : Table}

theorem oneLine_guardLine {r : Record} {line : String} (hn : isIdentifier r.name.toList = true)
    (h : guardLine r = .ok line) : OneLine line := by
  obtain ⟨value, hvalue, heq⟩ := ok_of_bind h
  cases heq
  have hdecimal : OneLine value := by
    unfold Numeral.write at hvalue
    split at hvalue
    · cases hvalue
    · cases hvalue
      exact oneLine_decimal r.value
  have hopen : OneLine "_ = x[" := by decide
  have hclose : OneLine "]" := by decide
  have hminus : OneLine (if r.value < 0 then " - " else "-") := by split <;> decide
  have hline := (((hopen.append (oneLine_of_isIdentifier hn)).append hminus).append
    hdecimal).append hclose
  simpa only [String.append_assoc, toString] using hline

theorem forall_openingRows {Q : String → Prop} {package : String} {guardLines : List String}
    (hfixed : ∀ row ∈ [header, "", "import \"strconv\"", "func _() \x7b", "\x7d"], Q row)
    (hpackage : Q ("package " ++ package))
    (hbody : ∀ line ∈ Emitter.commentLines guardComment ++ "var x [1]struct\x7b\x7d" :: guardLines,
      Q (Layout.row "\t" 1 line)) :
    ∀ row ∈ openingRows package guardLines, Q row := by
  intro row hrow
  rcases List.mem_append.1 hrow with hrow | hrow
  · simp only [List.mem_cons, List.not_mem_nil, or_false] at hrow
    rcases hrow with rfl | rfl | rfl | rfl | rfl | rfl | rfl
    · exact hfixed _ (by simp)
    · exact hfixed _ (by simp)
    · exact hpackage
    · exact hfixed _ (by simp)
    · exact hfixed _ (by simp)
    · exact hfixed _ (by simp)
    · exact hfixed _ (by simp)
  · rcases List.mem_append.1 hrow with hrow | hrow
    · obtain ⟨line, hline, rfl⟩ := List.mem_map.1 hrow
      exact hbody line hline
    · simp only [List.mem_cons, List.not_mem_nil, or_false] at hrow
      rcases hrow with rfl | rfl
      · exact hfixed _ (by simp)
      · exact hfixed _ (by simp)

theorem oneLine_opening {package : String} {guardLines : List String}
    (hp : isIdentifier package.toList = true) (hg : ∀ line ∈ guardLines, OneLine line) :
    ∀ row ∈ openingRows package guardLines, OneLine row := by
  have hpackage : OneLine ("package " ++ package) :=
    OneLine.append (by decide) (oneLine_of_isIdentifier hp)
  have hcomment : ∀ line ∈ Emitter.commentLines guardComment, OneLine line := by
    intro line hline
    obtain ⟨part, hpart, rfl⟩ := List.mem_map.1 hline
    refine OneLine.append (by decide) ?_
    rw [OneLine, String.toList_ofList]
    exact not_mem_of_mem_splitAt hpart
  refine forall_openingRows (by decide) hpackage fun line hline => Layout.oneLine_row ?_ 1
  rcases List.mem_append.1 hline with hline | hline
  · exact hcomment line hline
  · rcases List.mem_cons.1 hline with rfl | hline
    · decide
    · exact hg line hline

theorem isSignature_of_head? {line : String} (h : ∀ c ∈ line.toList.head?, c ≠ 'f') :
    StringMethod.isSignature line = false := by
  rw [StringMethod.isSignature]
  cases hline : line.toList with
  | nil => rfl
  | cons c cs =>
      have hne : ('f' == c) = false := beq_eq_false_iff_ne.2 fun heq => h c (by simp [hline]) heq.symm
      show ('f' == c && _) = false
      rw [hne, Bool.false_and]

theorem isSignature_opening {package : String} {guardLines : List String} :
    ∀ row ∈ openingRows package guardLines, StringMethod.isSignature row = false := by
  refine forall_openingRows (by decide) ?_ fun line _ => ?_
  · refine isSignature_of_head? fun c hc => ?_
    rw [String.toList_append] at hc
    rw [← Option.some.inj hc]
    decide
  · refine isSignature_of_head? fun c hc => ?_
    rw [Layout.head?_row hc]
    decide

theorem oneLine_default {type receiver : String} (ht : isIdentifier type.toList = true)
    (hr : isIdentifier receiver.toList = true) : OneLine (defaultResult type receiver) := by
  have hopen : OneLine "\"" := by decide
  have hcall : OneLine "(\" + strconv.FormatInt(int64(" := by decide
  have hclose : OneLine "), 10) + \")\"" := by decide
  exact (((hopen.append (oneLine_of_isIdentifier ht)).append hcall).append
    (oneLine_of_isIdentifier hr)).append hclose

theorem legible_method {type receiver : String} {records : List Record}
    (ht : isIdentifier type.toList = true) (hr : isIdentifier receiver.toList = true)
    (hn : ∀ r ∈ records, isIdentifier r.name.toList = true) :
    (method type receiver records).Legible := by
  have hone : ∀ {before after text : String}, OneLine before → OneLine text → OneLine after →
      OneLine (before ++ text ++ after) := fun hb ht ha => (hb.append ht).append ha
  have hreceiver := oneLine_of_isIdentifier hr
  have hblank : OneLine " " := by decide
  refine ⟨fun row hrow => ?_, blank_not_mem hr, blank_not_mem ht⟩
  rcases List.mem_append.1 hrow with hrow | hrow
  · simp only [List.mem_cons, List.not_mem_nil, or_false] at hrow
    rcases hrow with rfl | rfl
    · exact hone (by decide) (hone hreceiver hblank (oneLine_of_isIdentifier ht)) (by decide)
    · exact hone (by decide) hreceiver (by decide)
  · rcases List.mem_append.1 hrow with hrow | hrow
    · obtain ⟨clause, hclause, hrow⟩ := List.mem_flatMap.1 hrow
      obtain ⟨r, hmem, rfl⟩ := List.mem_map.1 hclause
      simp only [Clause.rows, List.mem_cons, List.not_mem_nil, or_false] at hrow
      rcases hrow with rfl | rfl
      · exact hone (by decide)
          (oneLine_of_isIdentifier (hn r (mem_of_mem_firstPerValue hmem))) (by decide)
      · exact OneLine.append (by decide) (StringLiteral.newline_not_mem_quote r.display)
    · simp only [List.mem_cons, List.not_mem_nil, or_false] at hrow
      rcases hrow with rfl | rfl | rfl | rfl
      · decide
      · exact OneLine.append (by decide) (oneLine_default ht hr)
      · decide
      · decide

/-- The method is read back from the code that was generated for a table. -/
theorem read_code {package code name : String} {guardLines mapLines : List String}
    (ht : isIdentifier o.type.toList = true) (hp : isIdentifier package.toList = true)
    (hn : ∀ name ∈ table.names, isIdentifier name.toList = true)
    (hreceiver : receiver table = .ok name)
    (hguard : table.records.mapM guardLine = .ok guardLines)
    (hcode : code = stacked (fileRows o package name table.records guardLines mapLines)) :
    StringMethod.read code = some (method o.type name table.records) := by
  have hnames : ∀ r ∈ table.records, isIdentifier r.name.toList = true :=
    fun r hr => hn r.name (Table.name_mem_of_mem_records hr)
  have hlines : ∀ line ∈ guardLines, OneLine line := by
    intro line hline
    obtain ⟨r, hr, hread⟩ := exists_of_mapM_ok hguard hline
    exact oneLine_guardLine (hnames r hr) hread
  rw [hcode, fileRows]
  exact StringMethod.read_rows _ (legible_method ht (receiver_spec hreceiver).1 hnames)
    (oneLine_opening hp hlines) isSignature_opening

end Artifact

end EnumNames
