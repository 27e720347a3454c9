import EnumNames.Code.Artifact
import EnumNames.Proofs.LayoutText
import EnumNames.Proofs.SectionFile

/-!
The sections of the generated file. All that is written between the braces of a
section is balanced, whatever the display texts are, and what stands before them
is a line of pieces: the layout of the file shows the import, the guard, the
method and the variables that were asked for as sections.
-/

namespace EnumNames

open EnumNames.Grammar EnumNames.Text

/-! ## Balanced lines -/

theorem balanced_append {s t : String} (hs : Balanced s.toList) (ht : Balanced t.toList) :
    Balanced (s ++ t).toList := by
  rw [String.toList_append]
  exact hs.append ht

/-- A text in the brackets that the texts around it end and begin with. -/
theorem balanced_between (pair : Char × Char) (s t before after : String) {inner : String}
    (hp : pair ∈ brackets) (hs : s.toList = before.toList ++ [pair.1])
    (ht : t.toList = pair.2 :: after.toList) (hbefore : Balanced before.toList)
    (hinner : Balanced inner.toList) (hafter : Balanced after.toList) :
    Balanced (s ++ inner ++ t).toList := by
  have htext : (s ++ inner ++ t).toList =
      before.toList ++ ((pair.1 :: inner.toList ++ [pair.2]) ++ after.toList) := by
    rw [String.toList_append, String.toList_append, hs, ht]
    simp only [List.append_assoc, List.cons_append, List.nil_append]
  rw [htext]
  exact hbefore.append (.group pair _ _ hp hinner hafter)

theorem balanced_words {cs : List Char} (h : cs.all isWord = true) : Balanced cs := by
  refine .of_plain ?_
  rw [List.all_eq_true] at h ⊢
  intro c hc
  simp [isGroupText, isStructural_eq_false_of_isWord (h c hc)]

theorem balanced_name {s : String} (h : isIdentifier s.toList = true) : Balanced s.toList :=
  balanced_words (all_isWord_of_isIdentifier h)

theorem balanced_quote (s : String) : Balanced (StringLiteral.quote s).toList := by
  have hquote := Balanced.string s.toList [] .nil
  rw [StringLiteral.quote, String.toList_ofList]
  rwa [List.append_nil] at hquote

theorem isGroupText_of_isDigit {c : Char} (h : c.isDigit = true) : isGroupText c = true := by
  have hlt : c.toNat < 128 := by
    simp only [Char.isDigit, Bool.and_eq_true, decide_eq_true_eq, UInt32.le_iff_toNat_le] at h
    have hnine : '9'.val.toNat = 57 := rfl
    show c.val.toNat < 128
    omega
  have hascii := passes_of_ascii (p := fun c => !c.isDigit || isGroupText c) (by decide +kernel) hlt
  simpa [h] using hascii

theorem balanced_decimal (n : Int) : Balanced (Numeral.decimal n).toList := by
  have hdigits : Balanced (String.ofList (Nat.toDigits 10 n.natAbs)).toList := by
    rw [String.toList_ofList]
    exact .of_plain (List.all_eq_true.2 fun c hc =>
      isGroupText_of_isDigit (Nat.isDigit_of_mem_toDigits (by decide) (by decide) hc))
  unfold Numeral.decimal
  dsimp only
  split
  · exact balanced_append (.of_plain (by decide)) hdigits
  · exact hdigits

theorem balanced_replicate (n : Nat) {c : Char} (hc : isGroupText c = true) :
    Balanced (String.ofList (List.replicate n c)).toList := by
  rw [String.toList_ofList]
  refine .of_plain (List.all_eq_true.2 fun d hd => ?_)
  rwa [List.eq_of_mem_replicate hd]

theorem balanced_indentation (level : Nat) : Balanced (Emitter.indentation "\t" level).toList := by
  induction level with
  | zero => exact .of_plain (by decide)
  | succ level ih => exact balanced_append (.of_plain (by decide)) ih

theorem balanced_lineAt {line : String} (h : Balanced line.toList) (level : Nat) :
    Balanced (Emitter.lineAt "\t" level line).toList := by
  unfold Emitter.lineAt
  split
  · exact .of_plain (by decide)
  · exact balanced_append (balanced_append (balanced_indentation level) h) (.of_plain (by decide))

/-! ## Balanced layouts -/

theorem not_mem_of_mem_splitAt {sep : Char} {cs part : List Char} (h : part ∈ splitAt sep cs) :
    sep ∉ part := by
  induction cs generalizing part with
  | nil =>
      rw [List.mem_singleton.1 h]
      simp
  | cons c cs ih =>
      unfold splitAt at h
      split at h
      · rcases List.mem_cons.1 h with rfl | h
        · simp
        · exact ih h
      · next hc =>
          have hne : sep ≠ c := fun heq => hc (by simp [heq])
          split at h
          · rw [List.mem_singleton.1 h]
            simpa using hne
          · next first parts hsplit =>
              rw [hsplit] at ih
              rcases List.mem_cons.1 h with rfl | h
              · simpa [hne] using ih (List.mem_cons_self ..)
              · exact ih (List.mem_cons_of_mem _ h)

theorem balanced_commentLine {line : List Char} (h : '\n' ∉ line) (level : Nat) :
    Balanced (Emitter.lineAt "\t" level ("// " ++ String.ofList line)).toList := by
  unfold Emitter.lineAt
  split
  · exact .of_plain (by decide)
  · have hmark : "// ".toList = ['/', '/', ' '] := rfl
    have hend : "\n".toList = ['\n'] := rfl
    have hcomment := Balanced.comment (' ' :: line) [] (by simpa using h) .nil
    rw [String.toList_append, String.toList_append, String.toList_append, hmark, hend,
      String.toList_ofList, List.append_assoc]
    exact (balanced_indentation level).append hcomment

theorem balanced_commentLines {parts : List (List Char)} (h : ∀ part ∈ parts, '\n' ∉ part)
    (level : Nat) :
    Balanced (String.join ((parts.map fun line => "// " ++ String.ofList line).map
      (Emitter.lineAt "\t" level))).toList := by
  induction parts with
  | nil => exact .nil
  | cons part parts ih =>
      simp only [List.map_cons, String.join_cons]
      exact balanced_append (balanced_commentLine (h part (by simp)) level)
        (ih fun part hpart => h part (by simp [hpart]))

/-- Brackets are paired within each line of a layout, which has no blocks. -/
def Layout.Even : Layout → Prop
  | .done => True
  | .line text next => Balanced text.toList ∧ next.Even
  | .comment _ next | .blank _ next => next.Even
  | .nested body next => body.Even ∧ next.Even
  | .block _ _ _ _ => False

theorem Layout.Even.balanced {l : Layout} (h : l.Even) (level : Nat) :
    Balanced (l.print "\t" level).toList := by
  induction l generalizing level with
  | done => exact .nil
  | line text next ih => exact balanced_append (balanced_lineAt h.1 level) (ih h.2 level)
  | comment text next ih =>
      exact balanced_append (balanced_commentLines (fun _ => not_mem_of_mem_splitAt) level)
        (ih h level)
  | blank count next ih =>
      exact balanced_append (balanced_replicate count (by decide)) (ih h level)
  | nested body next ihb ihn => exact balanced_append (ihb h.1 _) (ihn h.2 _)
  | block _ _ _ _ => exact h.elim

theorem Layout.even_lines {texts : List String} (h : ∀ text ∈ texts, Balanced text.toList) :
    (lines texts .done).Even := by
  induction texts with
  | nil => trivial
  | cons text texts ih =>
      exact ⟨h text (by simp), ih fun text ht => h text (by simp [ht])⟩

namespace Artifact

theorem balanced_write {n : Int} {s : String} (h : Numeral.write n = .ok s) :
    Balanced s.toList := by
  unfold Numeral.write at h
  split at h
  · cases h
  · cases h
    exact balanced_decimal n

theorem balanced_guardLine {r : Record} {line : String} (hn : isIdentifier r.name.toList = true)
    (h : guardLine r = .ok line) : Balanced line.toList := by
  obtain ⟨value, hvalue, heq⟩ := ok_of_bind h
  cases heq
  have hminus : Balanced (if r.value < 0 then " - " else "-").toList := by
    split <;> exact .of_plain (by decide)
  have hinner := balanced_append (balanced_append (balanced_name hn) hminus) (balanced_write hvalue)
  have hline := balanced_between ('[', ']') "_ = x[" "]" "_ = x" "" (by decide) rfl rfl
    (.of_plain (by decide)) hinner (.of_plain (by decide))
  simpa only [String.append_assoc, toString] using hline

theorem balanced_mapLine {width : Nat} {r : Record} {line : String}
    (h : mapLine width r = .ok line) : Balanced line.toList := by
  obtain ⟨value, hvalue, heq⟩ := ok_of_bind h
  obtain rfl := Except.ok.inj heq
  refine balanced_append (balanced_append (balanced_append (balanced_append
    (balanced_quote r.display) (.of_plain (by decide))) ?_) (balanced_write hvalue))
    (.of_plain (by decide))
  exact balanced_replicate _ (by decide)

theorem flatMap_escape {cs : List Char} (h : cs.all isWord = true) :
    cs.flatMap StringLiteral.escape = cs := by
  induction cs with
  | nil => rfl
  | cons c cs ih =>
      simp only [List.all_cons, Bool.and_eq_true] at h
      have hne : ∀ d, isWord d = false → c ≠ d := fun d hd => ne_of_isWord h.1 hd
      rw [List.flatMap_cons, ih h.2]
      simp [StringLiteral.escape, hne '\\' (by decide), hne '"' (by decide), hne '\n' (by decide),
        hne '\t' (by decide)]

/-- The result of the default branch: two literals with the number between them. -/
theorem toList_defaultResult {type : String} (receiver : String)
    (ht : isIdentifier type.toList = true) :
    (defaultResult type receiver).toList =
      StringLiteral.quoteChars (type.toList ++ ['(']) ++
      ((" + strconv.FormatInt(" ++ ("int64(" ++ receiver ++ "), 10") ++ ") + ").toList ++
        (StringLiteral.quote ")").toList) := by
  have hcut : "(\" + strconv.FormatInt(int64(".toList =
      '(' :: '"' :: (" + strconv.FormatInt(".toList ++ "int64(".toList) := rfl
  have hend : "), 10) + \")\"".toList =
      "), 10".toList ++ (") + ".toList ++ (StringLiteral.quote ")").toList) := rfl
  have hquote : "\"".toList = ['"'] := rfl
  have hopen : ['('].flatMap StringLiteral.escape = ['('] := rfl
  show ("\"" ++ type ++ "(\" + strconv.FormatInt(int64(" ++ receiver ++
    "), 10) + \")\"").toList = _
  simp only [String.toList_append, hcut, hend, hquote, StringLiteral.quoteChars,
    List.flatMap_append, hopen, flatMap_escape (all_isWord_of_isIdentifier ht),
    List.append_assoc, List.cons_append, List.nil_append]

theorem balanced_default {type receiver : String} (ht : isIdentifier type.toList = true)
    (hr : Balanced receiver.toList) : Balanced (defaultResult type receiver).toList := by
  have hcall := balanced_between ('(', ')') "int64(" "), 10" "int64" ", 10" (by decide) rfl rfl
    (.of_plain (by decide)) hr (.of_plain (by decide))
  have hsum := balanced_between ('(', ')') " + strconv.FormatInt(" ") + " " + strconv.FormatInt"
    " + " (by decide) rfl rfl (.of_plain (by decide)) hcall (.of_plain (by decide))
  -- The parentheses around the number are text of the two strings and pair with nothing.
  rw [toList_defaultResult receiver ht]
  exact Balanced.string (type.toList ++ ['(']) _ (hsum.append (balanced_quote ")"))

/-! ## The method -/

def Closes (l : Layout) : Prop :=
  ∃ inner, Balanced inner ∧ (l.print "\t" 1).toList = inner ++ ['\t', '\x7d', '\n']

theorem closes_caseClause {label result : String} {next : Layout} (hl : Balanced label.toList)
    (hr : Balanced result.toList) (hn : Closes next) : Closes (caseClause label result next) := by
  obtain ⟨inner, hinner, htext⟩ := hn
  have hreturn : Balanced ("return " ++ result).toList :=
    balanced_append (.of_plain (by decide)) hr
  refine ⟨_, ((balanced_lineAt hl 1).append (balanced_lineAt hreturn 2)).append hinner, ?_⟩
  rw [List.append_assoc, ← htext]
  simp [caseClause, Layout.print, String.toList_append]

theorem closes_cases {type receiver : String} {records : List Record}
    (ht : isIdentifier type.toList = true) (hr : Balanced receiver.toList)
    (hn : ∀ r ∈ records, isIdentifier r.name.toList = true) :
    Closes (records.foldr (fun r => caseClause s!"case {r.name}:" (StringLiteral.quote r.display))
      (caseClause "default:" (defaultResult type receiver) (.line "\x7d" .done))) := by
  induction records with
  | nil =>
      refine closes_caseClause (.of_plain (by decide)) (balanced_default ht hr) ⟨[], .nil, ?_⟩
      rfl
  | cons r records ih =>
      have hlabel : Balanced ("case " ++ r.name ++ ":").toList :=
        balanced_append (balanced_append (.of_plain (by decide))
          (balanced_name (hn r (by simp)))) (.of_plain (by decide))
      exact closes_caseClause hlabel (balanced_quote r.display)
        (ih fun r hr => hn r (by simp [hr]))

theorem isBlankLine_of_mem {line : String} {c : Char} (h : c ∈ line.toList)
    (hc : isBlank c = false) : Emitter.isBlankLine line = false := by
  rw [Emitter.isBlankLine, List.all_eq_false]
  exact ⟨c, h, by simp [hc]⟩

theorem balanced_stringSection {type receiver : String} {records : List Record}
    (ht : isIdentifier type.toList = true) (hr : Balanced receiver.toList)
    (hn : ∀ r ∈ cases records, isIdentifier r.name.toList = true) :
    Balanced ((stringSection type receiver records).print "\t" 1).toList := by
  obtain ⟨inner, hinner, htext⟩ := closes_cases ht hr hn
  have hswitch : Emitter.lineAt "\t" 1 ("switch " ++ receiver ++ " \x7b") =
      "\t" ++ ("switch " ++ receiver ++ " \x7b") ++ "\n" := by
    have hbrace : '\x7b' ∈ ("switch " ++ receiver ++ " \x7b").toList := by
      rw [String.toList_append]
      exact List.mem_append_right _ (by decide)
    rw [Emitter.lineAt, isBlankLine_of_mem hbrace (by decide)]
    rfl
  have hbody : Balanced ('\n' :: inner ++ ['\t']) :=
    (Balanced.text '\n' inner (by decide) hinner).append (.of_plain (by decide))
  have hbefore : Balanced ("\tswitch " ++ receiver ++ " ").toList :=
    balanced_append (balanced_append (.of_plain (by decide)) hr) (.of_plain (by decide))
  have hall := hbefore.append (.group ('\x7b', '\x7d') _ ['\n'] (by decide) hbody
    (.of_plain (by decide)))
  show Balanced (Emitter.lineAt "\t" 1 ("switch " ++ receiver ++ " \x7b") ++
    Layout.print "\t" 1 _).toList
  have htab : "\tswitch ".toList = "\t".toList ++ "switch ".toList := rfl
  have hbrace : " \x7b".toList = " ".toList ++ ['\x7b'] := rfl
  have hend : "\n".toList = ['\n'] := rfl
  rw [String.toList_append, hswitch, htext]
  simpa only [String.toList_append, htab, hbrace, hend, List.append_assoc, List.cons_append,
    List.nil_append] using hall

theorem balanced_guardSection {lines : List String} (h : ∀ line ∈ lines, Balanced line.toList) :
    Balanced ((guardSection lines).print "\t" 1).toList := by
  refine Layout.Even.balanced (l := guardSection lines) ⟨?_, Layout.even_lines h⟩ 1
  have hvar : Balanced "var x ".toList := .of_plain (by decide)
  have hstruct : Balanced "struct".toList := .of_plain (by decide)
  exact hvar.append (.group ('[', ']') ['1'] _ (by decide) (.of_plain (by decide))
    (hstruct.append (.group ('\x7b', '\x7d') [] [] (by decide) .nil .nil)))

/-! ## Sections -/

/-- What stands between a keyword and the brace that opens a section's lines. -/
structure Heading where
  chars : List Char
  blank : chars.head? = some ' '
  pieces : ∀ rest cs, Stops isBare (cs ++ rest) → Pieces rest cs → Pieces rest (chars ++ cs)

theorem isBare_of_isIdentifier {cs : List Char} (h : isIdentifier cs = true) :
    cs.all isBare = true := by
  have hword := all_isWord_of_isIdentifier h
  rw [List.all_eq_true] at hword ⊢
  exact fun c hc => isBare_of_isWord (hword c hc)

def guardHeading : Heading where
  chars := " _()".toList
  blank := rfl
  pieces _ cs _ h :=
    .word [' '] ['_'] _ rfl rfl (by simp) (stops_cons.2 (by decide))
      (.group [] ('(', ')') [] cs rfl (by decide) .nil h)

def methodHeading (receiver type : String) (hr : Balanced receiver.toList)
    (ht : Balanced type.toList) : Heading where
  chars := [' ', '('] ++ (receiver ++ " " ++ type).toList ++ ") String() string".toList
  blank := rfl
  pieces rest cs hcs h := by
    have hgroup := Pieces.group [' '] ('(', ')') (receiver ++ " " ++ type).toList _ rfl (by decide)
      (balanced_append (balanced_append hr (.of_plain (by decide))) ht)
      (.word [' '] "String".toList _ rfl (by decide) (by decide) (stops_cons.2 (by decide))
        (.group [] ('(', ')') [] _ rfl (by decide) .nil
          (.word [' '] "string".toList cs rfl (by decide) (by decide) hcs h)))
    have hend : ") String() string".toList ++ cs = [')'] ++ (([' '] ++ "String".toList) ++
      (([] ++ ('(' :: [] ++ [')'])) ++ (([' '] ++ "string".toList) ++ cs))) := rfl
    rw [List.append_assoc, hend]
    simpa only [List.append_assoc, List.cons_append, List.nil_append] using hgroup

def variableHeading (name type : String) (container : List Char)
    (hn : isIdentifier name.toList = true) (ht : isIdentifier type.toList = true)
    (hc : ∀ rest cs, Pieces rest cs → Pieces rest (' ' :: container ++ cs)) : Heading where
  chars := ' ' :: name.toList ++ [' ', '=', ' '] ++ container ++ type.toList
  blank := rfl
  pieces rest cs hcs h := by
    have htype := Pieces.word [] type.toList cs rfl (isBare_of_isIdentifier ht)
      (ne_nil_of_isIdentifier ht) hcs h
    have hname := Pieces.word [' '] name.toList _ rfl (isBare_of_isIdentifier hn)
      (ne_nil_of_isIdentifier hn) (stops_cons.2 (by decide))
      (.word [' '] ['='] _ rfl (by decide) (by decide) (stops_cons.2 (by decide))
        (hc rest _ htype))
    simpa only [List.append_assoc, List.cons_append, List.nil_append] using hname

def mapHeading (name type : String) (hn : isIdentifier name.toList = true)
    (ht : isIdentifier type.toList = true) : Heading :=
  variableHeading name type "map[string]".toList hn ht fun _ cs h =>
    .word [' '] "map".toList _ rfl (by decide) (by decide) (stops_cons.2 (by decide))
      (.group [] ('[', ']') "string".toList cs rfl (by decide) (.of_plain (by decide)) h)

def sliceHeading (name type : String) (hn : isIdentifier name.toList = true)
    (ht : isIdentifier type.toList = true) : Heading :=
  variableHeading name type "[]".toList hn ht fun _ cs h =>
    .group [' '] ('[', ']') [] cs rfl (by decide) .nil h

theorem continues_of_last (line behind : List Char) {c : Char} (hc : isOpenEnded c = false) :
    continues ((line ++ [c]).reverse ++ behind) = false := by
  rw [List.reverse_append]
  show continues (c :: (line.reverse ++ behind)) = false
  unfold continues
  split
  · rfl
  · next heq =>
      cases heq
      exact hc
  · next heq => cases heq

def importSection : Section where
  keyword := "import".toList
  line := ([' '] ++ StringLiteral.quoteChars "strconv".toList) ++ []
  known := by decide
  apart := stops_cons.2 (by decide)
  nonempty := by simp
  pieces _ := .string [' '] "strconv".toList [] rfl .nil
  complete _ := rfl

theorem stops_isBare_gap {gap : List Char} (hg : gap.all isIndent = true) (rest : List Char) :
    Stops isBare (gap ++ '\x7b' :: rest) := by
  cases gap with
  | nil => exact stops_cons.2 (by decide)
  | cons c gap =>
      simp only [List.all_cons, Bool.and_eq_true] at hg
      exact stops_cons.2 (by simp [isBare, isSpace_of_isIndent hg.1])

def bracedSection (keyword : List Char) (known : keyword ∈ otherKeywords) (heading : Heading)
    (gap body : List Char) (hg : gap.all isIndent = true) (hb : Balanced body) : Section where
  keyword
  line := heading.chars ++ (gap ++ ('\x7b' :: ('\n' :: body) ++ ['\x7d']))
  known
  apart := by
    obtain ⟨cs, hcs⟩ := List.head?_eq_some_iff.1 heading.blank
    rw [hcs]
    exact stops_cons.2 (by decide)
  nonempty := by simp
  pieces more := by
    have hgroup : Pieces ('\n' :: more) ((gap ++ ('\x7b' :: ('\n' :: body) ++ ['\x7d'])) ++ []) :=
      .group gap ('\x7b', '\x7d') _ [] hg (by decide) (.text '\n' body (by decide) hb) .nil
    rw [List.append_nil] at hgroup
    refine heading.pieces _ _ ?_ hgroup
    rw [List.append_assoc]
    exact stops_isBare_gap hg _
  complete behind := by
    have hline : heading.chars ++ (gap ++ ('\x7b' :: ('\n' :: body) ++ ['\x7d'])) =
        (heading.chars ++ (gap ++ '\x7b' :: '\n' :: body)) ++ ['\x7d'] := by simp
    rw [hline]
    exact continues_of_last _ behind (by decide)

/-! ## The file -/

/-- After the end of a line, the layout prints the sections, each after an empty line. -/
def Shows (l : Layout) (sections : List Section) : Prop :=
  '\n' :: (l.print "\t" 0).toList = sections.flatMap Section.spaced ++ ['\n']

theorem shows_done : Shows .done [] := rfl

/-- A line without indentation that is not blank. -/
theorem toList_lineAt (line : String) (h : Emitter.isBlankLine line = false) :
    (Emitter.lineAt "\t" 0 line).toList = line.toList ++ ['\n'] := by
  have hend : "\n".toList = ['\n'] := rfl
  rw [Emitter.lineAt, h]
  simp only [Bool.false_eq_true, if_false, Emitter.indentation, String.toList_append, hend,
    String.empty_append]

theorem toList_blank (l : Layout) :
    (Layout.print "\t" 0 (.blank 1 l)).toList = '\n' :: (l.print "\t" 0).toList := by
  rw [Layout.print, String.toList_append, String.toList_ofList]
  rfl

theorem shows_cons {s : Section} {l next : Layout} {sections : List Section}
    (hl : (l.print "\t" 0).toList = s.text ++ '\n' :: (next.print "\t" 0).toList)
    (h : Shows next sections) : Shows (.blank 1 l) (s :: sections) := by
  rw [Shows, toList_blank, hl, h, List.flatMap_cons, List.append_assoc]
  rfl

theorem shows_import {next : Layout} {sections : List Section} (h : Shows next sections) :
    Shows (.blank 1 (.line "import \"strconv\"" next)) (importSection :: sections) := by
  have hline := toList_lineAt "import \"strconv\"" (by decide)
  have htext : "import \"strconv\"".toList = importSection.text := rfl
  refine shows_cons ?_ h
  rw [Layout.print, String.toList_append, hline, htext, List.append_assoc]
  rfl

theorem shows_block {keyword : List Char} (known : keyword ∈ otherKeywords) (heading : Heading)
    {gap : List Char} (hg : gap.all isIndent = true) {header : String} {body next : Layout}
    {sections : List Section} (hb : Balanced (body.print "\t" 1).toList)
    (hheader : header.toList = keyword ++ (heading.chars ++ (gap ++ ['\x7b'])))
    (h : Shows next sections) :
    Shows (.blank 1 (.block header body "\x7d" next))
      (bracedSection keyword known heading gap _ hg hb :: sections) := by
  have hbrace : '\x7b' ∈ header.toList := by simp [hheader]
  have hfirst := toList_lineAt header (isBlankLine_of_mem hbrace (by decide))
  have hlast := toList_lineAt "\x7d" (by decide)
  have hfooter : "\x7d".toList = ['\x7d'] := rfl
  refine shows_cons ?_ h
  rw [Layout.print, String.toList_append, String.toList_append, String.toList_append, hfirst,
    hlast, hheader, hfooter]
  simp only [Section.text, bracedSection, List.append_assoc, List.cons_append, List.nil_append,
    Nat.zero_add]

/-- A variable is shown when it has a name. -/
theorem shows_variable {name header : String} {body next : Layout} {sections : List Section}
    (hn : name = "" ∨ isIdentifier name.toList = true)
    (heading : isIdentifier name.toList = true → Heading)
    (hheader : ∀ h, header.toList = "var".toList ++ ((heading h).chars ++ ([] ++ ['\x7b'])))
    (hb : Balanced (body.print "\t" 1).toList) (h : Shows next sections) :
    ∃ added, Shows (if name.isEmpty then next else .blank 1 (.block header body "\x7d" next))
        (added ++ sections) ∧
      added.map (·.keyword) = if name = "" then [] else ["var".toList] := by
  by_cases hempty : name = ""
  · subst hempty
    exact ⟨[], h, rfl⟩
  · have hname := hn.resolve_left hempty
    have hfalse : name.isEmpty = false := by simpa using hempty
    rw [hfalse, if_neg hempty]
    exact ⟨[_], shows_block (by decide) (heading hname) rfl hb (hheader hname) h, rfl⟩

theorem shows_mapSection {o : Options} {lines : List String} {next : Layout}
    {sections : List Section} (ht : isIdentifier o.type.toList = true)
    (hm : o.mapName = "" ∨ isIdentifier o.mapName.toList = true)
    (hl : ∀ line ∈ lines, Balanced line.toList) (h : Shows next sections) :
    ∃ added, Shows (mapSection o lines next) (added ++ sections) ∧
      added.map (·.keyword) = if o.mapName = "" then [] else ["var".toList] := by
  refine shows_variable hm (fun hn => mapHeading o.mapName o.type hn ht) (fun hn => ?_)
    (Layout.Even.balanced (Layout.even_lines hl) 1) h
  have hvar : "var ".toList = "var".toList ++ [' '] := rfl
  have hmap : " = map[string]".toList = [' ', '=', ' '] ++ "map[string]".toList := rfl
  have hbrace : "\x7b".toList = ['\x7b'] := rfl
  show ("var " ++ o.mapName ++ " = map[string]" ++ o.type ++ "\x7b").toList = _
  simp only [String.toList_append, hvar, hmap, hbrace, mapHeading, variableHeading,
    List.append_assoc, List.cons_append, List.nil_append]

theorem shows_sliceSection {o : Options} {records : List Record} {next : Layout}
    {sections : List Section} (ht : isIdentifier o.type.toList = true)
    (hs : o.sliceName = "" ∨ isIdentifier o.sliceName.toList = true)
    (hn : ∀ r ∈ ordered records, isIdentifier r.name.toList = true) (h : Shows next sections) :
    ∃ added, Shows (sliceSection o records next) (added ++ sections) ∧
      added.map (·.keyword) = if o.sliceName = "" then [] else ["var".toList] := by
  have hlines : ∀ line ∈ (ordered records).map (·.name ++ ","), Balanced line.toList := by
    intro line hline
    obtain ⟨r, hr, rfl⟩ := List.mem_map.1 hline
    exact balanced_append (balanced_name (hn r hr)) (.of_plain (by decide))
  refine shows_variable hs (fun hn => sliceHeading o.sliceName o.type hn ht) (fun hn => ?_)
    (Layout.Even.balanced (Layout.even_lines hlines) 1) h
  have hvar : "var ".toList = "var".toList ++ [' '] := rfl
  have hslice : " = []".toList = [' ', '=', ' '] ++ "[]".toList := rfl
  have hbrace : "\x7b".toList = ['\x7b'] := rfl
  show ("var " ++ o.sliceName ++ " = []" ++ o.type ++ "\x7b").toList = _
  simp only [String.toList_append, hvar, hslice, hbrace, sliceHeading, variableHeading,
    List.append_assoc, List.cons_append, List.nil_append]

def sectionKeywords (o : Options) : List String :=
  ["import", "func", "func"] ++ (if o.mapName = "" then [] else ["var"]) ++
    (if o.sliceName = "" then [] else ["var"])

/-- What the sections of a file need: names that are identifiers and lines that are balanced. -/
structure Writable (o : Options) (receiver : String) (records : List Record)
    (guardLines mapLines : List String) : Prop where
  type : isIdentifier o.type.toList = true
  mapName : o.mapName = "" ∨ isIdentifier o.mapName.toList = true
  sliceName : o.sliceName = "" ∨ isIdentifier o.sliceName.toList = true
  receiver : Balanced receiver.toList
  names : ∀ r ∈ records, isIdentifier r.name.toList = true
  guardLines : ∀ line ∈ guardLines, Balanced line.toList
  mapLines : ∀ line ∈ mapLines, Balanced line.toList

theorem mem_of_mem_firstPerValue {seen : List Int} {records : List Record} {r : Record}
    (h : r ∈ firstPerValue seen records) : r ∈ records := by
  induction records generalizing seen with
  | nil => cases h
  | cons r' records ih =>
      unfold firstPerValue at h
      split at h
      · exact List.mem_cons_of_mem _ (ih h)
      · rcases List.mem_cons.1 h with rfl | h
        · exact List.mem_cons_self ..
        · exact List.mem_cons_of_mem _ (ih h)

theorem mem_of_mem_ordered {records : List Record} {r : Record} (h : r ∈ ordered records) :
    r ∈ records :=
  mem_of_mem_firstPerValue (List.mem_mergeSort.1 (mem_of_mem_firstPerValue h))

theorem toList_guardFunction :
    "func _() \x7b".toList = "func".toList ++ (guardHeading.chars ++ ([' '] ++ ['\x7b'])) := rfl

theorem toList_methodLine (receiver type : String) (hr : Balanced receiver.toList)
    (ht : Balanced type.toList) :
    s!"func ({receiver} {type}) String() string \x7b".toList =
      "func".toList ++ ((methodHeading receiver type hr ht).chars ++ ([' '] ++ ['\x7b'])) := by
  have hopen : "func (".toList = "func".toList ++ [' ', '('] := rfl
  have hclose : ") String() string \x7b".toList =
    ") String() string".toList ++ ([' '] ++ ['\x7b']) := rfl
  show ("func (" ++ receiver ++ " " ++ type ++ ") String() string \x7b").toList = _
  simp only [String.toList_append, hopen, hclose, methodHeading, List.append_assoc]

/-- The layout after the package clause shows the sections of the file. -/
theorem shows_sections {o : Options} {receiver : String} {records : List Record}
    {guardLines mapLines : List String} (h : Writable o receiver records guardLines mapLines) :
    ∃ sections,
      Shows (.blank 1 <| .line "import \"strconv\"" <| .blank 1 <|
        .block "func _() \x7b" (guardSection guardLines) "\x7d" <| .blank 1 <|
        .block s!"func ({receiver} {o.type}) String() string \x7b"
          (stringSection o.type receiver records) "\x7d" <|
        mapSection o mapLines <| sliceSection o records .done) sections ∧
      sections.map (·.keyword) = (sectionKeywords o).map String.toList := by
  obtain ⟨slice, hslice, hsliceKeys⟩ := shows_sliceSection h.type h.sliceName
    (fun r hr => h.names r (mem_of_mem_ordered hr)) shows_done
  obtain ⟨map, hmap, hmapKeys⟩ := shows_mapSection h.type h.mapName h.mapLines hslice
  have hbody : Balanced ((stringSection o.type receiver records).print "\t" 1).toList :=
    balanced_stringSection h.type h.receiver fun r hr => h.names r (mem_of_mem_firstPerValue hr)
  have hmethod := shows_block (by decide)
    (methodHeading receiver o.type h.receiver (balanced_name h.type)) rfl hbody
    (toList_methodLine receiver o.type h.receiver (balanced_name h.type)) hmap
  have hguard := shows_block (by decide) guardHeading rfl
    (balanced_guardSection h.guardLines) toList_guardFunction hmethod
  refine ⟨_, shows_import hguard, ?_⟩
  simp only [List.map_cons, List.map_append, List.map_nil, hsliceKeys, hmapKeys, sectionKeywords,
    List.append_nil, apply_ite (List.map String.toList), List.cons_append, List.nil_append]
  rfl

end Artifact
end EnumNames
