import EnumNames.Code.StringLiteral
import EnumNames.Proofs.NestedText

/-!
Balanced text. Declarations of no interest are passed over as text in which
brackets are paired outside of string literals and comments. Such text is read
up to the bracket that closes it, and a declaration made of words, literals and
groups up to the end of its line.
-/

namespace EnumNames.Grammar

open EnumNames.Text

variable {behind rest more : List Char} {f : Forest}

/-! ## String literals -/

theorem stringTailWidth_escape (c : Char) (cs : List Char) :
    stringTailWidth (StringLiteral.escape c ++ cs) =
      passed (StringLiteral.escape c).length (stringTailWidth cs) := by
  unfold StringLiteral.escape
  split_ifs with hb hq hn ht
  · rfl
  · rfl
  · rfl
  · rfl
  · exact stringTailWidth_plain cs (by simpa using hq) (by simpa using hb) (by simpa using hn)

/-- A quoted text is one string literal, whatever follows. -/
theorem stringWidth_quoteChars (s rest : List Char) :
    stringWidth (StringLiteral.quoteChars s ++ rest) =
      some (StringLiteral.quoteChars s).length := by
  have htail : stringTailWidth (s.flatMap StringLiteral.escape ++ '"' :: rest) =
      some ((s.flatMap StringLiteral.escape).length + 1) := by
    induction s with
    | nil => rfl
    | cons c s ih =>
        rw [List.flatMap_cons, List.append_assoc, stringTailWidth_escape, ih, List.length_append]
        simp only [passed, Option.map_some, Option.some.injEq]
        omega
  simp only [StringLiteral.quoteChars, List.cons_append, List.append_assoc, List.nil_append,
    stringWidth, htail, passed, Option.map_some, List.length_cons, List.length_append,
    List.length_nil, Option.some.injEq]
  omega

/-! ## Groups -/

/-- Text in which brackets are paired, apart from those in string literals and comments. -/
inductive Balanced : List Char → Prop where
  | nil : Balanced []
  | text (c : Char) (cs : List Char) (plain : isGroupText c = true) (tail : Balanced cs) :
      Balanced (c :: cs)
  | string (s cs : List Char) (tail : Balanced cs) : Balanced (StringLiteral.quoteChars s ++ cs)
  | comment (body cs : List Char) (oneLine : '\n' ∉ body) (tail : Balanced cs) :
      Balanced ('/' :: '/' :: body ++ '\n' :: cs)
  | group (pair : Char × Char) (inner cs : List Char) (paired : pair ∈ brackets)
      (inside : Balanced inner) (tail : Balanced cs) :
      Balanced ((pair.1 :: inner ++ [pair.2]) ++ cs)

namespace Balanced

variable {cs ds : List Char}

theorem append (h : Balanced cs) (h' : Balanced ds) : Balanced (cs ++ ds) := by
  induction h with
  | nil => exact h'
  | text c cs plain _ ih => exact .text c _ plain ih
  | string s cs _ ih =>
      rw [List.append_assoc]
      exact .string s _ ih
  | comment body cs oneLine _ ih =>
      rw [List.append_assoc]
      exact .comment body _ oneLine ih
  | group pair inner cs paired inside _ _ ih =>
      rw [List.append_assoc]
      exact .group pair inner _ paired inside ih

theorem of_plain (h : cs.all isGroupText = true) : Balanced cs := by
  induction cs with
  | nil => exact .nil
  | cons c cs ih =>
      simp only [List.all_cons, Bool.and_eq_true] at h
      exact .text c cs h.1 (ih h.2)

/-- String literals and comments to the end of a line are among what nested text may hold. -/
theorem nested (h : Balanced cs) : Nested cs := by
  induction h with
  | nil => exact .nil
  | text c cs plain _ ih => exact .text c cs plain ih
  | string s cs _ ih =>
      exact .literal _ cs (.inl ⟨s.flatMap StringLiteral.escape, rfl, stringWidth_quoteChars s⟩) ih
  | comment body cs oneLine _ ih => exact .line body cs oneLine ih
  | group pair inner cs paired _ _ ihi iht => exact .group pair inner cs paired ihi iht

end Balanced

/-- A quoted text is taken where a group or a string literal may stand. -/
theorem reads_quoted (e : Peg) (s behind rest : List Char) :
    ∃ f, (Peg.choice (.rule .group) (.choice (.rule .stringLit) e)).Reads behind
      (StringLiteral.quoteChars s) rest f :=
  ⟨_, reads_choice_second (refuses_group (stops_cons.2 (by decide)))
    (reads_choice_first (reads_lexeme rfl (stringWidth_quoteChars s rest)))⟩

/-! ## Lines of pieces -/

/-- Words, string literals and groups before the rest, each after blanks. A word ends before the
next piece does begin. -/
inductive Pieces (rest : List Char) : List Char → Prop where
  | nil : Pieces rest []
  | word (gap word cs : List Char) (blank : gap.all isIndent = true) (bare : word.all isBare = true)
      (nonempty : word ≠ []) (apart : Stops isBare (cs ++ rest)) (tail : Pieces rest cs) :
      Pieces rest ((gap ++ word) ++ cs)
  | string (gap s cs : List Char) (blank : gap.all isIndent = true) (tail : Pieces rest cs) :
      Pieces rest ((gap ++ StringLiteral.quoteChars s) ++ cs)
  | group (gap : List Char) (pair : Char × Char) (inner cs : List Char)
      (blank : gap.all isIndent = true) (paired : pair ∈ brackets) (inside : Balanced inner)
      (tail : Pieces rest cs) : Pieces rest ((gap ++ (pair.1 :: inner ++ [pair.2])) ++ cs)

/-- Blanks before a solid character are the gap, whether or not the line goes on here. -/
theorem reads_gap {gap : List Char} (h : gap.all isIndent = true) (hi : Stops isIndent rest)
    (hs : Solid rest) : (Peg.rule .pieceGap).Reads behind gap rest (.lexeme .pieceGap gap) := by
  refine reads_lexeme rfl ?_
  simp only [Token.width, triviaWidth_indent h hs, indentWidth_append h hi, ite_self]

theorem reads_word {word : List Char} (hb : word.all isBare = true) (hne : word ≠ [])
    (hr : Stops isBare rest) : ∃ f, (Peg.rule .exprPiece).Reads behind word rest f := by
  cases word with
  | nil => exact absurd rfl hne
  | cons c cs =>
      have hc : isStructural c = false := by
        simp only [List.all_cons, Bool.and_eq_true, isBare, Bool.not_eq_true',
          Bool.or_eq_false_iff] at hb
        exact hb.1.1.1.1
      exact ⟨_, reads_rule (reads_past_openers (isOpener_eq_false_of_plain hc)
        (reads_choice_first (reads_lexeme rfl (runWidth_append hb hne hr))))⟩

/-- One piece, with the blanks before it, in front of the pieces that follow. -/
theorem reads_piece {gap ds cs : List Char} {c : Char} (hg : gap.all isIndent = true)
    (hs : isSpace c = false) (hc : c ≠ '/')
    (hpiece : ∀ behind, ∃ f, (Peg.rule .exprPiece).Reads behind (c :: ds) (cs ++ rest) f)
    (htail : ∃ f, (Peg.many (Peg.all (.rule .pieceGap) [.rule .linePiece])).Reads
      ((gap ++ c :: ds).reverse ++ behind) cs rest f) :
    ∃ f, (Peg.many (Peg.all (.rule .pieceGap) [.rule .linePiece])).Reads behind
      ((gap ++ c :: ds) ++ cs) rest f := by
  obtain ⟨f, hf⟩ := hpiece (gap.reverse ++ behind)
  obtain ⟨g, hg'⟩ := htail
  have hi : isIndent c = false := by
    by_contra hne
    rw [isSpace_of_isIndent (by simpa using hne)] at hs
    cases hs
  have hgap : (Peg.rule .pieceGap).Reads behind gap ((c :: ds) ++ (cs ++ rest)) _ :=
    reads_gap hg (stops_cons.2 hi) (solid_cons hs hc)
  exact ⟨_, reads_many_cons (by simp) (reads_seq hgap (reads_rule (reads_choice_first hf))) hg'⟩

theorem refuses_linePiece : (Peg.rule .linePiece).Refuses behind ('\n' :: more) := by
  refine refuses_rule (refuses_choice (refuses_rule (refuses_past_openers (by decide) ?_)) ?_)
  · exact refuses_choice (refuses_lexeme rfl rfl) (refuses_lexeme rfl rfl)
  · exact refuses_choice (refuses_lexeme rfl rfl) (refuses_token rfl)

/-- A line of pieces is taken up to its end, unless it ends as if it went on. -/
theorem Pieces.reads {cs : List Char} (h : Pieces ('\n' :: more) cs) (behind : List Char)
    (hlast : continues (cs.reverse ++ behind) = false) :
    ∃ f, (Peg.rule .linePieceRun).Reads behind cs ('\n' :: more) f := by
  have hmany : ∃ f, (Peg.many (Peg.all (.rule .pieceGap) [.rule .linePiece])).Reads behind cs
      ('\n' :: more) f := by
    induction h generalizing behind with
    | nil =>
        have hgap : (Peg.rule .pieceGap).Reads behind [] ('\n' :: more) (.lexeme .pieceGap []) := by
          refine reads_lexeme rfl ?_
          simp only [List.reverse_nil, List.nil_append] at hlast
          simp [Token.width, hlast, indentWidth, isIndent]
        exact ⟨_, reads_many_nil fun _ => refuses_seq_second hgap refuses_linePiece⟩
    | word gap word cs blank bare nonempty apart tail ih =>
        have htail := ih ((gap ++ word).reverse ++ behind) (by simpa using hlast)
        cases word with
        | nil => exact absurd rfl nonempty
        | cons c ds =>
            have hc : isStructural c = false ∧ isSpace c = false := by
              simp only [List.all_cons, Bool.and_eq_true, isBare, Bool.not_eq_true',
                Bool.or_eq_false_iff] at bare
              exact bare.1.1.1
            have hslash : c ≠ '/' := by
              rintro rfl
              exact absurd hc.1 (by decide)
            exact reads_piece blank hc.2 hslash (fun _ => reads_word bare nonempty apart) htail
    | string gap s cs blank tail ih =>
        have htail := ih ((gap ++ StringLiteral.quoteChars s).reverse ++ behind)
          (by simpa using hlast)
        refine reads_piece blank (by decide) (by decide) (fun behind => ?_) htail
        obtain ⟨f, hf⟩ := reads_quoted _ s behind (cs ++ '\n' :: more)
        exact ⟨_, reads_rule hf⟩
    | group gap pair inner cs blank paired inside tail ih =>
        have htail := ih ((gap ++ (pair.1 :: inner ++ [pair.2])).reverse ++ behind)
          (by simpa using hlast)
        obtain ⟨hspace, hslash, _⟩ := opening_bracket pair paired
        refine reads_piece blank hspace hslash (fun behind => ?_) htail
        obtain ⟨f, hf⟩ := reads_group paired inside.nested.reads
        exact ⟨_, reads_rule (reads_choice_first (hf behind _))⟩
  obtain ⟨f, hf⟩ := hmany
  exact ⟨_, reads_rule hf⟩

/-! ## Declarations of no interest -/

def otherKeywords : List (List Char) :=
  [['i', 'm', 'p', 'o', 'r', 't'], ['v', 'a', 'r'], ['f', 'u', 'n', 'c']]

theorem keywordWidth_other {keyword : List Char} (hk : keyword ∈ otherKeywords)
    (hr : Stops isWord rest) :
    keywordWidth otherKeywords (keyword ++ rest) = some keyword.length := by
  simp only [otherKeywords, List.mem_cons, List.not_mem_nil, or_false] at hk
  rcases hk with rfl | rfl | rfl
  · exact keywordWidth_append [] [['v', 'a', 'r'], ['f', 'u', 'n', 'c']] (by simp) hr
  · exact keywordWidth_append [['i', 'm', 'p', 'o', 'r', 't']] [['f', 'u', 'n', 'c']]
      (by simp [wordWidth]) hr
  · exact keywordWidth_append [['i', 'm', 'p', 'o', 'r', 't'], ['v', 'a', 'r']] []
      (by simp [wordWidth]) hr

/-- A keyword and a line of pieces make a declaration that is passed over. -/
theorem reads_topDecl {keyword line : List Char} (behind : List Char) (hk : keyword ∈ otherKeywords)
    (hword : Stops isWord (line ++ '\n' :: more)) (hline : Pieces ('\n' :: more) line)
    (hlast : continues (line.reverse ++ (keyword.reverse ++ behind)) = false) :
    ∃ f, (Peg.rule .topDecl).Reads behind (keyword ++ line) ('\n' :: more)
      (.node .topDecl (.node .otherDecl ((Forest.lexeme .otherKw keyword).append f) .nil)
        .nil) := by
  obtain ⟨f, hf⟩ := hline.reads (keyword.reverse ++ behind) hlast
  have hindent : ∀ behind, (Peg.rule .indent).Reads behind [] ('\n' :: more) (.lexeme .indent []) :=
    fun _ => reads_indent rfl (stops_cons.2 (by decide))
  have hcomment : ∀ behind,
      (Peg.optional (.rule .lineComment)).Reads behind [] ('\n' :: more) .nil :=
    fun _ => reads_optional_none fun _ =>
      refuses_rule (refuses_seq_first (refuses_lexeme rfl rfl))
  have hkeyword : (Peg.rule .otherKw).Reads behind keyword ((line ++ ([] ++ [])) ++ '\n' :: more)
      (.lexeme .otherKw keyword) :=
    reads_lexeme rfl (keywordWidth_other hk (by simpa using hword))
  have hbody : (Peg.rule .otherDecl).Reads behind (keyword ++ (line ++ ([] ++ []))) ('\n' :: more)
      _ := reads_rule (reads_seq hkeyword (reads_seq hf (reads_seq (hindent _) (hcomment _))))
  have hrefuse : (Peg.rule .typeDecl).Refuses behind (keyword ++ (line ++ '\n' :: more)) ∧
      (Peg.rule .constDecl).Refuses behind (keyword ++ (line ++ '\n' :: more)) := by
    simp only [otherKeywords, List.mem_cons, List.not_mem_nil, or_false] at hk
    rcases hk with rfl | rfl | rfl <;>
      exact ⟨refuses_rule (refuses_seq_first (refuses_lexeme rfl rfl)),
        refuses_rule (refuses_seq_first (refuses_lexeme rfl rfl))⟩
  rw [List.append_nil, List.append_nil] at hbody
  refine ⟨_, reads_rule (reads_choice_second ?_ (reads_choice_second ?_ hbody))⟩
  · simpa using hrefuse.1
  · simpa using hrefuse.2

end EnumNames.Grammar
