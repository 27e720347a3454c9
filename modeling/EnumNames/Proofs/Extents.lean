import EnumNames.Proofs.JoinedDeclarations

/-!
How much an expression takes. A simple value is an operand or a sum of two, up
to where the expression ends; as a verbatim text it is cut into pieces in other
ways, but it goes exactly as far. So whether a value is read as a simple one has
no bearing on where it ends, and neither has it for the name of a type.
-/

namespace EnumNames.Grammar

open EnumNames.Text

variable {e e' : Peg} {t : Token} {r : Rule} {behind cs ds rest : List Char}

/-- The expression takes the characters before the rest, as some forest. -/
def Peg.Takes (e : Peg) (behind cs rest : List Char) : Prop := ∃ f, e.Reads behind cs rest f

namespace Peg.Takes

theorem rule (h : r.body.Takes behind cs rest) : (Peg.rule r).Takes behind cs rest := by
  obtain ⟨f, hf⟩ := h
  exact ⟨_, reads_rule hf⟩

theorem body (h : (Peg.rule r).Takes behind cs rest) : r.body.Takes behind cs rest := by
  obtain ⟨f, hf⟩ := h
  obtain ⟨g, _, hg⟩ := body_of_reads hf
  exact ⟨g, hg⟩

theorem seq (h : e.Takes behind cs (ds ++ rest)) (h' : e'.Takes (cs.reverse ++ behind) ds rest) :
    (Peg.seq e e').Takes behind (cs ++ ds) rest := by
  obtain ⟨f, hf⟩ := h
  obtain ⟨g, hg⟩ := h'
  exact ⟨_, reads_seq hf hg⟩

theorem parts (h : (Peg.seq e e').Takes behind cs rest) :
    ∃ a b, cs = a ++ b ∧ e.Takes behind a (b ++ rest) ∧ e'.Takes (a.reverse ++ behind) b rest := by
  obtain ⟨f, hf⟩ := h
  obtain ⟨a, b, g, g', rfl, ha, hb, _⟩ := parts_of_reads_seq hf
  exact ⟨a, b, rfl, ⟨g, ha⟩, ⟨g', hb⟩⟩

theorem first (h : e.Takes behind cs rest) : (Peg.choice e e').Takes behind cs rest := by
  obtain ⟨f, hf⟩ := h
  exact ⟨f, reads_choice_first hf⟩

theorem second (h : e.Refuses behind (cs ++ rest)) (h' : e'.Takes behind cs rest) :
    (Peg.choice e e').Takes behind cs rest := by
  obtain ⟨f, hf⟩ := h'
  exact ⟨f, reads_choice_second h hf⟩

theorem cases (h : (Peg.choice e e').Takes behind cs rest) :
    e.Takes behind cs rest ∨ e.Refuses behind (cs ++ rest) ∧ e'.Takes behind cs rest := by
  obtain ⟨f, hf⟩ := h
  rcases parts_of_reads_choice hf with hf | ⟨hno, hf⟩
  · exact .inl ⟨f, hf⟩
  · exact .inr ⟨hno, f, hf⟩

theorem many_cons (hne : cs ≠ []) (h : e.Takes behind cs (ds ++ rest))
    (h' : (Peg.many e).Takes (cs.reverse ++ behind) ds rest) :
    (Peg.many e).Takes behind (cs ++ ds) rest := by
  obtain ⟨f, hf⟩ := h
  obtain ⟨g, hg⟩ := h'
  exact ⟨_, reads_many_cons hne hf hg⟩

theorem unique {as bs : List Char} (h : e.Takes behind cs rest) (h' : e.Takes behind as bs)
    (heq : cs ++ rest = as ++ bs) : cs = as ∧ rest = bs := by
  obtain ⟨f, hf⟩ := h
  obtain ⟨g, hg⟩ := h'
  obtain ⟨hcs, hrest, _⟩ := hf.unique hg heq
  exact ⟨hcs, hrest⟩

theorem ne_nil (h : e.Takes behind cs rest) (he : e.mayBeEmpty = false) : cs ≠ [] := by
  obtain ⟨f, hf⟩ := h
  exact hf.ne_nil he

theorem not_refuses (h : e.Takes behind cs rest) : ¬ e.Refuses behind (cs ++ rest) := by
  obtain ⟨f, hf⟩ := h
  exact hf.not_refuses

end Peg.Takes

/-- A rule for a token takes what the token's width says. -/
theorem takes_lexeme_iff (hb : r.body = .token t) :
    (Peg.rule r).Takes behind cs rest ↔ t.width behind (cs ++ rest) = some cs.length :=
  ⟨fun ⟨_, hf⟩ => (lexeme_of_reads hb hf).1, fun hw => ⟨_, reads_lexeme hb hw⟩⟩

theorem Peg.takes_or_refuses (e : Peg) (behind ahead : List Char) :
    (∃ a b, ahead = a ++ b ∧ e.Takes behind a b) ∨ e.Refuses behind ahead := by
  rcases e.reads_or_refuses behind ahead with ⟨a, b, f, heq, hf⟩ | hno
  · exact .inl ⟨a, b, heq, f, hf⟩
  · exact .inr hno

/-- What takes something refuses the end of the text. -/
theorem Peg.refuses_nil (he : e.mayBeEmpty = false) : e.Refuses behind [] := by
  rcases e.reads_or_refuses behind [] with ⟨a, b, f, heq, hf⟩ | hno
  · exact absurd (List.append_eq_nil_iff.1 heq.symm).1 (hf.ne_nil he)
  · exact hno

/-- Wherever the other expression takes something, this one takes the same. -/
def Peg.Covers (e' e : Peg) : Prop :=
  ∀ behind cs rest, e.Takes behind cs rest → e'.Takes behind cs rest

/-- Trying a covered expression first does not change how much is taken. -/
theorem Peg.Covers.takes_choice (h : e'.Covers e) :
    (Peg.choice e e').Takes behind cs rest ↔ e'.Takes behind cs rest := by
  constructor
  · intro htakes
    rcases htakes.cases with hfirst | ⟨_, hsecond⟩
    · exact h behind cs rest hfirst
    · exact hsecond
  · intro htakes
    rcases e.takes_or_refuses behind (cs ++ rest) with ⟨a, b, heq, hfirst⟩ | hno
    · obtain ⟨rfl, rfl⟩ := htakes.unique (h behind a b hfirst) heq
      exact hfirst.first
    · exact .second hno htakes

theorem Peg.Covers.refuses_choice (h : e'.Covers e) {ahead : List Char} :
    (Peg.choice e e').Refuses behind ahead ↔ e'.Refuses behind ahead := by
  constructor
  · exact fun hno => (parts_of_refuses_choice hno).2
  · intro hno
    refine Grammar.refuses_choice ?_ hno
    rcases e.takes_or_refuses behind ahead with ⟨a, b, rfl, hfirst⟩ | hfirst
    · exact absurd hno (h behind a b hfirst).not_refuses
    · exact hfirst

theorem form_of_indent (h : (Peg.rule .indent).Takes behind cs rest) :
    cs.all isIndent = true ∧ Stops isIndent rest :=
  run_of_takeWhile (Option.some.inj ((takes_lexeme_iff (t := .indent) rfl).1 h))

theorem takes_trivia_iff :
    (Peg.rule .trivia).Takes behind cs rest ↔ triviaWidth (cs ++ rest) = cs.length :=
  (takes_lexeme_iff (t := .trivia) rfl).trans Option.some_inj

/-! ## Pieces -/

/-- A run of bare characters is one piece. -/
theorem takes_bare (h : cs.all isBare = true) (hne : cs ≠ []) (hr : Stops isBare rest) :
    (Peg.rule .exprPiece).Takes behind cs rest :=
  reads_word h hne hr

theorem takes_rune (h : Quoted runeWidth '\'' cs) : (Peg.rule .exprPiece).Takes behind cs rest := by
  have hliteral : IsLiteral cs := .inr (.inr h)
  obtain ⟨f, hf⟩ := hliteral.reads (Peg.any (.rule .bareText) [.rule .loneSlash])
  exact .rule ⟨f, hf behind rest⟩

/-- What an expression ends with begins no piece. -/
theorem head_of_endsExpression {c : Char} (h : endsExpression (c :: cs) = true) :
    isOpener c = false ∧ isBare c = false ∧ slashWidth (c :: cs) = none := by
  simp only [endsExpression, Bool.or_eq_true, Bool.and_eq_true, beq_iff_eq] at h
  rcases h with ((((rfl | rfl) | rfl) | rfl) | ⟨rfl, _⟩) | ⟨rfl, hmark⟩
  · exact ⟨by decide, by decide, rfl⟩
  · exact ⟨by decide, by decide, rfl⟩
  · exact ⟨by decide, by decide, rfl⟩
  · exact ⟨by decide, by decide, rfl⟩
  · exact ⟨by decide, by decide, rfl⟩
  · refine ⟨by decide, by decide, ?_⟩
    rw [slashWidth, if_pos (by simpa using hmark)]

theorem refuses_exprPiece_end {ahead : List Char} (h : endsExpression ahead = true) :
    (Peg.rule .exprPiece).Refuses behind ahead := by
  cases ahead with
  | nil => exact Peg.refuses_nil rfl
  | cons c cs =>
      obtain ⟨hopener, hbare, hslash⟩ := head_of_endsExpression h
      have hrun : runWidth isBare (c :: cs) = none := by simp [runWidth, hbare]
      exact refuses_rule (refuses_past_openers hopener
        (refuses_choice (refuses_lexeme rfl hrun) (refuses_lexeme rfl hslash)))

/-- The blanks before the end of an expression, and the end. -/
theorem parts_of_expressionEnds (h : expressionEnds cs = true) :
    ∃ a b, cs = a ++ b ∧ a.all isIndent = true ∧ Stops isIndent b ∧ endsExpression b = true := by
  rw [expressionEnds_eq] at h
  refine ⟨cs.takeWhile isIndent, cs.dropWhile isIndent, List.takeWhile_append_dropWhile.symm,
    List.all_takeWhile, ?_, h⟩
  intro c hc
  have hne := List.head?_dropWhile_not isIndent cs
  rw [Option.mem_def.1 hc] at hne
  exact hne

/-- An expression does not end before a bare character. -/
theorem stops_of_expressionEnds (h : expressionEnds cs = true) : Stops isBare cs := by
  have hblank {c : Char} (hc : isIndent c = true) : isBare c = false := by
    simp [isBare, isSpace_of_isIndent hc]
  obtain ⟨a, b, rfl, ha, _, hb⟩ := parts_of_expressionEnds h
  cases a with
  | cons c a => exact stops_cons.2 (hblank (List.all_eq_true.1 ha c (by simp)))
  | nil =>
      cases b with
      | nil => exact stops_nil _
      | cons c b => exact stops_cons.2 (head_of_endsExpression hb).2.1

/-- The end of an expression takes nothing. -/
theorem form_of_exprEnd (h : (Peg.rule .exprEnd).Takes behind cs rest) :
    cs = [] ∧ expressionEnds rest = true := by
  have hwidth := (takes_lexeme_iff (t := .expressionEnd) rfl).1 h
  simp only [Token.width] at hwidth
  split at hwidth
  · next hends =>
      obtain rfl := List.length_eq_zero_iff.1 (Option.some.inj hwidth).symm
      exact ⟨rfl, hends⟩
  · cases hwidth

/-! ## Names of types -/

theorem typeLiteral_covers_namedType : (Peg.rule .typeLiteral).Covers (.rule .namedType) := by
  intro behind cs rest h
  obtain ⟨a, b, rfl, ha, hb⟩ := h.body.parts
  obtain ⟨rfl, hends⟩ := form_of_exprEnd hb
  have hname := isIdentifier_take ((takes_lexeme_iff (t := .identifier) rfl).1 ha)
  rw [List.take_left] at hname
  have hpiece : (Peg.rule .exprPiece).Takes behind a ([] ++ rest) :=
    takes_bare (all_imp (fun _ => isBare_of_isWord) (all_isWord_of_isIdentifier hname))
      (ne_nil_of_isIdentifier hname) (stops_of_expressionEnds hends)
  refine .rule (hpiece.seq ⟨_, reads_many_nil fun _ => ?_⟩)
  obtain ⟨u, y, rfl, hu, hy, hends⟩ := parts_of_expressionEnds hends
  exact refuses_seq_second (reads_indent hu hy) (refuses_exprPiece_end hends)

/-! ## Simple values -/

def morePieces : Peg := .many (.all (.rule .pieceGap) [.rule .exprPiece])

theorem takes_gap_indent (hb : continues behind = false) (h : cs.all isIndent = true)
    (hr : Stops isIndent rest) : (Peg.rule .pieceGap).Takes behind cs rest := by
  refine (takes_lexeme_iff rfl).2 ?_
  simp [Token.width, hb, indentWidth_append h hr]

/-- After an operand there is no further piece where the expression ends. -/
theorem takes_morePieces_end (hb : continues behind = false) (h : expressionEnds rest = true) :
    morePieces.Takes behind [] rest := by
  refine ⟨_, reads_many_nil fun _ => ?_⟩
  obtain ⟨u, y, rfl, hu, hy, hends⟩ := parts_of_expressionEnds h
  obtain ⟨_, hgap⟩ := takes_gap_indent hb hu hy
  exact refuses_seq_second hgap (refuses_exprPiece_end hends)

def IsOperand (cs : List Char) : Prop :=
  cs.all isWord = true ∧ cs ≠ [] ∨ Quoted runeWidth '\'' cs

theorem form_of_operand (h : (Peg.rule .operand).Takes behind cs rest) : IsOperand cs := by
  rcases h.body.cases with hint | ⟨_, h⟩
  · have hword := all_isWord_of_integerWidth ((takes_lexeme_iff (t := .integer) rfl).1 hint)
    rw [List.take_left] at hword
    exact .inl ⟨hword, hint.ne_nil rfl⟩
  · rcases h.cases with hrune | ⟨_, hname⟩
    · exact .inr (quoted_rune ((takes_lexeme_iff (t := .rune) rfl).1 hrune))
    · have hname := isIdentifier_take ((takes_lexeme_iff (t := .identifier) rfl).1 hname)
      rw [List.take_left] at hname
      exact .inl ⟨all_isWord_of_isIdentifier hname, ne_nil_of_isIdentifier hname⟩

namespace IsOperand

/-- A line does not go on after an operand. -/
theorem continues_eq_false (h : IsOperand cs) : continues (cs.reverse ++ behind) = false := by
  refine Grammar.continues_eq_false fun c hc => ?_
  rcases h with ⟨hword, hne⟩ | ⟨body, rfl, _⟩
  · rw [List.head?_append_of_ne_nil _ (by simpa using hne)] at hc
    have hmem := List.mem_reverse.1 (List.mem_of_mem_head? hc)
    exact isOpenEnded_eq_false (by decide) (List.all_eq_true.1 hword c hmem)
  · rw [List.reverse_append] at hc
    obtain rfl := Option.some.inj hc
    decide

theorem takes_piece (h : IsOperand cs) (hr : Stops isBare rest) :
    (Peg.rule .exprPiece).Takes behind cs rest := by
  cases h with
  | inl hword => exact takes_bare (all_imp (fun _ => isBare_of_isWord) hword.1) hword.2 hr
  | inr hrune => exact takes_rune hrune

end IsOperand

/-- White space and comments do not begin with a bare character. -/
theorem stops_of_trivia (h : triviaWidth (cs ++ rest) = cs.length) (hne : cs ≠ []) :
    Stops isBare cs := by
  cases cs with
  | nil => exact absurd rfl hne
  | cons c cs =>
      refine stops_cons.2 ?_
      by_contra hbare
      rw [Bool.not_eq_false] at hbare
      have hplain : isSpace c = false ∧ c ≠ '/' := by
        simp only [isBare, Bool.not_eq_true', Bool.or_eq_false_iff] at hbare
        refine ⟨hbare.1.1.2, ?_⟩
        rintro rfl
        exact absurd hbare.1.1.1 (by decide)
      have hsolid : triviaWidth (c :: cs ++ rest) = 0 := solid_cons hplain.1 hplain.2
      rw [hsolid] at h
      cases h

/-- Bare characters up to an operator, white space and an operand are pieces up to the end of the
expression. The first of them may go as far as the operand. -/
theorem takes_pieces (behind : List Char) {w v b : List Char} {op : Char}
    (hw : (w ++ [op]).all isBare = true)
    (hop : op ∈ ['+', '-']) (hv : triviaWidth (v ++ (b ++ rest)) = v.length) (hb : IsOperand b)
    (hr : expressionEnds rest = true) :
    ∃ p q, (w ++ [op]) ++ (v ++ b) = p ++ q ∧ p ≠ [] ∧
      (Peg.rule .exprPiece).Takes behind p (q ++ rest) ∧
      morePieces.Takes (p.reverse ++ behind) q rest := by
  have hstop := stops_of_expressionEnds hr
  by_cases hjoined : v = [] ∧ b.all isBare = true
  · obtain ⟨rfl, hbare⟩ := hjoined
    have hall : (w ++ [op] ++ b).all isBare = true := by
      rw [List.all_append, hw, hbare]
      rfl
    refine ⟨w ++ [op] ++ b, [], by simp, by simp, takes_bare hall (by simp) hstop, ?_⟩
    rw [List.reverse_append, List.append_assoc]
    exact takes_morePieces_end hb.continues_eq_false hr
  · have hnext : Stops isBare (v ++ b ++ rest) := by
      cases v with
      | cons c v => exact stops_cons.2 (stops_cons.1 (stops_of_trivia hv (by simp)))
      | nil =>
          rcases hb with ⟨hword, _⟩ | ⟨body, rfl, _⟩
          · exact absurd ⟨rfl, all_imp (fun _ => isBare_of_isWord) hword⟩ hjoined
          · exact stops_cons.2 (by decide)
    have hgap : (Peg.rule .pieceGap).Takes ((w ++ [op]).reverse ++ behind) v (b ++ rest) := by
      have hcontinues : continues ((w ++ [op]).reverse ++ behind) = true := by
        rw [List.reverse_append]
        simp only [List.mem_cons, List.not_mem_nil, or_false] at hop
        rcases hop with rfl | rfl <;> exact continues_cons (by decide) (by decide) _
      refine (takes_lexeme_iff rfl).2 ?_
      simp only [Token.width, hcontinues, if_true, hv]
    have hmore : morePieces.Takes ((w ++ [op]).reverse ++ behind) (v ++ b ++ []) rest := by
      refine .many_cons ?_ (.seq hgap (hb.takes_piece hstop)) ?_
      · intro hnil
        have hne : b ≠ [] := by
          rcases hb with hword | ⟨body, rfl, _⟩
          · exact hword.2
          · simp
        exact hne (List.append_eq_nil_iff.1 hnil).2
      · rw [List.reverse_append, List.append_assoc]
        exact takes_morePieces_end hb.continues_eq_false hr
    rw [List.append_nil] at hmore
    exact ⟨w ++ [op], v ++ b, rfl, by simp, takes_bare hw (by simp) hnext, hmore⟩

theorem form_of_addOp (h : (Peg.rule .addOp).Takes behind cs rest) :
    ∃ op, cs = [op] ∧ op ∈ ['+', '-'] := by
  rcases h.body.cases with ⟨_, hplus⟩ | ⟨_, _, hminus⟩
  · exact ⟨'+', (lit_of_reads hplus).1, by simp⟩
  · exact ⟨'-', (lit_of_reads hminus).1, by simp⟩

/-- A sum or difference goes as far in pieces. -/
theorem takes_pieces_of_binary (h : (Peg.rule .binaryExpr).Takes behind cs rest)
    (hr : expressionEnds rest = true) : (Peg.rule .verbatimExpr).Takes behind cs rest := by
  obtain ⟨a, _, rfl, ha, h⟩ := h.body.parts
  obtain ⟨u, _, rfl, hu, h⟩ := h.parts
  obtain ⟨o, _, rfl, ho, h⟩ := h.parts
  obtain ⟨v, b, rfl, hv, hb⟩ := h.parts
  obtain ⟨op, rfl, hop⟩ := form_of_addOp ho
  obtain ⟨hindent, hplain⟩ := form_of_indent hu
  have htrivia := takes_trivia_iff.1 hv
  have hbare : ([] ++ [op]).all isBare = true := by
    simp only [List.mem_cons, List.not_mem_nil, or_false] at hop
    rcases hop with rfl | rfl <;> decide
  have hleft := form_of_operand ha
  by_cases hjoined : u = [] ∧ a.all isBare = true
  · -- The left operand and the operator are in one piece.
    obtain ⟨rfl, hall⟩ := hjoined
    have hrun : (a ++ [op]).all isBare = true := by
      rw [List.all_append, hall]
      exact hbare
    obtain ⟨p, q, heq, _, hp, hq⟩ :=
      takes_pieces behind hrun hop htrivia (form_of_operand hb) hr
    have hall := hp.seq hq
    rw [← heq, List.append_assoc] at hall
    exact .rule hall
  · obtain ⟨p, q, heq, hne, hp, hq⟩ := takes_pieces (u.reverse ++ (a.reverse ++ behind))
      hbare hop htrivia (form_of_operand hb) hr
    rw [List.nil_append] at heq
    have htext : [op] ++ (v ++ b) ++ rest = p ++ (q ++ rest) := by rw [heq, List.append_assoc]
    rw [htext] at hplain
    have hgap : (Peg.rule .pieceGap).Takes (a.reverse ++ behind) u (p ++ (q ++ rest)) :=
      takes_gap_indent hleft.continues_eq_false hindent hplain
    have hmore : morePieces.Takes (a.reverse ++ behind) (u ++ p ++ q) rest := by
      refine .many_cons (by simp [hne]) (.seq hgap hp) ?_
      rw [List.reverse_append, List.append_assoc]
      exact hq
    have hfirst : (Peg.rule .exprPiece).Takes behind a (u ++ p ++ q ++ rest) := by
      cases hleft with
      | inr hrune => exact takes_rune hrune
      | inl hword =>
          have hbareLeft := all_imp (fun _ => isBare_of_isWord) hword.1
          refine takes_bare hbareLeft hword.2 ?_
          cases u with
          | nil => exact absurd ⟨rfl, hbareLeft⟩ hjoined
          | cons c u =>
              have hc := isSpace_of_isIndent (List.all_eq_true.1 hindent c (by simp))
              exact stops_cons.2 (by simp [isBare, hc])
    rw [heq, ← List.append_assoc u]
    exact .rule (hfirst.seq hmore)

theorem verbatimExpr_covers_simpleExpr : (Peg.rule .verbatimExpr).Covers (.rule .simpleExpr) := by
  intro behind cs rest h
  obtain ⟨a, b, rfl, hshape, hend⟩ := h.body.parts
  obtain ⟨rfl, hends⟩ := form_of_exprEnd hend
  rw [List.append_nil]
  rcases hshape.body.cases with hbinary | ⟨_, hoperand⟩
  · exact takes_pieces_of_binary hbinary hends
  · have hform := form_of_operand hoperand
    have hpiece : (Peg.rule .exprPiece).Takes behind a ([] ++ rest) :=
      hform.takes_piece (stops_of_expressionEnds hends)
    have hall := hpiece.seq (takes_morePieces_end hform.continues_eq_false hends)
    rw [List.append_nil] at hall
    exact .rule hall

end EnumNames.Grammar
