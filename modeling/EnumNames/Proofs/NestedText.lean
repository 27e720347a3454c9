import EnumNames.Proofs.Inversion
import EnumNames.Proofs.RuneValue

/-!
Nested text. A group is taken from a bracket up to the one that closes it, past
the brackets in literals and comments. What may stand inside is said by `Nested`
without regard to what follows, and each such text is taken in the same way
before every rest.
-/

namespace EnumNames.Grammar

open EnumNames.Text

variable {behind rest more cs : List Char} {f : Forest}

/-- A run of characters ends where no further one is of the kind. -/
theorem run_of_takeWhile {p : Char → Bool} {cs rest : List Char}
    (h : ((cs ++ rest).takeWhile p).length = cs.length) : cs.all p = true ∧ Stops p rest := by
  induction cs with
  | nil =>
      refine ⟨rfl, ?_⟩
      cases rest with
      | nil => exact stops_nil p
      | cons c rest =>
          rw [stops_cons]
          by_contra hc
          rw [Bool.not_eq_false] at hc
          simp [hc] at h
  | cons c cs ih =>
      by_cases hc : p c = true
      · have ih := ih (by simpa [hc] using h)
        exact ⟨by simp [hc, ih.1], ih.2⟩
      · simp [hc] at h

/-! ## First characters -/

def brackets : List (Char × Char) := [('(', ')'), ('[', ']'), ('\x7b', '\x7d')]

theorem opening_bracket : ∀ pair ∈ brackets,
    isSpace pair.1 = false ∧ pair.1 ≠ '/' ∧ isGroupText pair.1 = false := by
  decide

def quotes : List Char := ['"', rawQuote, '\'']

theorem forall_quotes {P : Char → Prop} (h : P '"' ∧ P rawQuote ∧ P '\'') : ∀ q ∈ quotes, P q := by
  simpa [quotes] using h

def isOpener (c : Char) : Bool := (brackets.map (·.1)).contains c || quotes.contains c

theorem isOpener_eq_false_of_plain {c : Char} (h : isStructural c = false) :
    isOpener c = false := by
  simp only [isStructural, List.contains_eq_mem, decide_eq_false_iff_not, List.mem_cons,
    List.not_mem_nil, or_false, not_or] at h
  simp [isOpener, brackets, quotes, h]

theorem refuses_group (h : Stops (brackets.map (·.1)).contains cs) :
    (Peg.rule .group).Refuses behind cs := by
  have hlit : ∀ c ∈ brackets.map (·.1), Stops (· == c) cs := fun c hc =>
    h.mono fun d hd => by
      rw [beq_iff_eq.1 hd]
      simpa using hc
  refine refuses_rule (refuses_choice ?_ (refuses_choice ?_ ?_))
  · exact refuses_rule (refuses_seq_first (refuses_lit (hlit '(' (by decide))))
  · exact refuses_rule (refuses_seq_first (refuses_lit (hlit '[' (by decide))))
  · exact refuses_rule (refuses_seq_first (refuses_lit (hlit '\x7b' (by decide))))

theorem stringWidth_eq_none {c : Char} {cs : List Char} (h : c ≠ '"') :
    stringWidth (c :: cs) = none := by
  unfold stringWidth
  split
  · next heq => exact absurd (List.cons.inj heq).1 h
  · rfl

theorem refuses_stringLit {c : Char} {cs : List Char} (h : c ≠ '"') :
    (Peg.rule .stringLit).Refuses behind (c :: cs) :=
  refuses_lexeme rfl (stringWidth_eq_none h)

/-- Text that opens nothing goes on to what comes after groups and literals in a choice. -/
theorem refuses_openers {c : Char} (behind cs : List Char) (h : isOpener c = false) :
    (Peg.rule .group).Refuses behind (c :: cs) ∧ (Peg.rule .stringLit).Refuses behind (c :: cs) ∧
      (Peg.rule .rawString).Refuses behind (c :: cs) ∧
      (Peg.rule .charLit).Refuses behind (c :: cs) := by
  obtain ⟨hbracket, hquote⟩ := Bool.or_eq_false_iff.1 h
  simp only [quotes, List.contains_eq_mem, decide_eq_false_iff_not, List.mem_cons,
    List.not_mem_nil, or_false, not_or] at hquote
  obtain ⟨hstring, hraw, hrune⟩ := hquote
  refine ⟨refuses_group (stops_cons.2 hbracket), refuses_stringLit hstring,
    refuses_lexeme rfl ?_, refuses_lexeme rfl (runeWidth_eq_none hrune)⟩
  simp [Token.width, rawStringWidth, hraw]

theorem reads_past_openers {e : Peg} {c : Char} {cs : List Char} (h : isOpener c = false)
    (he : e.Reads behind (c :: cs) rest f) :
    (Peg.any (.rule .group) [.rule .stringLit, .rule .rawString, .rule .charLit, e]).Reads behind
      (c :: cs) rest f := by
  obtain ⟨hgroup, hstring, hraw, hrune⟩ := refuses_openers behind (cs ++ rest) h
  exact reads_choice_second hgroup (reads_choice_second hstring
    (reads_choice_second hraw (reads_choice_second hrune he)))

theorem refuses_past_openers {e : Peg} {c : Char} {cs : List Char} (h : isOpener c = false)
    (he : e.Refuses behind (c :: cs)) :
    (Peg.any (.rule .group) [.rule .stringLit, .rule .rawString, .rule .charLit, e]).Refuses behind
      (c :: cs) := by
  obtain ⟨hgroup, hstring, hraw, hrune⟩ := refuses_openers behind cs h
  exact refuses_choice hgroup (refuses_choice hstring (refuses_choice hraw
    (refuses_choice hrune he)))

theorem isGroupText_of_isSpace {c : Char} (h : isSpace c = true) : isGroupText c = true := by
  have hall : ['(', ')', '[', ']', '\x7b', '\x7d', '"', '\'', rawQuote, '/'].all
      (!isSpace ·) = true := by decide
  rw [isGroupText, isStructural, List.contains_eq_mem, Bool.not_eq_true', decide_eq_false_iff_not]
  intro hmem
  have hc := List.all_eq_true.1 hall c hmem
  simp [h] at hc

def isFlat (c : Char) : Bool := isGroupText c && (isIndent c || !isSpace c)

theorem isGroupText_of_isFlat {c : Char} (h : isFlat c = true) : isGroupText c = true :=
  (Bool.and_eq_true_iff.1 h).1

theorem isFlat_of_isWord {c : Char} (h : isWord c = true) : isFlat c = true := by
  simp [isFlat, isGroupText, isStructural_eq_false_of_isWord h, isSpace_eq_false_of_isWord h]

theorem isFlat_of_isBare {c : Char} (h : isBare c = true) : isFlat c = true := by
  simp only [isBare, Bool.not_eq_true', Bool.or_eq_false_iff] at h
  simp [isFlat, isGroupText, h.1.1.1, h.1.1.2]

theorem isFlat_of_isIndent {c : Char} (h : isIndent c = true) : isFlat c = true := by
  simp [isFlat, isGroupText_of_isSpace (isSpace_of_isIndent h), h]

/-! ## Literals -/

theorem stringTailWidth_plain {c : Char} (cs : List Char) (hq : c ≠ '"') (hb : c ≠ '\\')
    (hn : c ≠ '\n') : stringTailWidth (c :: cs) = passed 1 (stringTailWidth cs) := by
  rw [stringTailWidth.eq_4 c cs (by simpa using hq) (by simp [hb])]
  simp [hb, hn]

theorem closed_stringTail {s : List Char} {n : Nat} (h : stringTailWidth s = some n) :
    ∃ body, s.take n = body ++ ['"'] ∧
      ∀ rest, stringTailWidth (body ++ '"' :: rest) = some n := by
  fun_induction stringTailWidth s generalizing n with
  | case1 | case3 | case5 => cases h
  | case2 =>
      cases h
      exact ⟨[], rfl, fun _ => rfl⟩
  | case4 c cs hc ih =>
      obtain ⟨k, hk, rfl⟩ := passed_eq_some.1 h
      obtain ⟨body, hbody, hclosed⟩ := ih hk
      refine ⟨'\\' :: c :: body, by simp [Nat.add_comm 2 k, hbody], fun rest => ?_⟩
      simp only [List.cons_append, stringTailWidth, hc, Bool.false_eq_true, if_false, hclosed rest]
      rfl
  | case6 c cs hq hb hn ih =>
      obtain ⟨k, hk, rfl⟩ := passed_eq_some.1 h
      obtain ⟨body, hbody, hclosed⟩ := ih hk
      refine ⟨c :: body, by simp [Nat.add_comm 1 k, hbody], fun rest => ?_⟩
      simp only [Bool.or_eq_true, beq_iff_eq, not_or] at hn
      rw [List.cons_append, stringTailWidth_plain _ hq hn.1 hn.2, hclosed rest]
      rfl

theorem runeWidth_of_form {body : List Char} (h : Rune.Form body) (rest : List Char) :
    runeWidth ('\'' :: body ++ '\'' :: rest) = some (body.length + 2) := by
  have hdigits : ∀ (p : Char → Bool) (ds : List Char), ds.all p = true →
      exactWidth p ds.length (ds ++ '\'' :: rest) = some ds.length := by
    intro p ds hp
    simp [exactWidth, hp]
  have hbody : runeBodyWidth (body ++ '\'' :: rest) = some body.length := by
    cases h with
    | plain c quote backslash newline =>
        rw [List.singleton_append, runeBodyWidth_plain backslash]
        simp [quote, newline]
    | hex mark ds digits length =>
        have hds := hdigits isHexDigit ds digits
        simp only [List.mem_cons, Prod.mk.injEq, List.not_mem_nil, or_false] at length
        rcases length with ⟨rfl, hlen⟩ | ⟨rfl, hlen⟩ | ⟨rfl, hlen⟩ <;>
          · rw [hlen] at hds
            simp [runeBodyWidth, hds, passed, hlen]
    | octal ds digits length =>
        have hds := hdigits isOctalDigit ds digits
        cases ds with
        | nil => cases length
        | cons d ds =>
            have hd : isOctalDigit d = true := by
              simp only [List.all_cons, Bool.and_eq_true] at digits
              exact digits.1
            have hne : d ≠ 'x' ∧ d ≠ 'u' ∧ d ≠ 'U' := by
              refine ⟨?_, ?_, ?_⟩ <;>
                · rintro rfl
                  cases hd
            rw [length] at hds
            simp only [List.cons_append] at hds ⊢
            simp [runeBodyWidth, hne, hd, hds, passed, length]
    | simple c letter =>
        have hne : c ≠ 'x' ∧ c ≠ 'u' ∧ c ≠ 'U' ∧ isOctalDigit c = false := by
          simp only [isSimpleEscape, List.contains_eq_mem, decide_eq_true_eq, List.mem_cons,
            List.not_mem_nil, or_false] at letter
          rcases letter with rfl | rfl | rfl | rfl | rfl | rfl | rfl | rfl | rfl <;> decide
        simp [runeBodyWidth, hne, letter]
  simp [runeWidth, hbody]

/-- What a text of one character more is, if that character is known. -/
theorem eq_take_concat {cs rest : List Char} {k : Nat} {q : Char} (hlen : cs.length = k + 1)
    (hq : ((cs ++ rest).drop k).head? = some q) : cs = (cs ++ rest).take k ++ [q] := by
  have hone : ∃ c, cs.drop k = [c] := by
    refine List.length_eq_one_iff.1 ?_
    rw [List.length_drop]
    omega
  obtain ⟨c, hc⟩ := hone
  have hle : k ≤ cs.length := by omega
  rw [List.drop_append_of_le_length hle, hc] at hq
  obtain rfl : c = q := by simpa using hq
  rw [List.take_append_of_le_length hle, ← hc, List.take_append_drop]

/-- Text between two marks that takes its width from them, whatever follows. -/
def Quoted (width : List Char → Option Nat) (q : Char) (cs : List Char) : Prop :=
  ∃ body, cs = q :: body ++ [q] ∧ ∀ rest, width (cs ++ rest) = some cs.length

theorem quoted_string (h : stringWidth (cs ++ rest) = some cs.length) :
    Quoted stringWidth '"' cs := by
  cases cs with
  | nil => exact absurd (stringWidth_bounds h).1 (Nat.lt_irrefl 0)
  | cons c cs =>
      by_cases hc : c = '"'
      · subst hc
        obtain ⟨k, hk, hlen⟩ := passed_eq_some.1 h
        obtain ⟨body, hbody, hclosed⟩ := closed_stringTail hk
        obtain rfl : k = cs.length := by
          simp only [List.length_cons] at hlen
          omega
        rw [show (List.append cs rest).take cs.length = cs from List.take_left] at hbody
        subst hbody
        refine ⟨body, rfl, fun rest => ?_⟩
        have hrest := hclosed rest
        simp only [List.cons_append, List.append_assoc, List.nil_append, stringWidth, hrest, passed,
          Option.map_some, List.length_cons]
        rw [Nat.add_comm]
      · rw [List.cons_append, stringWidth_eq_none hc] at h
        cases h

theorem quoted_rawString (h : rawStringWidth (cs ++ rest) = some cs.length) :
    Quoted rawStringWidth rawQuote cs := by
  cases cs with
  | nil => exact absurd (rawStringWidth_bounds h).1 (Nat.lt_irrefl 0)
  | cons c cs =>
      obtain ⟨more, hmore⟩ := List.takeWhile_prefix (l := cs ++ rest) (· != rawQuote)
      simp only [List.cons_append, rawStringWidth, beq_iff_eq] at h
      generalize hbody : (cs ++ rest).takeWhile (· != rawQuote) = body at h hmore
      rw [← hmore] at hbody
      obtain ⟨hall, hstop⟩ := run_of_takeWhile (congrArg List.length hbody)
      rw [← hmore, List.drop_left] at h
      split_ifs at h with hc hne
      subst hc
      have hlen : cs.length = body.length + 1 := by
        simp only [Option.some.injEq, List.length_cons] at h
        omega
      have hhead : ((cs ++ rest).drop body.length).head? = some rawQuote := by
        rw [← hmore, List.drop_left]
        cases more with
        | nil => exact absurd rfl hne
        | cons c more => simpa using hstop
      have hcs := eq_take_concat hlen hhead
      rw [← hmore, List.take_left] at hcs
      refine ⟨body, by rw [hcs, List.cons_append], fun rest => ?_⟩
      have hwidth : (body ++ rawQuote :: rest).takeWhile (· != rawQuote) = body :=
        takeWhile_append_stops hall (by simp)
      rw [hcs]
      simp [rawStringWidth, hwidth]

theorem quoted_rune (h : runeWidth (cs ++ rest) = some cs.length) : Quoted runeWidth '\'' cs := by
  cases cs with
  | nil => exact absurd (runeWidth_bounds h).1 (Nat.lt_irrefl 0)
  | cons c cs =>
      by_cases hc : c = '\''
      · subst hc
        obtain ⟨k, hk, hq⟩ := Option.bind_eq_some_iff.1 h
        split at hq
        · next hquote =>
            have hlen : cs.length = k + 1 := by
              simp only [Option.some.injEq, List.length_cons] at hq
              omega
            have hcs := eq_take_concat hlen (by simpa using hquote)
            have hform := Rune.form_of_runeBodyWidth hk
            change Rune.Form ((cs ++ rest).take k) at hform
            generalize (cs ++ rest).take k = body at hcs hform
            subst hcs
            refine ⟨body, rfl, fun rest => ?_⟩
            have hwidth := runeWidth_of_form hform rest
            simpa using hwidth
        · cases hq
      · rw [List.cons_append, runeWidth_eq_none hc] at h
        cases h

def IsLiteral (cs : List Char) : Prop :=
  Quoted stringWidth '"' cs ∨ Quoted rawStringWidth rawQuote cs ∨ Quoted runeWidth '\'' cs

theorem IsLiteral.quoted (h : IsLiteral cs) :
    ∃ q body, q ∈ quotes ∧ cs = q :: body ++ [q] := by
  rcases h with ⟨body, hbody, _⟩ | ⟨body, hbody, _⟩ | ⟨body, hbody, _⟩
  · exact ⟨_, body, by decide, hbody⟩
  · exact ⟨_, body, by decide, hbody⟩
  · exact ⟨_, body, by decide, hbody⟩

/-- A literal is taken where groups and literals may stand. -/
theorem IsLiteral.reads (h : IsLiteral cs) (e : Peg) :
    ∃ f, ∀ behind rest, (Peg.any (.rule .group)
      [.rule .stringLit, .rule .rawString, .rule .charLit, e]).Reads behind cs rest f := by
  have hgroup : ∀ behind rest, (Peg.rule .group).Refuses behind (cs ++ rest) := by
    intro behind rest
    obtain ⟨q, body, hq, rfl⟩ := h.quoted
    refine refuses_group (stops_cons.2 ?_)
    simp only [quotes, List.mem_cons, List.not_mem_nil, or_false] at hq
    rcases hq with rfl | rfl | rfl <;> decide
  rcases h with ⟨body, hbody, hwidth⟩ | ⟨body, hbody, hwidth⟩ | ⟨body, hbody, hwidth⟩
  · exact ⟨_, fun behind rest => reads_choice_second (hgroup behind rest)
      (reads_choice_first (reads_lexeme rfl (hwidth rest)))⟩
  · have hstring : ∀ behind rest, (Peg.rule .stringLit).Refuses behind (cs ++ rest) := by
      intro behind rest
      rw [hbody, List.cons_append, List.cons_append]
      exact refuses_stringLit (by decide)
    exact ⟨_, fun behind rest => reads_choice_second (hgroup behind rest)
      (reads_choice_second (hstring behind rest)
        (reads_choice_first (reads_lexeme rfl (hwidth rest))))⟩
  · have hstring : ∀ behind rest, (Peg.rule .stringLit).Refuses behind (cs ++ rest) := by
      intro behind rest
      rw [hbody, List.cons_append, List.cons_append]
      exact refuses_stringLit (by decide)
    have hraw : ∀ behind rest, (Peg.rule .rawString).Refuses behind (cs ++ rest) := by
      intro behind rest
      rw [hbody]
      refine refuses_lexeme rfl ?_
      simp [Token.width, rawStringWidth, rawQuote]
    exact ⟨_, fun behind rest => reads_choice_second (hgroup behind rest)
      (reads_choice_second (hstring behind rest) (reads_choice_second (hraw behind rest)
        (reads_choice_first (reads_lexeme rfl (hwidth rest)))))⟩

/-- What is taken where groups and literals may stand is one of them, or is taken by what comes
after them. -/
theorem parts_of_reads_openers {e : Peg} (h : (Peg.any (.rule .group)
      [.rule .stringLit, .rule .rawString, .rule .charLit, e]).Reads behind cs rest f) :
    (Peg.rule .group).Reads behind cs rest f ∨ IsLiteral cs ∨ e.Reads behind cs rest f := by
  rcases parts_of_reads_choice h with h | ⟨_, h⟩
  · exact .inl h
  rcases parts_of_reads_choice h with h | ⟨_, h⟩
  · exact .inr (.inl (.inl (quoted_string (lexeme_of_reads (t := .string) rfl h).1)))
  rcases parts_of_reads_choice h with h | ⟨_, h⟩
  · exact .inr (.inl (.inr (.inl (quoted_rawString (lexeme_of_reads (t := .rawString) rfl h).1))))
  rcases parts_of_reads_choice h with h | ⟨_, h⟩
  · exact .inr (.inl (.inr (.inr (quoted_rune (lexeme_of_reads (t := .rune) rfl h).1))))
  · exact .inr (.inr h)

/-! ## Comments -/

theorem two_of_le_length {cs : List Char} (h : 2 ≤ cs.length) : ∃ x y ds, cs = x :: y :: ds := by
  rcases cs with _ | ⟨x, _ | ⟨y, cs⟩⟩
  · simp at h
  · simp at h
  · exact ⟨x, y, cs, rfl⟩

theorem form_of_closeWidth {p : Char → Bool} {s : List Char} {n : Nat}
    (h : closeWidth p s = some n) :
    ∃ body, s.take n = body ++ ['*', '/'] ∧ ¬ ['*', '/'] <:+: body ∧ body.all p = true := by
  induction s generalizing n with
  | nil => cases h
  | cons c s ih =>
      unfold closeWidth at h
      split at h
      · next heq =>
          cases h
          cases heq
          exact ⟨[], rfl, by simp, rfl⟩
      · next hne heq =>
          obtain ⟨rfl, rfl⟩ := List.cons.inj heq
          split at h
          · next hc =>
              obtain ⟨k, hk, rfl⟩ := passed_eq_some.1 h
              obtain ⟨body, hbody, hopen, hall⟩ := ih hk
              refine ⟨c :: body, by simp [Nat.add_comm 1 k, hbody], fun hin => ?_, by simp [hc, hall]⟩
              rcases List.infix_cons_iff.1 hin with hpre | hin
              · -- A mark at the head would have closed the comment here.
                obtain ⟨more, hmore⟩ := hpre
                obtain ⟨rfl, rfl⟩ := List.cons.inj hmore
                obtain ⟨d, s', rfl⟩ : ∃ d s', s = d :: s' := by
                  cases s with
                  | nil => simp at hbody
                  | cons d s' => exact ⟨d, s', rfl⟩
                cases k with
                | zero => simp at hbody
                | succ k =>
                    rw [List.take_succ_cons] at hbody
                    obtain ⟨hd, _⟩ := List.cons.inj hbody
                    exact hne s' rfl (by rw [hd])
              · exact hopen hin
          · cases h
      · next heq => cases heq

theorem form_of_lineCommentWidth (h : lineCommentWidth (cs ++ rest) = some cs.length) :
    ∃ body, cs = '/' :: '/' :: body ∧ '\n' ∉ body ∧ Stops (· != '\n') rest := by
  obtain ⟨x, y, cs, rfl⟩ := two_of_le_length (lineCommentWidth_bounds h).1
  unfold lineCommentWidth at h
  split at h
  · next heq =>
      cases heq
      have hlen : ((cs ++ rest).takeWhile (· != '\n')).length = cs.length := by
        have hlen := Option.some.inj h
        change 2 + ((cs ++ rest).takeWhile (· != '\n')).length = cs.length + 2 at hlen
        omega
      obtain ⟨hall, hstop⟩ := run_of_takeWhile hlen
      refine ⟨cs, rfl, fun hmem => ?_, hstop⟩
      simpa using List.all_eq_true.1 hall _ hmem
  · cases h

theorem form_of_blockCommentWidth {p : Char → Bool}
    (h : blockCommentWidth p (cs ++ rest) = some cs.length) :
    ∃ body, cs = '/' :: '*' :: body ++ ['*', '/'] ∧ ¬ ['*', '/'] <:+: body ∧
      body.all p = true := by
  obtain ⟨x, y, cs, rfl⟩ := two_of_le_length (blockCommentWidth_bounds h).1
  unfold blockCommentWidth at h
  split at h
  · next heq =>
      cases heq
      obtain ⟨k, hk, hlen⟩ := passed_eq_some.1 h
      obtain rfl : k = cs.length := by
        simp only [List.length_cons] at hlen
        omega
      obtain ⟨body, hbody, hopen, hall⟩ := form_of_closeWidth hk
      rw [show (List.append cs rest).take cs.length = cs from List.take_left] at hbody
      exact ⟨body, by rw [hbody]; rfl, hopen, hall⟩
  · cases h

/-- A comment is one up to the end of its line, or a block. -/
theorem form_of_commentWidth (h : commentWidth (cs ++ rest) = some cs.length) :
    (∃ body, cs = '/' :: '/' :: body ∧ '\n' ∉ body ∧ Stops (· != '\n') rest) ∨
      ∃ body, cs = '/' :: '*' :: body ++ ['*', '/'] ∧ ¬ ['*', '/'] <:+: body := by
  rcases Option.or_eq_some_iff.1 h with h | ⟨_, h⟩
  · exact .inl (form_of_lineCommentWidth h)
  · obtain ⟨body, hcs, hopen, _⟩ := form_of_blockCommentWidth h
    exact .inr ⟨body, hcs, hopen⟩

/-- A block comment has its width from its marks, whatever follows. -/
theorem commentWidth_block {body : List Char} (h : ¬ ['*', '/'] <:+: body) (rest : List Char) :
    commentWidth ('/' :: '*' :: body ++ ['*', '/'] ++ rest) = some (body.length + 4) := by
  have hblock := blockCommentWidth_append (p := fun _ => true) h (by simp) rest
  simp only [List.cons_append] at hblock
  simp [commentWidth, lineCommentWidth, hblock]

/-! ## Slashes -/

/-- What follows a slash does not make it a comment. -/
def isCommentMark (c : Char) : Bool := c == '/' || c == '*'

theorem slashWidth_cons_iff {n : Nat} {cs : List Char} :
    slashWidth ('/' :: cs) = some n ↔ n = 1 ∧ Stops isCommentMark cs := by
  cases cs with
  | nil => simp [slashWidth, stops_nil, eq_comm]
  | cons c cs =>
      by_cases h : isCommentMark c = true
      · have hmark : c = '/' ∨ c = '*' := by simpa [isCommentMark] using h
        simp [slashWidth, h, hmark]
      · have hmark : ¬ (c = '/' ∨ c = '*') := by simpa [isCommentMark] using h
        simp only [slashWidth, List.head?_cons, beq_iff_eq, Option.some.injEq, Bool.or_eq_true,
          hmark, if_false, stops_cons, h, and_true]
        exact eq_comm

theorem slashWidth_eq_none (h : Stops (· == '/') cs) : slashWidth cs = none := by
  unfold slashWidth
  split
  · simp at h
  · rfl

/-- A slash without a mark after it begins no comment of either form. -/
theorem comment_slash_eq_none (p : Char → Bool) (h : Stops isCommentMark cs) :
    lineCommentWidth ('/' :: cs) = none ∧ blockCommentWidth p ('/' :: cs) = none := by
  cases cs with
  | nil => exact ⟨rfl, rfl⟩
  | cons c cs =>
      simp only [stops_cons, isCommentMark, Bool.or_eq_false_iff, beq_eq_false_iff_ne] at h
      simp [lineCommentWidth, blockCommentWidth, h]

theorem comment_eq_none (p : Char → Bool) (h : Stops (· == '/') cs) :
    lineCommentWidth cs = none ∧ blockCommentWidth p cs = none := by
  cases cs with
  | nil => exact ⟨rfl, rfl⟩
  | cons c cs =>
      have hc : c ≠ '/' := by simpa using h
      simp [lineCommentWidth, blockCommentWidth, hc]

theorem commentWidth_slash_eq_none (h : Stops isCommentMark cs) :
    commentWidth ('/' :: cs) = none := by
  obtain ⟨hline, hblock⟩ := comment_slash_eq_none (fun _ => true) h
  rw [commentWidth, hline, hblock, Option.none_or]

theorem form_of_slashWidth (h : slashWidth (cs ++ rest) = some cs.length) :
    cs = ['/'] ∧ Stops isCommentMark rest := by
  have hbounds := slashWidth_bounds h
  cases cs with
  | nil => simp at hbounds
  | cons c cs =>
      have hc : c = '/' := by
        by_contra hc
        rw [List.cons_append, slashWidth_eq_none (stops_cons.2 (by simpa using hc))] at h
        cases h
      subst hc
      obtain ⟨hlen, hstop⟩ := slashWidth_cons_iff.1 h
      obtain rfl : cs = [] := by simpa using hlen
      exact ⟨rfl, hstop⟩

/-! ## Groups -/

/-- Text in which brackets are paired, apart from those in literals and comments. -/
inductive Nested : List Char → Prop where
  | nil : Nested []
  | text (c : Char) (cs : List Char) (plain : isGroupText c = true) (tail : Nested cs) :
      Nested (c :: cs)
  | literal (item cs : List Char) (whole : IsLiteral item) (tail : Nested cs) : Nested (item ++ cs)
  | line (body cs : List Char) (oneLine : '\n' ∉ body) (tail : Nested cs) :
      Nested ('/' :: '/' :: body ++ '\n' :: cs)
  | block (body cs : List Char) (unclosed : ¬ ['*', '/'] <:+: body) (tail : Nested cs) :
      Nested ('/' :: '*' :: body ++ ['*', '/'] ++ cs)
  | slash (cs : List Char) (lone : Stops isCommentMark cs) (tail : Nested cs) : Nested ('/' :: cs)
  | group (pair : Char × Char) (inner cs : List Char) (paired : pair ∈ brackets)
      (inside : Nested inner) (tail : Nested cs) : Nested ((pair.1 :: inner ++ [pair.2]) ++ cs)

def Closing (rest : List Char) : Prop := ∃ pair ∈ brackets, ∃ more, rest = pair.2 :: more

theorem Closing.stops (hr : Closing rest) : Stops isGroupText rest := by
  have hclose : ∀ pair ∈ brackets, isGroupText pair.2 = false := by decide
  obtain ⟨pair, hp, more, rfl⟩ := hr
  exact stops_cons.2 (hclose pair hp)

theorem Closing.stops_mark (hr : Closing rest) : Stops isCommentMark rest := by
  have hclose : ∀ pair ∈ brackets, isCommentMark pair.2 = false := by decide
  obtain ⟨pair, hp, more, rfl⟩ := hr
  exact stops_cons.2 (hclose pair hp)

theorem refuses_groupItem (hr : Closing rest) : (Peg.rule .groupItem).Refuses behind rest := by
  obtain ⟨pair, hp, more, rfl⟩ := hr
  simp only [brackets, List.mem_cons, List.not_mem_nil, or_false] at hp
  rcases hp with rfl | rfl | rfl <;>
    exact refuses_rule (refuses_past_openers (by decide)
      (refuses_choice (refuses_lexeme rfl rfl)
        (refuses_choice (refuses_lexeme rfl rfl) (refuses_lexeme rfl rfl))))

/-- Text between brackets that is taken alike before every rest makes a group that is. -/
theorem reads_group {pair : Char × Char} {inner : List Char} (hp : pair ∈ brackets)
    (h : ∃ f, ∀ behind rest, Closing rest →
      (Peg.many (.rule .groupItem)).Reads behind inner rest f) :
    ∃ f, ∀ behind rest,
      (Peg.rule .group).Reads behind (pair.1 :: inner ++ [pair.2]) rest f := by
  obtain ⟨f, hf⟩ := h
  have hbody : ∀ behind rest, (Peg.all (.lit pair.1) [.rule .groupBody, .lit pair.2]).Reads behind
      ([pair.1] ++ (inner ++ [pair.2])) rest _ := fun behind rest =>
    reads_seq (reads_lit pair.1) (reads_seq (reads_rule (hf _ _ ⟨pair, hp, rest, rfl⟩))
      (reads_lit pair.2))
  simp only [brackets, List.mem_cons, List.not_mem_nil, or_false] at hp
  rcases hp with rfl | rfl | rfl
  · exact ⟨_, fun behind rest => reads_rule (reads_choice_first (reads_rule (hbody behind rest)))⟩
  · have hparen : ∀ behind rest,
        (Peg.rule .parenGroup).Refuses behind ('[' :: inner ++ [']'] ++ rest) := fun _ _ =>
      refuses_rule (refuses_seq_first (refuses_lit (stops_cons.2 (by decide))))
    exact ⟨_, fun behind rest => reads_rule (reads_choice_second (hparen behind rest)
      (reads_choice_first (reads_rule (hbody behind rest))))⟩
  · have hparen : ∀ behind rest,
        (Peg.rule .parenGroup).Refuses behind ('\x7b' :: inner ++ ['\x7d'] ++ rest) := fun _ _ =>
      refuses_rule (refuses_seq_first (refuses_lit (stops_cons.2 (by decide))))
    have hbracket : ∀ behind rest,
        (Peg.rule .bracketGroup).Refuses behind ('\x7b' :: inner ++ ['\x7d'] ++ rest) := fun _ _ =>
      refuses_rule (refuses_seq_first (refuses_lit (stops_cons.2 (by decide))))
    exact ⟨_, fun behind rest => reads_rule (reads_choice_second (hparen behind rest)
      (reads_choice_second (hbracket behind rest) (reads_rule (hbody behind rest))))⟩

/-- A group is what stands between two brackets that pair. -/
theorem parts_of_reads_group (h : (Peg.rule .group).Reads behind cs rest f) :
    ∃ pair ∈ brackets, ∃ inner g, cs = pair.1 :: inner ++ [pair.2] ∧
      (Peg.many (.rule .groupItem)).Reads (pair.1 :: behind) inner (pair.2 :: rest) g := by
  have hparts : ∀ (pair : Char × Char) {r : Rule} {f : Forest}, pair ∈ brackets →
      r.body = Peg.all (.lit pair.1) [.rule .groupBody, .lit pair.2] →
      (Peg.rule r).Reads behind cs rest f →
      ∃ pair ∈ brackets, ∃ inner g, cs = pair.1 :: inner ++ [pair.2] ∧
        (Peg.many (.rule .groupItem)).Reads (pair.1 :: behind) inner (pair.2 :: rest) g := by
    intro pair r f hp hb h
    obtain ⟨f, _, h⟩ := body_of_reads h
    rw [hb] at h
    obtain ⟨a, b, _, _, rfl, hopen, h, _⟩ := parts_of_reads_seq h
    obtain ⟨rfl, _⟩ := lit_of_reads hopen
    obtain ⟨inner, b, _, _, rfl, hinner, hclose, _⟩ := parts_of_reads_seq h
    obtain ⟨rfl, _⟩ := lit_of_reads hclose
    obtain ⟨g, _, hinner⟩ := body_of_reads hinner
    exact ⟨pair, hp, inner, g, rfl, hinner⟩
  obtain ⟨f, _, h⟩ := body_of_reads h
  rcases parts_of_reads_choice h with h | ⟨_, h⟩
  · exact hparts ('(', ')') (by decide) rfl h
  rcases parts_of_reads_choice h with h | ⟨_, h⟩
  · exact hparts ('[', ']') (by decide) rfl h
  · exact hparts ('\x7b', '\x7d') (by decide) rfl h

namespace Nested

variable {ds : List Char}

/-- Plain characters may stand before nested text. -/
theorem plain_append (h : cs.all isGroupText = true) (h' : Nested ds) : Nested (cs ++ ds) := by
  induction cs with
  | nil => exact h'
  | cons c cs ih =>
      simp only [List.all_cons, Bool.and_eq_true] at h
      exact .text c _ h.1 (ih h.2)

/-- What nested text begins with, by its first character. -/
theorem cases_head {c : Char} (h : Nested (c :: cs)) :
    (isGroupText c = true ∧ Nested cs) ∨
      (c ∈ quotes ∧ ∃ item tail, c :: cs = item ++ tail ∧ IsLiteral item ∧ Nested tail) ∨
      (c = '/' ∧ ((∃ part tail, c :: cs = Filler.chars part ++ tail ∧ Nested tail) ∨
        Stops isCommentMark cs ∧ Nested cs)) ∨
      ∃ pair ∈ brackets, c = pair.1 ∧
        ∃ inner tail, cs = inner ++ pair.2 :: tail ∧ Nested inner ∧ Nested tail := by
  generalize heq : c :: cs = ds at h
  cases h with
  | nil => cases heq
  | text d ds plain tail =>
      cases heq
      exact .inl ⟨plain, tail⟩
  | literal item ds whole tail =>
      obtain ⟨q, body, hq, rfl⟩ := whole.quoted
      obtain ⟨rfl, _⟩ := List.cons.inj heq
      exact .inr (.inl ⟨hq, _, ds, rfl, whole, tail⟩)
  | line body ds oneLine tail =>
      obtain ⟨rfl, _⟩ := List.cons.inj heq
      exact .inr (.inr (.inl ⟨rfl, .inl ⟨.line body oneLine, ds, by simp [Filler.chars], tail⟩⟩))
  | block body ds unclosed tail =>
      obtain ⟨rfl, _⟩ := List.cons.inj heq
      exact .inr (.inr (.inl ⟨rfl, .inl ⟨.block body unclosed, ds, by simp [Filler.chars], tail⟩⟩))
  | slash ds lone tail =>
      cases heq
      exact .inr (.inr (.inl ⟨rfl, .inr ⟨lone, tail⟩⟩))
  | group pair inner ds paired inside tail =>
      obtain ⟨rfl, rfl⟩ := List.cons.inj heq
      exact .inr (.inr (.inr ⟨pair, paired, rfl, inner, ds, by simp, inside, tail⟩))

/-- Nested text may be cut after a plain character at its head. -/
theorem tail {c : Char} (h : Nested (c :: cs)) (hc : isGroupText c = true) : Nested cs := by
  have hquote : ∀ q ∈ quotes, isGroupText q = false := forall_quotes (by decide)
  have hbracket : ∀ pair ∈ brackets, isGroupText pair.1 = false := by decide
  rcases h.cases_head with ⟨_, tail⟩ | ⟨hq, _⟩ | ⟨rfl, _⟩ | ⟨pair, hp, rfl, _⟩
  · exact tail
  · rw [hquote c hq] at hc
    cases hc
  · exact absurd hc (by decide)
  · rw [hbracket pair hp] at hc
    cases hc

/-- A slash begins a comment that ends inside of nested text, or stands alone. -/
theorem slash_cases (h : Nested ('/' :: cs)) :
    (∃ body tail, cs = '/' :: body ++ '\n' :: tail ∧ '\n' ∉ body ∧ Nested tail) ∨
      (∃ body tail, cs = '*' :: body ++ ['*', '/'] ++ tail ∧ ¬ ['*', '/'] <:+: body ∧
        Nested tail) ∨
      Stops isCommentMark cs ∧ Nested cs := by
  have hquote : '/' ∉ quotes := by decide
  have hbracket : ∀ pair ∈ brackets, '/' ≠ pair.1 := by decide
  rcases h.cases_head with ⟨hc, _⟩ | ⟨hq, _⟩ | ⟨_, ⟨part, tail, heq, htail⟩ | hlone⟩ |
    ⟨pair, hp, heq, _⟩
  · exact absurd hc (by decide)
  · exact absurd hq hquote
  · cases part with
    | space c white =>
        obtain ⟨rfl, _⟩ := List.cons.inj heq
        exact absurd white (by decide)
    | line body oneLine =>
        refine .inl ⟨body, tail, ?_, oneLine, htail⟩
        simpa [Filler.chars] using heq
    | block body unclosed =>
        refine .inr (.inl ⟨body, tail, ?_, unclosed, htail⟩)
        simpa [Filler.chars] using heq
  · exact .inr (.inr hlone)
  · exact absurd heq (hbracket pair hp)

/-- A bracket is closed inside of nested text. -/
theorem of_bracket {pair : Char × Char} (h : Nested (pair.1 :: cs)) (hp : pair ∈ brackets) :
    ∃ inner tail, cs = inner ++ pair.2 :: tail ∧ Nested inner ∧ Nested tail := by
  have hother : ∀ pair ∈ brackets, pair.1 ∉ quotes := by decide
  have hsame : ∀ pair ∈ brackets, ∀ pair' ∈ brackets, pair.1 = pair'.1 → pair = pair' := by decide
  obtain ⟨_, hslash, hplain⟩ := opening_bracket pair hp
  rcases h.cases_head with ⟨hc, _⟩ | ⟨hq, _⟩ | ⟨heq, _⟩ | ⟨pair', hp', heq, hparts⟩
  · rw [hplain] at hc
    cases hc
  · exact absurd hq (hother pair hp)
  · exact absurd heq hslash
  · obtain rfl := hsame pair hp pair' hp' heq
    exact hparts

/-- Nested text does not begin with a bracket that closes a group. -/
theorem ne_close {c : Char} (h : Nested (c :: cs)) {pair : Char × Char} (hp : pair ∈ brackets) :
    c ≠ pair.2 := by
  have hclose : ∀ pair ∈ brackets, isGroupText pair.2 = false ∧ pair.2 ∉ quotes ∧ pair.2 ≠ '/' ∧
      ∀ pair' ∈ brackets, pair.2 ≠ pair'.1 := by decide
  obtain ⟨hplain, hother, hslash, hopen⟩ := hclose pair hp
  rintro rfl
  rcases h.cases_head with ⟨hc, _⟩ | ⟨hq, _⟩ | ⟨heq, _⟩ | ⟨pair', hp', heq, _⟩
  · rw [hplain] at hc
    cases hc
  · exact hother hq
  · exact hslash heq
  · exact hopen pair' hp' heq

/-- A quote begins a literal that ends inside of nested text. -/
theorem of_quote {q : Char} (h : Nested (q :: cs)) (hq : q ∈ quotes) :
    ∃ item tail, q :: cs = item ++ tail ∧ IsLiteral item ∧ Nested tail := by
  have hquote : ∀ q ∈ quotes, isGroupText q = false ∧ q ≠ '/' ∧ ∀ pair ∈ brackets, q ≠ pair.1 :=
    forall_quotes (by decide)
  obtain ⟨hplain, hslash, hopen⟩ := hquote q hq
  rcases h.cases_head with ⟨hc, _⟩ | ⟨_, hparts⟩ | ⟨heq, _⟩ | ⟨pair, hp, heq, _⟩
  · rw [hplain] at hc
    cases hc
  · exact hparts
  · exact absurd heq hslash
  · exact absurd heq (hopen pair hp)

/-- Nested text may be cut after plain characters. -/
theorem of_plain_append (h : Nested (cs ++ ds)) (hc : cs.all isGroupText = true) : Nested ds := by
  induction cs with
  | nil => exact h
  | cons c cs ih =>
      simp only [List.all_cons, Bool.and_eq_true] at hc
      exact ih (h.tail hc.1) hc.2

/-- White space and complete comments may stand before nested text. -/
theorem text_append (parts : List Filler) (h : Nested ds) : Nested (Filler.text parts ++ ds) := by
  induction parts with
  | nil => exact h
  | cons part parts ih =>
      rw [Filler.text_cons, List.append_assoc]
      cases part with
      | space c white => exact .text c _ (isGroupText_of_isSpace white) ih
      | line body oneLine =>
          rw [Filler.chars, List.append_assoc]
          exact .line body _ oneLine ih
      | block body unclosed => exact .block body _ unclosed ih

/-- Nested text is white space and comments, and then something solid or nothing. -/
theorem filler (h : Nested cs) : ∃ parts ds, cs = Filler.text parts ++ ds ∧ Nested ds ∧
    (ds = [] ∨ ∀ rest, Stops isCommentMark rest → Solid (ds ++ rest)) := by
  induction hn : cs.length using Nat.strongRecOn generalizing cs with
  | ind n ih =>
      subst hn
      have hpart : ∀ (part : Filler) (tail : List Char), cs = part.chars ++ tail → Nested tail →
          ∃ parts ds, cs = Filler.text parts ++ ds ∧ Nested ds ∧
            (ds = [] ∨ ∀ rest, Stops isCommentMark rest → Solid (ds ++ rest)) := by
        rintro part tail rfl htail
        have hlt : tail.length < (part.chars ++ tail).length := by
          cases part <;> simp [Filler.chars] <;> omega
        obtain ⟨parts, ds, rfl, hds, hsolid⟩ := ih tail.length hlt htail rfl
        exact ⟨part :: parts, ds, by simp, hds, hsolid⟩
      cases cs with
      | nil => exact ⟨[], [], rfl, h, .inl rfl⟩
      | cons c cs =>
          have hstay : (∀ rest, Stops isCommentMark rest → Solid (c :: cs ++ rest)) →
              ∃ parts ds, c :: cs = Filler.text parts ++ ds ∧ Nested ds ∧
                (ds = [] ∨ ∀ rest, Stops isCommentMark rest → Solid (ds ++ rest)) := fun hs =>
            ⟨[], c :: cs, rfl, h, .inr hs⟩
          have hquote : ∀ q ∈ quotes, isSpace q = false ∧ q ≠ '/' := forall_quotes (by decide)
          rcases h.cases_head with ⟨hc, tail⟩ | ⟨hq, _⟩ | ⟨rfl, hslash⟩ | ⟨pair, hp, rfl, _⟩
          · by_cases hs : isSpace c = true
            · exact hpart (.space c hs) cs rfl tail
            · have hne : c ≠ '/' := by
                rintro rfl
                exact absurd hc (by decide)
              exact hstay fun _ _ => solid_cons (by simpa using hs) hne
          · exact hstay fun _ _ => solid_cons (hquote c hq).1 (hquote c hq).2
          · rcases hslash with ⟨part, tail, heq, htail⟩ | ⟨hlone, _⟩
            · exact hpart part tail heq htail
            · refine hstay fun rest hr => ?_
              have hcomment := commentWidth_slash_eq_none (hlone.append hr)
              simp [Solid, triviaWidth, triviaFrom, hcomment, show isSpace '/' = false by decide]
          · obtain ⟨hs, hne, _⟩ := opening_bracket pair hp
            exact hstay fun _ _ => solid_cons hs hne

end Nested

/-- Plain characters are taken as far as they go. -/
theorem reads_groupText {c : Char} {cs : List Char} (h : (c :: cs).all isGroupText = true) :
    ∃ f, ∀ behind rest, Stops isGroupText rest →
      (Peg.rule .groupItem).Reads behind (c :: cs) rest f := by
  have hplain : isStructural c = false := by
    simp only [List.all_cons, Bool.and_eq_true] at h
    simpa [isGroupText] using h.1
  have hslash : c ≠ '/' := by
    rintro rfl
    simp [isStructural] at hplain
  exact ⟨_, fun behind rest hr => reads_rule (reads_past_openers (isOpener_eq_false_of_plain hplain)
    (reads_choice_second (refuses_lexeme rfl (commentWidth_eq_none hslash))
      (reads_choice_first (reads_lexeme rfl (runWidth_append h (by simp) hr)))))⟩

/-- A comment is taken by its own width. -/
theorem reads_comment {cs : List Char} {P : List Char → Prop}
    (h : ∀ rest, P rest → commentWidth ('/' :: cs ++ rest) = some (cs.length + 1)) :
    ∃ f, ∀ behind rest, P rest → (Peg.rule .groupItem).Reads behind ('/' :: cs) rest f :=
  ⟨_, fun _ rest hr => reads_rule (reads_past_openers (by decide)
    (reads_choice_first (reads_lexeme rfl (h rest hr))))⟩

theorem reads_loneSlash : ∃ f, ∀ behind rest, Stops isCommentMark rest →
    (Peg.rule .groupItem).Reads behind ['/'] rest f := by
  refine ⟨_, fun behind rest hr => reads_rule (reads_past_openers (by decide) (reads_choice_second
    (refuses_lexeme rfl (commentWidth_slash_eq_none hr)) (reads_choice_second ?_
      (reads_lexeme rfl (slashWidth_cons_iff.2 ⟨rfl, hr⟩)))))⟩
  exact refuses_lexeme rfl rfl

/-- Nested text is taken up to the bracket that closes its group, alike before every rest. -/
theorem Nested.reads (h : Nested cs) : ∃ f, ∀ behind rest, Closing rest →
    (Peg.many (.rule .groupItem)).Reads behind cs rest f := by
  -- Plain characters are taken in runs, so the induction is on the length.
  induction hn : cs.length using Nat.strongRecOn generalizing cs with
  | ind n ih =>
      subst hn
      have hmany : ∀ {item tail : List Char}, cs = item ++ tail → item ≠ [] → Nested tail →
          (∃ f, ∀ behind rest, Closing rest →
            (Peg.rule .groupItem).Reads behind item (tail ++ rest) f) →
          ∃ f, ∀ behind rest, Closing rest →
            (Peg.many (.rule .groupItem)).Reads behind cs rest f := by
        rintro item tail rfl hne htail ⟨f, hf⟩
        have hlt : tail.length < (item ++ tail).length := by
          have := List.length_pos_iff.2 hne
          rw [List.length_append]
          omega
        obtain ⟨g, hg⟩ := ih tail.length hlt htail rfl
        exact ⟨_, fun behind rest hr => reads_many_cons hne (hf behind rest hr) (hg _ rest hr)⟩
      cases h with
      | nil => exact ⟨.nil, fun _ _ hr => reads_many_nil fun _ => refuses_groupItem hr⟩
      | text c cs plain tail =>
          have hcs : c :: cs = (c :: cs.takeWhile isGroupText) ++ cs.dropWhile isGroupText := by
            rw [List.cons_append, List.takeWhile_append_dropWhile]
          have hall : (c :: cs.takeWhile isGroupText).all isGroupText = true := by
            simp only [List.all_cons, plain, List.all_takeWhile, Bool.and_true]
          obtain ⟨f, hf⟩ := reads_groupText hall
          have hsplit : Nested (cs.takeWhile isGroupText ++ cs.dropWhile isGroupText) := by
            rwa [List.takeWhile_append_dropWhile]
          refine hmany hcs (by simp) (hsplit.of_plain_append List.all_takeWhile)
            ⟨f, fun behind rest hr => hf behind _ ?_⟩
          have hhead := List.head?_dropWhile_not isGroupText cs
          cases hdrop : cs.dropWhile isGroupText with
          | nil => exact hr.stops
          | cons d ds => simpa [hdrop] using hhead
      | literal item cs whole tail =>
          obtain ⟨f, hf⟩ := whole.reads
            (.any (.rule .comment) [.rule .groupText, .rule .loneSlash])
          obtain ⟨q, body, _, hitem⟩ := whole.quoted
          exact hmany rfl (by simp [hitem]) tail ⟨_, fun behind rest _ => reads_rule (hf behind _)⟩
      | line body cs oneLine tail =>
          have hwidth : ∀ rest, (∃ more, rest = '\n' :: more) →
              commentWidth ('/' :: '/' :: body ++ rest) = some (('/' :: body).length + 1) := by
            rintro _ ⟨more, rfl⟩
            rw [commentWidth, lineCommentWidth_append oneLine (by simp), Option.some_or,
              List.length_cons]
            congr 1
            omega
          obtain ⟨f, hf⟩ := reads_comment hwidth
          exact hmany rfl (by simp) (.text '\n' cs (by decide) tail)
            ⟨f, fun behind rest _ => hf behind _ ⟨_, rfl⟩⟩
      | block body cs unclosed tail =>
          have hwidth : ∀ rest, True → commentWidth ('/' :: ('*' :: body ++ ['*', '/']) ++ rest) =
              some (('*' :: body ++ ['*', '/']).length + 1) := by
            intro rest _
            have hblock := commentWidth_block unclosed rest
            simpa using hblock
          obtain ⟨f, hf⟩ := reads_comment hwidth
          exact hmany rfl (by simp) tail ⟨f, fun behind rest _ => hf behind _ trivial⟩
      | slash cs lone tail =>
          obtain ⟨f, hf⟩ := reads_loneSlash
          have hcs : '/' :: cs = ['/'] ++ cs := rfl
          exact hmany hcs (by simp) tail ⟨f, fun behind rest hr =>
            hf behind _ (lone.append hr.stops_mark)⟩
      | group pair inner cs paired inside tail =>
          have hinner : inner.length < ((pair.1 :: inner ++ [pair.2]) ++ cs).length := by
            simp only [List.length_append, List.length_cons, List.length_nil]
            omega
          obtain ⟨f, hf⟩ := reads_group paired (ih inner.length hinner inside rfl)
          exact hmany rfl (by simp) tail
            ⟨_, fun behind rest _ => reads_rule (reads_choice_first (hf behind _))⟩

/-- What is taken up to a closing bracket is nested. -/
theorem nested_of_reads (h : (Peg.many (.rule .groupItem)).Reads behind cs rest f)
    (hr : Closing rest) : Nested cs := by
  induction hn : cs.length using Nat.strongRecOn generalizing behind cs rest f with
  | ind n ih =>
      subst hn
      rcases parts_of_reads_many rfl h with ⟨rfl, _, _⟩ | ⟨a, b, _, _, rfl, hne, ha, hb, _⟩
      · exact .nil
      have hlen : 0 < a.length := List.length_pos_iff.2 hne
      have htail : Nested b := ih b.length (by rw [List.length_append]; omega) hb hr rfl
      obtain ⟨_, _, ha⟩ := body_of_reads ha
      rcases parts_of_reads_openers ha with hgroup | hliteral | ha
      · obtain ⟨pair, hp, inner, _, rfl, hinner⟩ := parts_of_reads_group hgroup
        refine .group pair inner b hp (ih inner.length ?_ hinner ⟨pair, hp, _, rfl⟩ rfl) htail
        simp only [List.length_append, List.length_cons, List.length_nil]
        omega
      · exact .literal a b hliteral htail
      rcases parts_of_reads_choice ha with hcomment | ⟨_, ha⟩
      · rcases form_of_commentWidth (lexeme_of_reads (t := .comment) rfl hcomment).1 with
          ⟨body, rfl, hline, hstop⟩ | ⟨body, rfl, hopen⟩
        · -- The line ends before the bracket that closes the group.
          cases b with
          | nil =>
              obtain ⟨pair, hp, more, rfl⟩ := hr
              have hclose : ∀ pair ∈ brackets, pair.2 ≠ '\n' := by decide
              exact absurd (by simpa using hstop) (hclose pair hp)
          | cons c b =>
              obtain rfl : c = '\n' := by simpa using hstop
              exact .line body b hline (htail.tail (by decide))
        · exact .block body b hopen htail
      rcases parts_of_reads_choice ha with htext | ⟨_, hslash⟩
      · have hwidth := (lexeme_of_reads (t := .groupText) rfl htext).1
        exact .plain_append (run_of_takeWhile (runWidth_eq_some hwidth).1.symm).1 htail
      · have hwidth := (lexeme_of_reads (t := .slash) rfl hslash).1
        obtain ⟨rfl, hstop⟩ := form_of_slashWidth hwidth
        exact .slash b hstop.of_append htail

end EnumNames.Grammar
