import EnumNames.Proofs.Extents
import EnumNames.Proofs.Seam

/-!
Reading a text that is cut off. Where reading stops before the end of a text,
something is left over that begins with neither white space nor a comment. What
was read before it is also read when the text ends there: no token reaches over
the cut, brackets and comments are closed before it, and an expression that
refused the longer text at some place refuses the shorter one as well. `Cuts`
says the first of an expression, and `Firm` both.
-/

namespace EnumNames.Grammar

open EnumNames.Text

variable {e e' : Peg} {t : Token} {r : Rule} {behind cs ds later : List Char}

/-! ## Expressions and the cut -/

/-- What the expression takes before the cut it takes before the end, too. -/
structure Peg.Cuts (e : Peg) (later : List Char) : Prop where
  nests : e.Nests false
  keeps : ∀ behind a b, Seam b later → e.Takes behind a (b ++ later) → e.Takes behind a b

/-- Besides, it refuses before the end what it refuses before the cut. -/
structure Peg.Firm (e : Peg) (later : List Char) : Prop extends e.Cuts later where
  stays : ∀ behind cs, Seam cs later → e.Refuses behind (cs ++ later) → e.Refuses behind cs

/-- The expression stays on one side of the cut, so what comes after it decides there. -/
structure Peg.Inside (e : Peg) (later : List Char) : Prop extends e.Firm later where
  inside : ∀ behind cs a b, Seam cs later → cs ≠ [] → cs ++ later = a ++ b → e.Takes behind a b →
    ∃ d, cs = a ++ d ∧ Seam d later

structure Peg.Ends (e : Peg) (later : List Char) : Prop where
  nests : e.Nests false
  reaches : ∀ behind a, e.Takes behind a later → e.Takes behind a []

section

variable (hl : LeftOver later)
include hl

theorem Peg.Cuts.seam {a b : List Char} (h : e.Cuts later) (hb : Seam b later)
    (ha : e.Takes behind a (b ++ later)) : Seam (a ++ b) later := by
  obtain ⟨f, hf⟩ := ha
  exact .append hl (h.nests _ _ _ f hf) hb

theorem Peg.Cuts.seq (h : e.Cuts later) (h' : e'.Cuts later) : (Peg.seq e e').Cuts later where
  nests := h.nests.seq h'.nests
  keeps := by
    intro behind a b hb htakes
    obtain ⟨x, y, rfl, hx, hy⟩ := htakes.parts
    rw [← List.append_assoc] at hx
    exact .seq (h.keeps behind x _ (h'.seam hl hb hy) hx) (h'.keeps _ y b hb hy)

theorem Peg.Cuts.seq_ends (h : e.Cuts later) (h' : e'.Ends later) :
    (Peg.seq e e').Ends later where
  nests := h.nests.seq h'.nests
  reaches := by
    intro behind a htakes
    obtain ⟨x, y, rfl, hx, ⟨f, hf⟩⟩ := htakes.parts
    have hseam : Seam y later := by
      have hjoins : Joins false y ([] ++ later) := h'.nests _ _ _ f hf
      simpa using Seam.append hl hjoins .nil
    have hkept := h.keeps behind x y hseam hx
    rw [← List.append_nil y] at hkept
    exact .seq hkept (h'.reaches _ y ⟨f, hf⟩)

/-- A repetition goes as far, if its item refuses what comes next there. -/
theorem Peg.Cuts.takes_many {a b : List Char} (h : e.Cuts later) (he : e.mayBeEmpty = false)
    (hb : Seam b later)
    (hstop : ∀ behind, e.Refuses behind (b ++ later) → b ≠ [] → e.Refuses behind b)
    (htakes : (Peg.many e).Takes behind a (b ++ later)) : (Peg.many e).Takes behind a b := by
  obtain ⟨f, hf⟩ := htakes
  refine hf.many_induction (P := fun behind a _ => (Peg.many e).Takes behind a b) he ?_ ?_
  · intro behind hno
    exact ⟨_, reads_many_nil fun hne => hstop behind (hno (by simp [hne])) hne⟩
  · intro behind x y g g' hx hy ih
    have hseam : Seam (y ++ b) later := .append hl (h.nests.many he _ _ _ g' hy) hb
    rw [← List.append_assoc] at hx
    exact .many_cons (hx.ne_nil he) (h.keeps behind x _ hseam ⟨g, hx⟩) ih

theorem Peg.Firm.many (h : e.Firm later) (he : e.mayBeEmpty = false) :
    (Peg.many e).Cuts later where
  nests := h.nests.many he
  keeps := by
    intro behind a b hb htakes
    exact h.takes_many hl he hb (fun behind hno _ => h.stays behind b hb hno) htakes

/-- An expression decides behind one that stays on its side of the cut. -/
theorem Peg.Inside.seq (h : e.Inside later) (h' : e'.Firm later)
    (hne : (Peg.seq e e').mayBeEmpty = false) : (Peg.seq e e').Firm later where
  toCuts := h.toCuts.seq hl h'.toCuts
  stays := by
    intro behind cs hcs hno
    by_cases hnil : cs = []
    · subst hnil
      exact Peg.refuses_nil hne
    rcases parts_of_refuses_seq hno with hfirst | ⟨a, b, f, heq, ha, hb⟩
    · exact refuses_seq_first (h.stays behind cs hcs hfirst)
    · obtain ⟨d, rfl, hd⟩ := h.inside behind cs a b hcs hnil heq ⟨f, ha⟩
      obtain rfl : b = d ++ later := by simpa using heq.symm
      obtain ⟨g, hg⟩ := h.keeps behind a d hd ⟨f, ha⟩
      exact refuses_seq_second hg (h'.stays _ d hd hb)

end

theorem Peg.Cuts.rule (h : r.body.Cuts later) : (Peg.rule r).Cuts later where
  nests := h.nests.rule
  keeps behind a b hb htakes := .rule (h.keeps behind a b hb htakes.body)

theorem Peg.Ends.rule (h : r.body.Ends later) : (Peg.rule r).Ends later where
  nests := h.nests.rule
  reaches behind a htakes := .rule (h.reaches behind a htakes.body)

theorem Peg.Firm.rule (h : r.body.Firm later) : (Peg.rule r).Firm later where
  toCuts := h.toCuts.rule
  stays behind cs hcs hno := refuses_rule (h.stays behind cs hcs (body_of_refuses hno))

/-- Trying a covered expression first changes nothing at the cut. -/
theorem Peg.Firm.choice_covered (h : e'.Firm later) (hc : e'.Covers e)
    (hn : (Peg.choice e e').Nests false) : (Peg.choice e e').Firm later where
  nests := hn
  keeps := by
    intro behind a b hb htakes
    rw [hc.takes_choice] at htakes ⊢
    exact h.keeps behind a b hb htakes
  stays := by
    intro behind cs hcs hno
    rw [hc.refuses_choice] at hno ⊢
    exact h.stays behind cs hcs hno

section

variable (hl : LeftOver later)
include hl

theorem Peg.Firm.choice_cuts (h : e.Firm later) (h' : e'.Cuts later) :
    (Peg.choice e e').Cuts later where
  nests := h.nests.choice h'.nests
  keeps := by
    intro behind a b hb htakes
    rcases htakes.cases with hfirst | ⟨hno, hsecond⟩
    · exact (h.keeps behind a b hb hfirst).first
    · rw [← List.append_assoc] at hno
      have hseam := h'.seam hl hb hsecond
      exact .second (h.stays behind _ hseam hno) (h'.keeps behind a b hb hsecond)

theorem Peg.Firm.choice (h : e.Firm later) (h' : e'.Firm later) :
    (Peg.choice e e').Firm later where
  toCuts := h.choice_cuts hl h'.toCuts
  stays := by
    intro behind cs hcs hno
    obtain ⟨hfirst, hsecond⟩ := parts_of_refuses_choice hno
    exact refuses_choice (h.stays behind cs hcs hfirst) (h'.stays behind cs hcs hsecond)

theorem Peg.Firm.optional (h : e.Firm later) (he : e.mayBeEmpty = false) :
    (Peg.optional e).Cuts later where
  nests := h.nests.optional
  keeps := by
    rintro behind a b hb ⟨f, hf⟩
    rcases parts_of_reads_optional hf with hsome | ⟨rfl, _, hno⟩
    · obtain ⟨g, hg⟩ := h.keeps behind a b hb ⟨f, hsome⟩
      exact ⟨g, reads_optional_some (by simp [hsome.ne_nil he]) hg⟩
    · exact ⟨_, reads_optional_none fun _ =>
        h.stays behind b hb (hno (by simp [hl.ne_nil]))⟩

/-- What never refuses leaves the decision to the expression before it. -/
theorem Peg.Firm.seq_total (h : e.Firm later) (h' : e'.Cuts later)
    (htotal : ∀ behind ahead, ¬ e'.Refuses behind ahead) : (Peg.seq e e').Firm later where
  toCuts := h.toCuts.seq hl h'
  stays := by
    intro behind cs hcs hno
    rcases parts_of_refuses_seq hno with hfirst | ⟨a, b, f, _, _, hb⟩
    · exact refuses_seq_first (h.stays behind cs hcs hfirst)
    · exact absurd hb (htotal _ b)

theorem Peg.Firm.seq_many (h : e.Firm later) (h' : e'.Firm later) (he' : e'.mayBeEmpty = false) :
    (Peg.seq e (.many e')).Firm later :=
  h.seq_total hl (h'.many hl he') (Peg.not_refuses_many e')

end

/-! ## Tokens -/

theorem Peg.Cuts.token (hn : (Peg.token t).Nests false)
    (h : ∀ behind a b, t.width behind (a ++ (b ++ later)) = some a.length →
      t.width behind (a ++ b) = some a.length) : (Peg.token t).Cuts later where
  nests := hn
  keeps := by
    rintro behind a b _ ⟨f, hf⟩
    exact ⟨_, reads_token (h behind a b (width_of_reads hf).1)⟩

theorem Peg.Firm.token (hn : (Peg.token t).Nests false)
    (h : ∀ behind a b, t.width behind (a ++ (b ++ later)) = some a.length →
      t.width behind (a ++ b) = some a.length)
    (hs : ∀ behind cs, Seam cs later → t.width behind (cs ++ later) = none →
      t.width behind cs = none) : (Peg.token t).Firm later where
  toCuts := .token hn h
  stays behind cs hcs hno := refuses_token (hs behind cs hcs (width_of_refuses hno))

/-- A token whose first characters alone tell that it stands there. -/
theorem Peg.Firm.token_append (hn : (Peg.token t).Nests false)
    (h : ∀ behind a b, t.width behind (a ++ (b ++ later)) = some a.length →
      t.width behind (a ++ b) = some a.length)
    (hs : ∀ behind cs ds, t.width behind cs ≠ none → t.width behind (cs ++ ds) ≠ none) :
    (Peg.token t).Firm later := by
  refine .token hn h fun behind cs _ hno => ?_
  by_contra hsome
  exact hs behind cs later hsome hno

/-! ### Words -/

theorem firm_identifier : (Peg.rule .identifier).Firm later := by
  refine .rule (.token_append (.plain plain_identifier) ?_ ?_)
  · intro behind a b hw
    have hname := isIdentifier_take hw
    rw [List.take_left] at hname
    obtain ⟨c, cs, rfl, hc, hdigit, _⟩ := isIdentifier_cons hname
    simp only [Token.width, List.cons_append, identifierWidth, hc, hdigit, Bool.not_false,
      Bool.and_self, if_true, Option.some.injEq, List.length_cons] at hw
    have hrun : cs.all isWord = true ∧ Stops isWord (b ++ later) := run_of_takeWhile (by omega)
    exact identifierWidth_append hname hrun.2.of_append
  · intro behind cs ds hsome
    cases cs with
    | nil => exact absurd rfl hsome
    | cons c cs =>
        simp only [Token.width, List.cons_append, identifierWidth] at hsome ⊢
        split at hsome
        · next hc => simp [hc]
        · exact absurd rfl hsome

theorem eq_of_wordWidth {word a rest : List Char}
    (h : wordWidth word (a ++ rest) = some a.length) : word = a := by
  obtain ⟨hlen, hword⟩ := wordWidth_eq_some.1 h
  have hle : word.length ≤ a.length := Nat.le_of_eq hlen.symm
  exact (List.prefix_of_prefix_length_le hword (List.prefix_append a rest) hle).eq_of_length
    hlen.symm

theorem firm_literal {word : List Char} (hw : word.all isFlat = true) :
    (Peg.token (.literal word)).Firm later := by
  refine .token_append (.token fun behind a rest h => ?_) ?_ ?_
  · obtain rfl := eq_of_wordWidth h
    exact joins_plain hw
  · intro behind a b h
    obtain rfl := eq_of_wordWidth h
    exact wordWidth_append word b
  · intro behind cs ds hsome
    obtain ⟨n, hn⟩ := Option.ne_none_iff_exists'.1 hsome
    obtain ⟨_, hword⟩ := wordWidth_eq_some.1 hn
    have hlonger := wordWidth_eq_some.2 ⟨rfl, hword.trans (List.prefix_append cs ds)⟩
    simp [Token.width, hlonger]

/-- A keyword is one of the words, with no letter behind it. -/
theorem form_of_keywordWidth {words : List (List Char)} {a rest : List Char}
    (h : keywordWidth words (a ++ rest) = some a.length) : a ∈ words ∧ Stops isWord rest := by
  obtain ⟨word, hmem, hw⟩ := List.exists_of_findSome?_eq_some h
  obtain ⟨hw, hend⟩ := Option.filter_eq_some_iff.1 hw
  obtain rfl := eq_of_wordWidth hw
  rw [List.drop_left] at hend
  exact ⟨hmem, endsWord_iff.1 hend⟩

/-- Keywords with different first letters do not get in each other's way. -/
theorem cuts_keyword {words : List (List Char)} (hw : words.all (·.all isWord) = true)
    (hne : [] ∉ words) (hfirst : words.Pairwise fun v w => v.head? ≠ w.head?) :
    (Peg.token (.keyword words)).Cuts later := by
  refine .token (.plain (plain_keyword hw)) fun behind a b h => ?_
  obtain ⟨hmem, hstop⟩ := form_of_keywordWidth h
  obtain ⟨before, after, rfl⟩ := List.append_of_mem hmem
  refine keywordWidth_append before after (fun w hwmem => ?_) hstop.of_append
  have hheads : w.head? ≠ a.head? := (List.pairwise_append.1 hfirst).2.2 w hwmem a (by simp)
  cases w with
  | nil => exact absurd (List.mem_append_left _ hwmem) hne
  | cons c w =>
      cases a with
      | nil => exact absurd hmem hne
      | cons d a =>
          have hc : c ≠ d := by simpa using hheads
          simp [wordWidth, hc]

/-! ### Runs -/

theorem firm_bareText : (Peg.rule .bareText).Firm later := by
  refine .rule (.token_append (.plain plain_bareText) ?_ ?_)
  · intro behind a b hw
    obtain ⟨hlen, hpos⟩ := runWidth_eq_some hw
    obtain ⟨hall, hstop⟩ := run_of_takeWhile hlen.symm
    exact runWidth_append hall (List.length_pos_iff.1 hpos) hstop.of_append
  · intro behind cs ds hsome
    cases cs with
    | nil => exact absurd rfl hsome
    | cons c cs =>
        by_cases hc : isBare c = true
        · simp [Token.width, runWidth, hc]
        · exact absurd (by simp [Token.width, runWidth, hc]) hsome

/-! ### Literals -/

theorem firm_quoted {w : List Char → Option Nat} {q : Char} (hn : (Peg.token t).Nests false)
    (hw : ∀ behind ahead, t.width behind ahead = w ahead)
    (hform : ∀ cs rest, w (cs ++ rest) = some cs.length → Quoted w q cs) :
    (Peg.token t).Firm later := by
  refine .token_append hn ?_ ?_
  · intro behind a b h
    rw [hw] at h ⊢
    obtain ⟨_, _, hall⟩ := hform _ _ h
    exact hall b
  · intro behind cs ds hsome
    obtain ⟨n, hn⟩ := Option.ne_none_iff_exists'.1 hsome
    have hlen : (cs.take n).length = n := List.length_take_of_le (Token.width_bounds hn).1
    have hsplit := List.take_append_drop n cs
    rw [← hsplit] at hn ⊢
    generalize cs.take n = item at hn hlen ⊢
    subst hlen
    rw [hw] at hn ⊢
    obtain ⟨_, _, hall⟩ := hform _ _ hn
    rw [List.append_assoc, hall]
    simp

theorem firm_slash (hl : LeftOver later) : (Peg.rule .loneSlash).Firm later := by
  refine .rule (.token .slash ?_ ?_)
  · intro behind a b h
    obtain ⟨rfl, hmark⟩ := form_of_slashWidth h
    exact slashWidth_cons_iff.2 ⟨rfl, hmark.of_append⟩
  · intro behind cs hcs hno
    cases cs with
    | nil => rfl
    | cons c cs =>
        by_cases hc : c = '/'
        · subst hc
          by_contra hsome
          obtain ⟨n, hn⟩ := Option.ne_none_iff_exists'.1 hsome
          obtain ⟨_, hmark⟩ := slashWidth_cons_iff.1 hn
          have hlater : Stops isCommentMark (cs ++ later) := by
            cases cs with
            | nil => exact hcs.stops_mark hl
            | cons d cs => exact stops_cons.2 (stops_cons.1 hmark)
          have hwidth := slashWidth_cons_iff.2 ⟨rfl, hlater⟩
          simp only [Token.width, List.cons_append] at hno
          rw [hwidth] at hno
          cases hno
        · exact slashWidth_eq_none (stops_cons.2 (by simpa using hc))

theorem firm_group (hl : LeftOver later) : (Peg.rule .group).Firm later where
  nests := .group
  keeps := by
    rintro behind a b _ ⟨f, hf⟩
    obtain ⟨pair, hp, inner, _, rfl, hinner⟩ := parts_of_reads_group hf
    obtain ⟨g, hg⟩ := reads_group hp (nested_of_reads hinner ⟨pair, hp, _, rfl⟩).reads
    exact ⟨g, hg behind b⟩
  stays := by
    intro behind cs hcs hno
    cases cs with
    | nil => exact Peg.refuses_nil rfl
    | cons c cs =>
        by_cases hc : c ∈ brackets.map (·.1)
        · obtain ⟨pair, hp, rfl⟩ := List.mem_map.1 hc
          obtain ⟨inner, tail, rfl, hinner, _⟩ := (hcs.nested hl).of_bracket hp
          obtain ⟨g, hg⟩ := reads_group hp hinner.reads
          have hreads := (hg behind (tail ++ later)).not_refuses
          exact absurd hno (by simpa using hreads)
        · exact refuses_group (stops_cons.2 (by simpa using hc))

/-! ### Comments and separators -/

theorem firm_comment (line : Bool) {p : Char → Bool} (hn : (Peg.token t).Nests false)
    (hw : ∀ behind ahead, t.width behind ahead = commentWidthOf line p ahead) :
    (Peg.token t).Firm later := by
  refine .token_append hn ?_ ?_
  · intro behind a b h
    rw [hw] at h ⊢
    rcases Option.or_eq_some_iff.1 h with hline | ⟨_, hblock⟩
    · split at hline
      · next hl =>
          obtain ⟨body, rfl, hbody, hstop⟩ := form_of_lineCommentWidth hline
          have hwidth := lineCommentWidth_append hbody hstop.of_append
          rw [commentWidthOf, if_pos hl, hwidth, Nat.add_comm]
          rfl
      · cases hline
    · obtain ⟨body, rfl, hbody, hall⟩ := form_of_blockCommentWidth hblock
      have hwidth := blockCommentWidth_append hbody hall b
      simp only [List.cons_append, List.append_assoc, List.nil_append] at hwidth ⊢
      simp [commentWidthOf, lineCommentWidth, hwidth]
  · intro behind cs ds hsome
    rw [hw] at hsome ⊢
    exact commentWidthOf_append line p hsome

theorem firm_separator : (Peg.token .separator).Firm later := by
  refine .token_append (tidy_separator Boundary.lawful_textEnd fun _ hr hsemi =>
    absurd (hr ';' hsemi) (by simp)).nests ?_ ?_
  · intro behind a b h
    simp only [Token.width] at h ⊢
    split at h
    · next hc =>
        obtain ⟨c, rfl⟩ := List.length_eq_one_iff.1 (Option.some.inj h).symm
        rw [if_pos (by simpa using hc)]
        rfl
    · cases h
  · intro behind cs ds hsome
    cases cs with
    | nil => exact absurd rfl hsome
    | cons c cs => simpa [Token.width] using hsome

theorem cuts_semicolon : (Peg.token .semicolon).Cuts later := by
  refine .token (.token fun behind a rest h => ?_) fun behind a b h => ?_
  · rcases form_of_semicolon (Option.some.inj h) with rfl | ⟨rfl, _⟩
    · exact joins_plain (by decide)
    · exact joins_nil
  · rcases form_of_semicolon (Option.some.inj h) with rfl | ⟨rfl, hstop⟩
    · rfl
    · have hb := hstop.of_append
      cases b with
      | nil => rfl
      | cons c b =>
          have hc : c ≠ ';' := by simpa using hb
          simp [Token.width, hc]

/-! ### Gaps -/

theorem total_indent (behind ahead : List Char) : ¬ (Peg.rule .indent).Refuses behind ahead :=
  fun hno => by cases lexeme_of_refuses (t := .indent) rfl hno

theorem total_trivia (behind ahead : List Char) : ¬ (Peg.rule .trivia).Refuses behind ahead :=
  fun hno => by cases lexeme_of_refuses (t := .trivia) rfl hno

theorem total_gap (behind ahead : List Char) : ¬ (Peg.rule .pieceGap).Refuses behind ahead :=
  fun hno => by cases lexeme_of_refuses (t := .gap) rfl hno

theorem inside_indent (hl : LeftOver later) : (Peg.rule .indent).Inside later where
  nests := .rule (.plain plain_indent)
  keeps := by
    intro behind a b _ htakes
    obtain ⟨hall, hstop⟩ := form_of_indent htakes
    exact ⟨_, reads_indent hall hstop.of_append⟩
  stays behind cs _ hno := absurd hno (total_indent behind _)
  inside := by
    intro behind cs a b hcs _ heq htakes
    obtain ⟨hall, _⟩ := form_of_indent htakes
    rcases List.append_eq_append_iff.1 heq with ⟨more, rfl, hlater⟩ | ⟨d, rfl, _⟩
    · cases more with
      | nil => exact ⟨[], by simp, .nil⟩
      | cons c more =>
          have hindent : isIndent c = true := List.all_eq_true.1 hall c (by simp)
          have hstop := hl.stops_indent c (by simp [hlater])
          simp [hindent] at hstop
    · exact ⟨d, rfl, hcs.of_plain_append (all_imp (fun _ hc =>
        isGroupText_of_isFlat (isFlat_of_isIndent hc)) hall)⟩

theorem inside_trivia (hl : LeftOver later) : (Peg.rule .trivia).Inside later where
  nests := .rule .trivia
  keeps := by
    intro behind a b _ htakes
    obtain ⟨hsolid, parts, rfl⟩ :=
      filler_of_triviaWidth (takes_trivia_iff.1 htakes) (by simp [hl.ne_nil])
    exact ⟨_, reads_trivia parts hsolid.of_append⟩
  stays behind cs _ hno := absurd hno (total_trivia behind _)
  inside := by
    intro behind cs a b hcs _ heq htakes
    obtain ⟨parts, ds, rfl, hds, hsolid⟩ := hcs.filler hl
    have hwidth := takes_trivia_iff.1 htakes
    rw [← heq, List.append_assoc, triviaWidth_append parts hsolid] at hwidth
    rw [List.append_assoc] at heq
    obtain ⟨rfl, _⟩ := List.append_inj heq hwidth
    exact ⟨ds, rfl, hds⟩

/-- After an operator a gap is white space and comments, otherwise it is blanks. -/
theorem takes_gap_iff {rest : List Char} : (Peg.rule .pieceGap).Takes behind cs rest ↔
    if continues behind = true then (Peg.rule .trivia).Takes behind cs rest
    else (Peg.rule .indent).Takes behind cs rest := by
  rw [takes_lexeme_iff (t := .gap) rfl, takes_lexeme_iff (t := .trivia) rfl,
    takes_lexeme_iff (t := .indent) rfl]
  simp only [Token.width]
  split <;> rfl

theorem inside_gap (hl : LeftOver later) : (Peg.rule .pieceGap).Inside later where
  nests := .rule .gap
  keeps := by
    intro behind a b hb htakes
    rw [takes_gap_iff] at htakes ⊢
    split
    · next hc =>
        rw [if_pos hc] at htakes
        exact (inside_trivia hl).keeps behind a b hb htakes
    · next hc =>
        rw [if_neg hc] at htakes
        exact (inside_indent hl).keeps behind a b hb htakes
  stays behind cs _ hno := absurd hno (total_gap behind _)
  inside := by
    intro behind cs a b hcs hne heq htakes
    rw [takes_gap_iff] at htakes
    split at htakes
    · exact (inside_trivia hl).inside behind cs a b hcs hne heq htakes
    · exact (inside_indent hl).inside behind cs a b hcs hne heq htakes

theorem inside_lit {c : Char} (hc : isFlat c = true) : (Peg.lit c).Inside later where
  toFirm := firm_literal (by simpa using hc)
  inside := by
    rintro behind cs a b hcs hne heq ⟨f, hf⟩
    obtain ⟨rfl, _⟩ := lit_of_reads hf
    cases cs with
    | nil => exact absurd rfl hne
    | cons d cs =>
        obtain ⟨rfl, _⟩ := List.cons.inj heq
        have hplain : [d].all isGroupText = true := by simpa using isGroupText_of_isFlat hc
        exact ⟨cs, rfl, Seam.of_plain_append hcs hplain⟩

/-! ## Brackets -/

def Boundary.unindented : Boundary := ⟨Stops isIndent, fun _ => True⟩

theorem tidy_indent_unindented : (Peg.rule .indent).Tidy .unindented true where
  settles := by
    refine .rule fun behind cs hplace => Boundary.decides_token (.inl ?_)
    have hcs : cs = cs.takeWhile isIndent ++ cs.dropWhile isIndent :=
      List.takeWhile_append_dropWhile.symm
    refine ⟨cs.takeWhile isIndent, cs.dropWhile isIndent, hcs, ?_, fun rest hr => ?_⟩
    · have hnested := hplace.nested
      rw [hcs] at hnested
      exact hnested.of_plain_append (all_imp (fun _ hc =>
        isGroupText_of_isFlat (isFlat_of_isIndent hc)) List.all_takeWhile)
    · simp only [Token.width, indentWidth, takeWhile_append_of_stops cs hr]
  nests := .rule (.plain plain_indent)

/-- Brackets are closed before the cut, so what is read between them does not depend on it. -/
theorem firm_bracketed (pair : Char × Char) (hl : LeftOver later) (hp : pair ∈ brackets)
    (he : e.Encloses .unindented pair.2) : (Peg.seq (.lit pair.1) e).Firm later where
  nests := he.nests hp
  keeps := by
    intro behind a b hb htakes
    obtain ⟨x, y, rfl, ⟨_, hx⟩, ⟨f, hf⟩⟩ := htakes.parts
    obtain ⟨rfl, _⟩ := lit_of_reads hx
    obtain ⟨inner, tail, rfl, hinner, htail⟩ := he.nested _ _ _ _ hf
    have hfollows : Follows (b ++ later) b := by
      simpa using (follows_nil hl.head_ne_newline).append b
    have hrest := htail.nested (.inl rfl) b (hb.nested hl) hfollows
    rcases he.closes _ inner (tail ++ b) hinner hrest trivial with ⟨u, v, g, heq, _, hg⟩ | hno
    · have htext : u ++ (v ++ later) = (inner ++ pair.2 :: tail) ++ (b ++ later) := by
        rw [← List.append_assoc, ← heq]
        simp
      obtain ⟨rfl, hv, _⟩ := (hg later hl.stops_indent).unique hf htext
      obtain rfl := List.append_cancel_right hv
      have hend := hg [] (stops_nil _)
      rw [List.append_nil] at hend
      exact ⟨_, reads_seq (reads_lit pair.1) hend⟩
    · have hrefuse := hno later hl.stops_indent
      exact absurd (by simpa using hrefuse) hf.not_refuses
  stays := by
    intro behind cs hcs hno
    cases cs with
    | nil => exact Peg.refuses_nil rfl
    | cons c cs =>
        by_cases hc : c = pair.1
        · subst hc
          have hopen (rest : List Char) : (Peg.lit pair.1).Reads behind [pair.1] rest _ :=
            reads_lit pair.1
          obtain ⟨inner, tail, rfl, hinner, htail⟩ := (hcs.nested hl).of_bracket hp
          rcases he.closes (pair.1 :: behind) inner tail hinner htail trivial with
            ⟨u, v, g, heq, _, hg⟩ | hend
          · have hreads := reads_seq (hopen _) (hg later hl.stops_indent)
            have hnot := hreads.not_refuses
            rw [List.append_assoc, ← List.append_assoc u, ← heq] at hnot
            exact absurd hno hnot
          · have hrefuse := hend [] (stops_nil _)
            rw [List.append_nil] at hrefuse
            exact refuses_seq_second (hopen _) hrefuse
        · exact refuses_seq_first (refuses_lit (stops_cons.2 (by simpa using hc)))

/-! ## Rules -/

/-- A longer way is tried before its first part alone. -/
theorem Peg.Firm.choice_longer {q : Rule} (hl : LeftOver later) (hq : q.body = .seq e e')
    (h : e.Firm later) (h' : e'.Firm later) : (Peg.choice (.rule q) e).Firm later where
  nests := .choice (.rule (hq ▸ h.nests.seq h'.nests)) h.nests
  keeps := by
    intro behind a b hb htakes
    rcases htakes.cases with hlong | ⟨hno, hshort⟩
    · have hcuts : (Peg.rule q).Cuts later := .rule (hq ▸ h.toCuts.seq hl h'.toCuts)
      exact (hcuts.keeps behind a b hb hlong).first
    · have hkept := h.keeps behind a b hb hshort
      refine .second (refuses_rule ?_) hkept
      have hbody := body_of_refuses hno
      rw [hq] at hbody ⊢
      rcases parts_of_refuses_seq hbody with hfirst | ⟨x, y, f, heq, hx, hy⟩
      · exact absurd hfirst hshort.not_refuses
      · obtain ⟨rfl, rfl⟩ := hshort.unique ⟨f, hx⟩ heq
        obtain ⟨g, hg⟩ := hkept
        exact refuses_seq_second hg (h'.stays _ b hb hy)
  stays := by
    intro behind cs hcs hno
    have hfirst := h.stays behind cs hcs (parts_of_refuses_choice hno).2
    exact refuses_choice (refuses_rule (hq ▸ refuses_seq_first hfirst)) hfirst

section

variable (hl : LeftOver later)
include hl

theorem firm_exprPiece : (Peg.rule .exprPiece).Firm later := by
  have hstring : (Peg.rule .stringLit).Firm later :=
    .rule (firm_quoted (.token fun _ _ _ hw => joins_literal (.inl (quoted_string hw)))
      (fun _ _ => rfl) fun _ _ => quoted_string)
  have hraw : (Peg.rule .rawString).Firm later :=
    .rule (firm_quoted (.token fun _ _ _ hw => joins_literal (.inr (.inl (quoted_rawString hw))))
      (fun _ _ => rfl) fun _ _ => quoted_rawString)
  have hrune : (Peg.rule .charLit).Firm later :=
    .rule (firm_quoted (.token fun _ _ _ hw => joins_literal (.inr (.inr (quoted_rune hw))))
      (fun _ _ => rfl) fun _ _ => quoted_rune)
  exact .rule ((firm_group hl).choice hl (hstring.choice hl (hraw.choice hl (hrune.choice hl
    (firm_bareText.choice hl (firm_slash hl))))))

theorem firm_typeExpr : (Peg.rule .typeExpr).Firm later := by
  have hB := Boundary.lawful_textEnd
  have hliteral : (Peg.rule .typeLiteral).Firm later :=
    .rule ((firm_exprPiece hl).seq_many hl ((inside_indent hl).seq hl (firm_exprPiece hl) rfl) rfl)
  exact .rule (hliteral.choice_covered typeLiteral_covers_namedType
    (.choice (.rule (.seq (tidy_identifier hB).nests (tidy_exprEnd hB).nests)) hliteral.nests))

theorem firm_expr : (Peg.rule .expr).Firm later := by
  have hB := Boundary.lawful_textEnd
  have hverbatim : (Peg.rule .verbatimExpr).Firm later :=
    .rule ((firm_exprPiece hl).seq_many hl ((inside_gap hl).seq hl (firm_exprPiece hl) rfl) rfl)
  exact .rule (hverbatim.choice_covered verbatimExpr_covers_simpleExpr
    (.choice (.rule (.seq (.rule (.choice (tidy_binaryExpr hB).nests (tidy_operand hB).nests))
      (tidy_exprEnd hB).nests)) hverbatim.nests))

/-- Items with commas between them. -/
theorem firm_commas (h : e.Firm later) (he : e.mayBeEmpty = false) :
    (Peg.all e [.many (.all (.rule .indent) [.lit ',', .rule .trivia, e])]).Firm later :=
  h.seq_many hl ((inside_indent hl).seq hl ((inside_lit (by decide)).seq hl
    ((inside_trivia hl).seq hl h he) rfl) rfl) rfl

theorem firm_lineComment : (Peg.rule .lineComment).Firm later := by
  have htext : (Peg.rule .commentText).Firm later :=
    .rule (firm_comment true .shortComment fun _ _ => rfl)
  exact .rule (htext.seq_many hl ((inside_indent hl).seq hl htext rfl) rfl)

theorem firm_constType : (Peg.rule .constType).Firm later := by
  have hqualified : (Peg.rule .typeName).Firm later :=
    .rule (firm_identifier.choice_longer hl rfl
      ((inside_lit (by decide)).seq hl firm_identifier rfl))
  exact .rule (hqualified.seq_total hl (inside_indent hl).toCuts total_indent)

theorem firm_constValues : (Peg.rule .constValues).Firm later :=
  .rule ((inside_lit (by decide)).seq hl ((inside_trivia hl).seq hl
    (.rule (firm_commas hl (firm_expr hl) rfl)) rfl) rfl)

theorem firm_typeParams : (Peg.rule .typeParams).Firm later :=
  .rule (firm_bracketed ('[', ']') hl (by decide)
    (encloses_typeParams ⟨[], stops_nil _⟩ tidy_indent_unindented))

/-! ## Declarations -/

theorem cuts_typeSpec : (Peg.rule .typeSpec).Cuts later := by
  have halias : (Peg.rule .aliasMark).Firm later :=
    .rule ((inside_lit (by decide)).toFirm.seq_total hl (inside_indent hl).toCuts total_indent)
  exact .rule (firm_identifier.toCuts.seq hl ((inside_indent hl).toCuts.seq hl
    (((firm_typeParams hl).optional hl rfl).seq hl ((halias.optional hl rfl).seq hl
      ((firm_typeExpr hl).toCuts.seq hl ((inside_indent hl).toCuts.seq hl
        ((firm_lineComment hl).optional hl rfl)))))))

theorem cuts_constSpec : (Peg.rule .constSpec).Cuts later := by
  have hnames : (Peg.rule .identifierList).Cuts later :=
    .rule (firm_commas hl firm_identifier rfl).toCuts
  exact .rule (hnames.seq hl ((inside_indent hl).toCuts.seq hl
    (((firm_constType hl).optional hl rfl).seq hl (((firm_constValues hl).optional hl rfl).seq hl
      ((inside_indent hl).toCuts.seq hl ((firm_lineComment hl).optional hl rfl))))))

theorem cuts_typeDecl : (Peg.rule .typeDecl).Cuts later := by
  have hgroup : (Peg.rule .typeGroup).Firm later :=
    .rule (firm_bracketed ('(', ')') hl (by decide) encloses_types)
  have hkeyword : (Peg.rule .typeKw).Cuts later :=
    .rule (cuts_keyword (by decide) (by decide) (by decide))
  exact .rule (hkeyword.seq hl ((inside_indent hl).toCuts.seq hl
    (.rule (hgroup.choice_cuts hl (cuts_typeSpec hl)))))

theorem cuts_constDecl : (Peg.rule .constDecl).Cuts later := by
  have hgroup : (Peg.rule .constGroup).Firm later :=
    .rule (firm_bracketed ('(', ')') hl (by decide) encloses_consts)
  have hkeyword : (Peg.rule .constKw).Cuts later :=
    .rule (cuts_keyword (by decide) (by decide) (by decide))
  exact .rule (hkeyword.seq hl ((inside_indent hl).toCuts.seq hl
    (.rule (hgroup.choice_cuts hl (cuts_constSpec hl)))))

theorem cuts_otherDecl : (Peg.rule .otherDecl).Cuts later := by
  have hkeyword : (Peg.rule .otherKw).Cuts later :=
    .rule (cuts_keyword (by decide) (by decide) (by decide))
  have hcomment : (Peg.rule .inlineComment).Firm later :=
    .rule (firm_comment false .inlineComment fun _ _ => rfl)
  have hpiece : (Peg.rule .linePiece).Firm later :=
    .rule ((firm_exprPiece hl).choice hl (hcomment.choice hl firm_separator))
  have hrun : (Peg.rule .linePieceRun).Cuts later :=
    .rule (((inside_gap hl).seq hl hpiece rfl).many hl rfl)
  exact .rule (hkeyword.seq hl (hrun.seq hl ((inside_indent hl).toCuts.seq hl
    ((firm_lineComment hl).optional hl rfl))))

end

/-- A declaration begins with one of its keywords, so those with other keywords refuse it. -/
theorem refuses_of_keyword {d q kw kw' : Rule} {words words' : List (List Char)}
    {a b b' : List Char} (hd : d.body = .seq (.rule kw) e) (hq : q.body = .seq (.rule kw') e')
    (hkw : kw.body = .token (.keyword words)) (hkw' : kw'.body = .token (.keyword words'))
    (hwords : ∀ w ∈ words, ∀ w' ∈ words', w ≠ [] ∧ w' ≠ [] ∧ w.head? ≠ w'.head?)
    (h : (Peg.rule d).Takes behind a b) : (Peg.rule q).Refuses behind (a ++ b') := by
  have hbody := h.body
  rw [hd] at hbody
  obtain ⟨w, x, rfl, ⟨_, hw⟩, _⟩ := hbody.parts
  obtain ⟨hmem, _⟩ := form_of_keywordWidth (lexeme_of_reads hkw hw).1
  refine refuses_rule (hq ▸ refuses_seq_first (refuses_lexeme hkw' ?_))
  by_contra hsome
  obtain ⟨n, hn⟩ := Option.ne_none_iff_exists'.1 hsome
  obtain ⟨w', hmem', _, hword⟩ := keywordWidth_eq_some hn
  obtain ⟨hne, hne', hheads⟩ := hwords w hmem w' hmem'
  obtain ⟨c, v, rfl⟩ := List.exists_cons_of_ne_nil hne
  obtain ⟨c', v', rfl⟩ := List.exists_cons_of_ne_nil hne'
  obtain ⟨more, hmore⟩ := hword
  exact hheads (congrArg some (List.cons.inj hmore).1.symm)

section

variable (hl : LeftOver later)
include hl

theorem cuts_topDecl : (Peg.rule .topDecl).Cuts later := by
  have hnests : (Peg.rule .topDecl).Nests false :=
    .rule (.choice (cuts_typeDecl hl).nests (.choice (cuts_constDecl hl).nests
      (cuts_otherDecl hl).nests))
  refine ⟨hnests, fun behind a b hb htakes => .rule ?_⟩
  rcases htakes.body.cases with htype | ⟨_, htakes⟩
  · exact ((cuts_typeDecl hl).keeps behind a b hb htype).first
  · rcases htakes.cases with hconst | ⟨_, hother⟩
    · refine .second ?_ ((cuts_constDecl hl).keeps behind a b hb hconst).first
      exact refuses_of_keyword (q := .typeDecl) rfl rfl rfl rfl (by decide) hconst
    · refine .second ?_ (.second ?_ ((cuts_otherDecl hl).keeps behind a b hb hother))
      · exact refuses_of_keyword (q := .typeDecl) rfl rfl rfl rfl (by decide) hother
      · exact refuses_of_keyword (q := .constDecl) rfl rfl rfl rfl (by decide) hother

theorem cuts_topLevel : (Peg.rule .topLevel).Cuts later := by
  have hend : (Peg.rule .stmtEnd).Cuts later :=
    .rule ((inside_indent hl).toCuts.seq hl cuts_semicolon)
  exact .rule ((inside_trivia hl).toCuts.seq hl ((cuts_topDecl hl).seq hl hend))

theorem cuts_packageClause : (Peg.rule .packageClause).Cuts later :=
  .rule ((firm_literal (by decide)).toCuts.seq hl
    ((inside_indent hl).toCuts.seq hl firm_identifier.toCuts))

/-- Behind the last declaration there is nothing but white space and comments. -/
theorem ends_decls :
    (Peg.all (.many (.rule .topLevel)) [.rule .trivia]).Ends later where
  nests := .seq (.many rfl (cuts_topLevel hl).nests) (inside_trivia hl).nests
  reaches := by
    intro behind a htakes
    obtain ⟨decls, close, rfl, hdecls, hclose⟩ := htakes.parts
    have hclose : (Peg.rule .trivia).Takes (decls.reverse ++ behind) close ([] ++ later) := hclose
    have hseam : Seam close later := by
      simpa using (inside_trivia hl).seam hl .nil hclose
    have hend := (inside_trivia hl).keeps _ close [] .nil hclose
    obtain ⟨_, parts, rfl⟩ := filler_of_triviaWidth (takes_trivia_iff.1 hclose) hl.ne_nil
    refine .seq ?_ hend
    rw [List.append_nil]
    exact (cuts_topLevel hl).takes_many hl rfl hseam
      (fun _ _ _ => refuses_topLevel_end parts) hdecls

/-- A file that is read up to what is left over is read as a whole when the text ends there. -/
theorem ends_sourceFile : (Peg.rule .sourceFile).Ends later :=
  .rule ((inside_trivia hl).toCuts.seq_ends hl ((cuts_packageClause hl).seq_ends hl
    (ends_decls hl)))

end
end EnumNames.Grammar
