import EnumNames.Proofs.NestedText

/-!
Reading up to a boundary. Inside of brackets, and before the end of a line, what
an expression takes of nested text does not depend on what stands behind the
boundary. `Settles` says so of an expression. It passes through sequences,
choices and repetitions, so that only tokens and brackets need a look at the
text.
-/

namespace EnumNames.Grammar

open EnumNames.Text

variable {e e' : Peg} {t : Token} {r : Rule} {behind cs : List Char}

/-- What may follow a text, and what is known of the text, last character first. -/
structure Boundary where
  follows : List Char → Prop
  text : List Char → Prop

namespace Boundary

variable {B : Boundary}

structure Place (B : Boundary) (behind cs : List Char) : Prop where
  nested : Nested cs
  known : B.text (cs.reverse ++ behind)

theorem Place.advance {a b : List Char} (h : B.Place behind (a ++ b)) (hb : Nested b) :
    B.Place (a.reverse ++ behind) b :=
  ⟨hb, by simpa using h.known⟩

/-- The expression takes the same part of the text, or refuses it, whatever follows. -/
def Decides (B : Boundary) (e : Peg) (behind cs : List Char) : Prop :=
  (∃ a b f, cs = a ++ b ∧ Nested b ∧ ∀ rest, B.follows rest → e.Reads behind a (b ++ rest) f) ∨
    ∀ rest, B.follows rest → e.Refuses behind (cs ++ rest)

def Settles (B : Boundary) (e : Peg) : Prop :=
  ∀ behind cs, B.Place behind cs → B.Decides e behind cs

/-! ## Sequences, choices and repetitions -/

theorem Decides.rule (h : B.Decides r.body behind cs) : B.Decides (.rule r) behind cs := by
  rcases h with ⟨a, b, f, hcs, hb, hf⟩ | hno
  · exact .inl ⟨a, b, _, hcs, hb, fun rest hr => reads_rule (hf rest hr)⟩
  · exact .inr fun rest hr => refuses_rule (hno rest hr)

theorem Decides.seq (h : B.Decides e behind cs)
    (h' : ∀ a b f, cs = a ++ b → Nested b →
      (∀ rest, B.follows rest → e.Reads behind a (b ++ rest) f) →
      B.Decides e' (a.reverse ++ behind) b) : B.Decides (.seq e e') behind cs := by
  rcases h with ⟨a, b, f, rfl, hb, hf⟩ | hno
  · rcases h' a b f rfl hb hf with ⟨a', b', g, rfl, hb', hg⟩ | hno
    · refine .inl ⟨a ++ a', b', f.append g, by simp, hb', fun rest hr => ?_⟩
      have hfirst := hf rest hr
      rw [List.append_assoc] at hfirst
      exact reads_seq hfirst (hg rest hr)
    · refine .inr fun rest hr => ?_
      rw [List.append_assoc]
      exact refuses_seq_second (hf rest hr) (hno rest hr)
  · exact .inr fun rest hr => refuses_seq_first (hno rest hr)

theorem Settles.rule (h : B.Settles r.body) : B.Settles (.rule r) := fun behind cs hp =>
  (h behind cs hp).rule

theorem Settles.seq (h : B.Settles e) (h' : B.Settles e') : B.Settles (.seq e e') := by
  intro behind cs hp
  refine (h behind cs hp).seq ?_
  rintro a b f rfl hb _
  exact h' _ b (hp.advance hb)

theorem Settles.choice (h : B.Settles e) (h' : B.Settles e') : B.Settles (.choice e e') := by
  intro behind cs hp
  rcases h behind cs hp with ⟨a, b, f, hcs, hb, hf⟩ | hno
  · exact .inl ⟨a, b, f, hcs, hb, fun rest hr => reads_choice_first (hf rest hr)⟩
  · rcases h' behind cs hp with ⟨a, b, f, rfl, hb, hf⟩ | hno'
    · refine .inl ⟨a, b, f, rfl, hb, fun rest hr => ?_⟩
      have hrefuse := hno rest hr
      rw [List.append_assoc] at hrefuse
      exact reads_choice_second hrefuse (hf rest hr)
    · exact .inr fun rest hr => refuses_choice (hno rest hr) (hno' rest hr)

theorem Settles.optional (hfollow : ∃ rest, B.follows rest) (he : e.mayBeEmpty = false)
    (h : B.Settles e) : B.Settles (.optional e) := by
  intro behind cs hp
  rcases h behind cs hp with ⟨a, b, f, hcs, hb, hf⟩ | hno
  · obtain ⟨rest, hr⟩ := hfollow
    have hne : a ≠ [] := (hf rest hr).ne_nil he
    exact .inl ⟨a, b, f, hcs, hb, fun rest hr => reads_optional_some (by simp [hne]) (hf rest hr)⟩
  · exact .inl ⟨[], cs, .nil, rfl, hp.nested, fun rest hr =>
      reads_optional_none fun _ => hno rest hr⟩

theorem Settles.many (hfollow : ∃ rest, B.follows rest) (he : e.mayBeEmpty = false)
    (h : B.Settles e) : B.Settles (.many e) := by
  intro behind cs hp
  induction hn : cs.length using Nat.strongRecOn generalizing behind cs with
  | ind n ih =>
      subst hn
      rcases h behind cs hp with ⟨a, b, f, rfl, hb, hf⟩ | hno
      · obtain ⟨rest, hr⟩ := hfollow
        have hne : a ≠ [] := (hf rest hr).ne_nil he
        have hlt : b.length < (a ++ b).length := by
          have := List.length_pos_iff.2 hne
          rw [List.length_append]
          omega
        rcases ih b.length hlt _ b (hp.advance hb) rfl with ⟨a', b', g, rfl, hb', hg⟩ | hno
        · refine .inl ⟨a ++ a', b', f.append g, by simp, hb', fun rest hr => ?_⟩
          have hfirst := hf rest hr
          rw [List.append_assoc] at hfirst
          exact reads_many_cons hne hfirst (hg rest hr)
        · exact absurd (hno rest hr) (Peg.not_refuses_many e _ _)
      · exact .inl ⟨[], cs, .nil, rfl, hp.nested, fun rest hr =>
          reads_many_nil fun _ => hno rest hr⟩

/-! ## Tokens -/

/-- A token decides by its width. -/
theorem decides_token
    (h : (∃ a b, cs = a ++ b ∧ Nested b ∧
        ∀ rest, B.follows rest → t.width behind (cs ++ rest) = some a.length) ∨
      ∀ rest, B.follows rest → t.width behind (cs ++ rest) = none) :
    B.Decides (.token t) behind cs := by
  rcases h with ⟨a, b, rfl, hb, hw⟩ | hw
  · refine .inl ⟨a, b, _, rfl, hb, fun rest hr => reads_token ?_⟩
    rw [← List.append_assoc]
    exact hw rest hr
  · exact .inr fun rest hr => refuses_token (hw rest hr)

end Boundary

/-! ## Boundaries -/

def boundaryMarks : List Char := [')', ']', '\x7d', '\n', ';']

def AtBoundary (rest : List Char) : Prop := ∀ c ∈ rest.head?, c ∈ boundaryMarks

theorem AtBoundary.stops {p : Char → Bool} {rest : List Char} (h : AtBoundary rest)
    (hp : (boundaryMarks.all (!p ·)) = true) : Stops p rest := by
  intro c hc
  simpa using List.all_eq_true.1 hp c (h c hc)

/-- A token of plain characters that no boundary continues. -/
structure Token.Plain (t : Token) : Prop where
  width : ∀ behind cs rest, AtBoundary rest → t.width behind (cs ++ rest) = t.width behind cs
  chars : ∀ behind cs n, t.width behind cs = some n → (cs.take n).all isFlat = true

theorem plain_lit {c : Char} (hc : isFlat c = true) (hm : c ∉ boundaryMarks) :
    (Token.literal [c]).Plain where
  width := by
    intro behind cs rest hr
    refine wordWidth_append_of_stops cs fun d hd => ?_
    have hne : d ≠ c := by
      rintro rfl
      exact hm (hr d hd)
    simpa using hne
  chars := by
    intro behind cs n hn
    obtain ⟨rfl, hprefix⟩ := wordWidth_eq_some.1 hn
    rw [← List.prefix_iff_eq_take.1 hprefix]
    simpa using hc

theorem plain_keyword {words : List (List Char)} (hw : words.all (·.all isWord) = true) :
    (Token.keyword words).Plain where
  width := by
    intro behind cs rest hr
    have hstop : Stops isWord rest := hr.stops (by decide +kernel)
    refine keywordWidth_append_of_stops cs (fun w hmem => hstop.mono fun c hc => ?_) hstop
    exact List.all_eq_true.1 (List.all_eq_true.1 hw w hmem) c (by simpa using hc)
  chars := by
    intro behind cs n hn
    obtain ⟨word, hmem, rfl, hprefix⟩ := keywordWidth_eq_some hn
    rw [← List.prefix_iff_eq_take.1 hprefix]
    exact all_imp (fun _ => isFlat_of_isWord) (List.all_eq_true.1 hw word hmem)

theorem plain_identifier : Token.identifier.Plain where
  width _ cs _ hr := identifierWidth_append_of_stops cs (hr.stops (by decide +kernel))
  chars _ _ _ hn :=
    all_imp (fun _ => isFlat_of_isWord) (all_isWord_of_isIdentifier (isIdentifier_take hn))

theorem plain_integer : Token.integer.Plain where
  width _ cs _ hr := integerWidth_append_of_stops cs (hr.stops (by decide +kernel))
  chars _ _ _ hn := all_imp (fun _ => isFlat_of_isWord) (all_isWord_of_integerWidth hn)

theorem plain_bareText : Token.bareText.Plain where
  width _ cs _ hr := runWidth_append_of_stops cs (hr.stops (by decide))
  chars _ _ _ hn := all_imp (fun _ => isFlat_of_isBare) (all_of_runWidth hn)

theorem plain_blanks : Token.blanks.Plain where
  width _ cs _ hr := runWidth_append_of_stops cs (hr.stops (by decide))
  chars _ _ _ hn := all_imp (fun _ => isFlat_of_isIndent) (all_of_runWidth hn)

theorem plain_indent : Token.indent.Plain where
  width := by
    intro behind cs rest hr
    have hstop : Stops isIndent rest := hr.stops (by decide)
    simp only [Token.width, indentWidth, takeWhile_append_of_stops cs hstop]
  chars := by
    intro behind cs n hn
    cases hn
    rw [indentWidth, take_length_takeWhile]
    exact all_imp (fun _ => isFlat_of_isIndent) List.all_takeWhile

def endsExpression : List Char → Bool
  | [] => true
  | c :: cs =>
      c == '\n' || c == ',' || c == ';' || c == ')' || (c == '\r' && cs.head? == some '\n') ||
        (c == '/' && (cs.head? == some '/' || cs.head? == some '*'))

theorem expressionEnds_eq (cs : List Char) :
    expressionEnds cs = endsExpression (cs.dropWhile isIndent) := by
  have hdrop : cs.drop (indentWidth cs) = cs.dropWhile isIndent := by
    have hleft : (cs.takeWhile isIndent ++ cs.dropWhile isIndent).drop
        (cs.takeWhile isIndent).length = cs.dropWhile isIndent := List.drop_left
    rwa [List.takeWhile_append_dropWhile] at hleft
  unfold expressionEnds
  rw [hdrop]
  split
  · next heq => rw [heq]; rfl
  · next heq => rw [heq]; rfl
  · next heq => rw [heq]; rfl
  · next heq => rw [heq]; rfl
  · next heq => rw [heq]; rfl
  · next c ds hn hr hl hb heq =>
      have hnewline : (c == '\n') = false := by simpa using hn
      have hreturn : (c == '\r' && ds.head? == some '\n') = false := by
        cases ds with
        | nil => simp
        | cons d ds => simpa using fun hc hd => hr ds hc (by rw [hd])
      have hslash : (c == '/' && (ds.head? == some '/' || ds.head? == some '*')) = false := by
        cases ds with
        | nil => simp
        | cons d ds =>
            simpa using fun hc => ⟨fun hd => hl ds hc (by rw [hd]), fun hd => hb ds hc (by rw [hd])⟩
      simp only [heq, endsExpression, hnewline, hreturn, hslash, Bool.false_or, Bool.or_false]

/-- Only after a carriage return or a slash a second character matters. -/
theorem endsExpression_of_ne {c : Char} {cs : List Char} (hr : c ≠ '\r') (hs : c ≠ '/') :
    endsExpression (c :: cs) = endsExpression [c] := by
  have hr : (c == '\r') = false := by simpa using hr
  have hs : (c == '/') = false := by simpa using hs
  simp only [endsExpression, hr, hs, Bool.false_and]

theorem expressionEnds_append (cs : List Char) {rest : List Char} (hr : Stops isIndent rest) :
    expressionEnds (cs ++ rest) = endsExpression (cs.dropWhile isIndent ++ rest) := by
  rw [expressionEnds_eq, List.dropWhile_append, dropWhile_of_stops hr]
  split
  · next hnil => rw [List.isEmpty_iff.1 hnil, List.nil_append]
  · rfl

theorem continues_eq_false {behind : List Char} (h : Stops isOpenEnded behind) :
    continues behind = false := by
  unfold continues
  split
  · rfl
  · exact stops_cons.1 h
  · rfl

/-- White space and comments end in a white character or in the mark of a block comment. -/
theorem Filler.ends_text (parts : List Filler) (behind : List Char) :
    (Filler.text parts).reverse ++ behind = behind ∨
      ∃ c more, (Filler.text parts).reverse ++ behind = c :: more ∧
        (isSpace c = true ∨ c = '/' ∧ more.head? = some '*') := by
  induction parts generalizing behind with
  | nil => exact .inl rfl
  | cons part parts ih =>
      refine .inr ?_
      rw [Filler.text_cons, List.reverse_append, List.append_assoc]
      rcases ih (part.chars.reverse ++ behind) with hnil | hlast
      · rw [hnil]
        cases part with
        | space c white => exact ⟨c, behind, rfl, .inl white⟩
        | line body oneLine =>
            refine ⟨'\n', ('/' :: '/' :: body).reverse ++ behind, ?_, .inl (by decide)⟩
            simp [Filler.chars]
        | block body unclosed =>
            refine ⟨'/', '*' :: (('/' :: '*' :: body).reverse ++ behind), ?_, .inr ⟨rfl, rfl⟩⟩
            simp [Filler.chars]
      · exact hlast

namespace Boundary

variable {B : Boundary}

structure Lawful (B : Boundary) : Prop where
  follows : ∃ rest, B.follows rest
  atBoundary : ∀ rest, B.follows rest → AtBoundary rest
  /-- Where a line goes on, it does so before the boundary. -/
  trivia : ∀ behind cs, B.Place behind cs → continues behind = true →
    ∃ a b, cs = a ++ b ∧ Nested b ∧ ∀ rest, B.follows rest → triviaWidth (cs ++ rest) = a.length
  expressionEnds : ∀ behind cs, B.Place behind cs →
    ∃ ends, ∀ rest, B.follows rest → expressionEnds (cs ++ rest) = ends

theorem settles_plain (hB : B.Lawful) (ht : t.Plain) : B.Settles (.token t) := by
  intro behind cs hplace
  refine decides_token ?_
  cases hn : t.width behind cs with
  | none => exact .inr fun rest hr => (ht.width behind cs rest (hB.atBoundary rest hr)).trans hn
  | some n =>
      have hle : n ≤ cs.length := (Token.width_bounds hn).1
      refine .inl ⟨cs.take n, cs.drop n, (List.take_append_drop n cs).symm, ?_, fun rest hr => ?_⟩
      · have hnested := hplace.nested
        rw [← List.take_append_drop n cs] at hnested
        exact hnested.of_plain_append
          (all_imp (fun _ => isGroupText_of_isFlat) (ht.chars behind cs n hn))
      · rw [ht.width behind cs rest (hB.atBoundary rest hr), hn, List.length_take,
          Nat.min_eq_left hle]

/-! ### Gaps and ends of expressions -/

theorem decides_trivia (hB : B.Lawful) (hp : B.Place behind cs) (hc : continues behind = true) :
    B.Decides (.rule .trivia) behind cs := by
  obtain ⟨a, b, hcs, hb, hw⟩ := hB.trivia behind cs hp hc
  exact Decides.rule (decides_token (.inl ⟨a, b, hcs, hb, fun rest hr =>
    congrArg some (hw rest hr)⟩))

/-- Where an expression has ended in an operator, a line may go on. -/
theorem Settles.open (hB : B.Lawful) (h : B.Settles e)
    (hopen : ∀ behind a rest f, e.Reads behind a rest f → continues (a.reverse ++ behind) = true)
    (h' : B.Settles e') : B.Settles (.seq e (.seq (.rule .trivia) e')) := by
  intro behind cs hp
  refine (h behind cs hp).seq ?_
  rintro a b f rfl hb hf
  obtain ⟨rest, hr⟩ := hB.follows
  have hplace := hp.advance hb
  refine (decides_trivia hB hplace (hopen behind a _ f (hf rest hr))).seq ?_
  rintro a' b' _ rfl hb' _
  exact h' _ b' (hplace.advance hb')

theorem settles_gap (hB : B.Lawful) : B.Settles (.token .gap) := by
  intro behind cs hp
  by_cases hc : continues behind = true
  · obtain ⟨a, b, hcs, hb, hw⟩ := hB.trivia behind cs hp hc
    refine decides_token (.inl ⟨a, b, hcs, hb, fun rest hr => ?_⟩)
    simp only [Token.width, hc, if_true, hw rest hr]
  · have hindent : ∀ ahead, Token.width behind ahead .gap = Token.width behind ahead .indent := by
      intro ahead
      simp only [Token.width, hc, if_false, Bool.false_eq_true]
    rcases settles_plain hB plain_indent behind cs hp with ⟨a, b, f, rfl, hb, hf⟩ | hno
    · refine decides_token (.inl ⟨a, b, rfl, hb, fun rest hr => ?_⟩)
      rw [hindent, List.append_assoc]
      exact (width_of_reads (hf rest hr)).1
    · exact decides_token (.inr fun rest hr => (hindent _).trans (width_of_refuses (hno rest hr)))

theorem settles_expressionEnd (hB : B.Lawful) : B.Settles (.token .expressionEnd) := by
  intro behind cs hp
  obtain ⟨ends, hends⟩ := hB.expressionEnds behind cs hp
  refine decides_token ?_
  cases ends with
  | true =>
      refine .inl ⟨[], cs, rfl, hp.nested, fun rest hr => ?_⟩
      simp [Token.width, hends rest hr]
  | false =>
      refine .inr fun rest hr => ?_
      simp [Token.width, hends rest hr]

/-! ### Slashes and comments -/

theorem settles_slash (hB : B.Lawful) : B.Settles (.token .slash) := by
  intro behind cs hp
  have hmark : ∀ rest, B.follows rest → Stops isCommentMark rest := fun rest hr =>
    (hB.atBoundary rest hr).stops (by decide)
  have hslash : ∀ rest, B.follows rest → Stops (· == '/') rest := fun rest hr =>
    (hB.atBoundary rest hr).stops (by decide)
  refine decides_token ?_
  cases cs with
  | nil => exact .inr fun rest hr => slashWidth_eq_none (hslash rest hr)
  | cons c cs =>
      by_cases hc : c = '/'
      · subst hc
        rcases hp.nested.slash_cases with ⟨body, tail, rfl, _⟩ | ⟨body, tail, rfl, _⟩ |
          ⟨hlone, htail⟩
        · exact .inr fun rest hr => rfl
        · exact .inr fun rest hr => rfl
        · exact .inl ⟨['/'], cs, rfl, htail, fun rest hr =>
            slashWidth_cons_iff.2 ⟨rfl, hlone.append (hmark rest hr)⟩⟩
      · exact .inr fun rest hr => slashWidth_eq_none (stops_cons.2 (by simpa using hc))

/-- A token that is a block comment of allowed characters, or also a comment to the end of a
line. -/
theorem settles_comment (line : Bool) {p : Char → Bool} (hB : B.Lawful)
    (hw : ∀ behind ahead, t.width behind ahead =
      (if line = true then lineCommentWidth ahead else none).or (blockCommentWidth p ahead)) :
    B.Settles (.token t) := by
  intro behind cs hplace
  have hmark : ∀ rest, B.follows rest → Stops isCommentMark rest := fun rest hr =>
    (hB.atBoundary rest hr).stops (by decide)
  have hnone : ∀ {ahead}, lineCommentWidth ahead = none ∧ blockCommentWidth p ahead = none →
      t.width behind ahead = none := by
    intro ahead h
    simp [hw, h.1, h.2]
  refine decides_token ?_
  cases cs with
  | nil =>
      exact .inr fun rest hr =>
        hnone (comment_eq_none p ((hB.atBoundary rest hr).stops (by decide)))
  | cons c cs =>
      by_cases hc : c = '/'
      · subst hc
        rcases hplace.nested.slash_cases with ⟨body, tail, rfl, hbody, htail⟩ |
          ⟨body, tail, rfl, hbody, htail⟩ | ⟨hlone, _⟩
        · cases line with
          | true =>
              refine .inl ⟨'/' :: '/' :: body, '\n' :: tail, by simp,
                .text '\n' tail (by decide) htail, fun rest hr => ?_⟩
              have hline := lineCommentWidth_append hbody
                (show Stops (· != '\n') ('\n' :: (tail ++ rest)) by simp)
              simp only [List.cons_append] at hline
              simp [hw, hline, Nat.add_comm 2]
          | false => exact .inr fun rest hr => by simp [hw, blockCommentWidth]
        · have hblock : ∀ rest, t.width behind ('/' :: ('*' :: body ++ ['*', '/'] ++ tail) ++ rest) =
              passed 2 (closeWidth p (body ++ '*' :: '/' :: (tail ++ rest))) := by
            intro rest
            simp [hw, lineCommentWidth, blockCommentWidth]
          simp only [hblock, closeWidth_block p hbody]
          by_cases hall : body.all p = true
          · refine .inl ⟨'/' :: '*' :: body ++ ['*', '/'], tail, by simp, htail, fun rest hr => ?_⟩
            simp [hall, passed, Nat.add_comm 2]
          · exact .inr fun rest hr => by simp [hall, passed]
        · exact .inr fun rest hr => hnone (comment_slash_eq_none p (hlone.append (hmark rest hr)))
      · exact .inr fun rest hr =>
          hnone (comment_eq_none p (stops_cons.2 (by simpa using hc)))

/-! ### Literals -/

theorem settles_quoted {w : List Char → Option Nat} {q : Char} (hB : B.Lawful) (hq : q ∈ quotes)
    (hw : ∀ behind ahead, t.width behind ahead = w ahead)
    (hnone : ∀ ahead, Stops (· == q) ahead → w ahead = none)
    (hform : ∀ item, IsLiteral item → (item.head? = some q) → Quoted w q item) :
    B.Settles (.token t) := by
  intro behind cs hplace
  have hmark : ∀ q ∈ quotes, (boundaryMarks.all (!(· == q) ·)) = true := forall_quotes (by decide)
  refine decides_token ?_
  simp only [hw]
  cases cs with
  | nil => exact .inr fun rest hr => hnone rest ((hB.atBoundary rest hr).stops (hmark q hq))
  | cons c cs =>
      by_cases hc : c = q
      · subst hc
        obtain ⟨item, tail, heq, hitem, htail⟩ := hplace.nested.of_quote hq
        obtain ⟨q', body, _, rfl⟩ := hitem.quoted
        obtain ⟨rfl, hcs⟩ := List.cons.inj heq
        obtain ⟨_, _, hwidth⟩ := hform _ hitem rfl
        refine .inl ⟨_, tail, heq, htail, fun rest hr => ?_⟩
        rw [heq, List.append_assoc]
        exact hwidth _
      · exact .inr fun rest hr => hnone _ (stops_cons.2 (by simpa using hc))

theorem settles_string (hB : B.Lawful) : B.Settles (.token .string) := by
  refine settles_quoted hB (q := '"') (by decide) (fun _ _ => rfl) ?_ ?_
  · intro ahead h
    cases ahead with
    | nil => rfl
    | cons c cs => exact stringWidth_eq_none (by simpa using h)
  · rintro item (h | ⟨body, rfl, _⟩ | ⟨body, rfl, _⟩) hq
    · exact h
    · exact absurd (Option.some.inj hq) (by decide)
    · exact absurd (Option.some.inj hq) (by decide)

theorem settles_rawString (hB : B.Lawful) : B.Settles (.token .rawString) := by
  refine settles_quoted hB (q := rawQuote) (by decide) (fun _ _ => rfl) ?_ ?_
  · intro ahead h
    cases ahead with
    | nil => rfl
    | cons c cs =>
        have hc : c ≠ rawQuote := by simpa using h
        simp [hc]
  · rintro item (⟨body, rfl, _⟩ | h | ⟨body, rfl, _⟩) hq
    · exact absurd (Option.some.inj hq) (by decide)
    · exact h
    · exact absurd (Option.some.inj hq) (by decide)

theorem settles_rune (hB : B.Lawful) : B.Settles (.token .rune) := by
  refine settles_quoted hB (q := '\'') (by decide) (fun _ _ => rfl) ?_ ?_
  · intro ahead h
    cases ahead with
    | nil => rfl
    | cons c cs => exact runeWidth_eq_none (by simpa using h)
  · rintro item (⟨body, rfl, _⟩ | ⟨body, rfl, _⟩ | h) hq
    · exact absurd (Option.some.inj hq) (by decide)
    · exact absurd (Option.some.inj hq) (by decide)
    · exact h

/-! ## Groups -/

theorem settles_group (hB : B.Lawful) : B.Settles (.rule .group) := by
  intro behind cs hplace
  cases cs with
  | nil => exact .inr fun rest hr => refuses_group ((hB.atBoundary rest hr).stops (by decide))
  | cons c cs =>
      by_cases hc : c ∈ brackets.map (·.1)
      · obtain ⟨pair, hp, rfl⟩ := List.mem_map.1 hc
        obtain ⟨inner, tail, rfl, hinner, htail⟩ := hplace.nested.of_bracket hp
        obtain ⟨f, hf⟩ := reads_group hp hinner.reads
        exact .inl ⟨pair.1 :: inner ++ [pair.2], tail, f, by simp, htail, fun rest _ =>
          hf behind _⟩
      · exact .inr fun rest hr => refuses_group (stops_cons.2 (by simpa using hc))

/-! ## Brackets -/

def bracket (q : Char) : Boundary := ⟨fun rest => ∃ more, rest = q :: more, fun _ => True⟩

theorem place_bracket (q : Char) (behind : List Char) (h : Nested cs) :
    (bracket q).Place behind cs :=
  ⟨h, trivial⟩

/-- The expression decides on nested text together with the bracket that closes it. -/
def Closes (B : Boundary) (q : Char) (e : Peg) : Prop :=
  ∀ behind inner tail, Nested inner → Nested tail →
    B.text ((inner ++ q :: tail).reverse ++ behind) → B.Decides e behind (inner ++ q :: tail)

theorem closes_lit {pair : Char × Char} (hp : pair ∈ brackets) : B.Closes pair.2 (.lit pair.2) := by
  intro behind inner tail hinner htail _
  cases inner with
  | nil => exact .inl ⟨[pair.2], tail, _, rfl, htail, fun _ _ => reads_lit pair.2⟩
  | cons c inner =>
      exact .inr fun _ _ => refuses_lit (stops_cons.2 (by simpa using hinner.ne_close hp))

theorem closes_lit_seq {pair : Char × Char} (hfollow : ∃ rest, B.follows rest)
    (hp : pair ∈ brackets) (h : B.Settles e) : B.Closes pair.2 (.seq (.lit pair.2) e) := by
  intro behind inner tail hinner htail hknown
  refine (closes_lit hp behind inner tail hinner htail hknown).seq ?_
  intro a b f heq _ hf
  obtain ⟨rest, hr⟩ := hfollow
  obtain ⟨rfl, _⟩ := lit_of_reads (hf rest hr)
  cases inner with
  | nil =>
      obtain rfl := (List.cons.inj heq).2
      exact h _ _ ⟨htail, by simpa using hknown⟩
  | cons c inner => exact absurd (List.cons.inj heq).1 (hinner.ne_close hp)

theorem closes_seq {q : Char} (h : (bracket q).Settles e) (h' : B.Closes q e') :
    B.Closes q (.seq e e') := by
  intro behind inner tail hinner htail hknown
  rcases h behind inner (place_bracket q behind hinner) with ⟨a, b, f, rfl, hb, hf⟩ | hno
  · have hfirst : ∀ rest, e.Reads behind a ((b ++ q :: tail) ++ rest) f := fun rest => by
      have hreads := hf (q :: (tail ++ rest)) ⟨_, rfl⟩
      simpa using hreads
    rcases h' (a.reverse ++ behind) b tail hb htail (by simpa using hknown) with
      ⟨a', b', g, heq, hb', hg⟩ | hno
    · refine .inl ⟨a ++ a', b', f.append g, by simp [← heq], hb', fun rest hr => ?_⟩
      have hfirst := hfirst rest
      rw [heq, List.append_assoc] at hfirst
      exact reads_seq hfirst (hg rest hr)
    · refine .inr fun rest hr => ?_
      rw [List.append_assoc, List.append_assoc]
      have hrefuse := hno rest hr
      have hfirst := hfirst rest
      rw [List.append_assoc] at hrefuse hfirst
      exact refuses_seq_second hfirst hrefuse
  · refine .inr fun rest _ => refuses_seq_first ?_
    have hrefuse := hno (q :: (tail ++ rest)) ⟨_, rfl⟩
    simpa using hrefuse

theorem settles_bracketed {pair : Char × Char} (hB : B.Lawful) (hp : pair ∈ brackets)
    (h : B.Closes pair.2 e) : B.Settles (.seq (.lit pair.1) e) := by
  intro behind cs hplace
  have hopen : ∀ pair ∈ brackets, (boundaryMarks.all (!(· == pair.1) ·)) = true := by decide
  cases cs with
  | nil =>
      exact .inr fun rest hr =>
        refuses_seq_first (refuses_lit ((hB.atBoundary rest hr).stops (hopen pair hp)))
  | cons c cs =>
      by_cases hc : c = pair.1
      · subst hc
        -- The closing bracket is in the text, so nothing inside is read up to the boundary `B`.
        obtain ⟨inner, tail, rfl, hinner, htail⟩ := hplace.nested.of_bracket hp
        rcases h (pair.1 :: behind) inner tail hinner htail (by simpa using hplace.known) with
          ⟨a, b, f, heq, hb, hf⟩ | hno
        · exact .inl ⟨[pair.1] ++ a, b, _, by simp [heq], hb, fun rest hr =>
            reads_seq (reads_lit pair.1) (hf rest hr)⟩
        · refine .inr fun rest hr => ?_
          have hopen : (Peg.lit pair.1).Reads behind [pair.1]
              (inner ++ pair.2 :: tail ++ rest) _ := reads_lit pair.1
          have hrefuse := refuses_seq_second hopen (hno rest hr)
          simpa using hrefuse
      · exact .inr fun rest hr =>
          refuses_seq_first (refuses_lit (stops_cons.2 (by simpa using hc)))

/-- Inside of brackets white space and comments end before the closing one. -/
theorem trivia_bracket {pair : Char × Char} (hp : pair ∈ brackets) (h : Nested cs) :
    ∃ a b, cs = a ++ b ∧ Nested b ∧
      ∀ rest, (bracket pair.2).follows rest → triviaWidth (cs ++ rest) = a.length := by
  have hclose : ∀ pair ∈ brackets, isSpace pair.2 = false ∧ pair.2 ≠ '/' := by decide
  obtain ⟨parts, ds, rfl, hds, hsolid⟩ := h.filler
  refine ⟨Filler.text parts, ds, rfl, hds, ?_⟩
  rintro _ ⟨more, rfl⟩
  have hstop : Closing (pair.2 :: more) := ⟨pair, hp, more, rfl⟩
  rw [List.append_assoc]
  refine triviaWidth_append parts ?_
  rcases hsolid with rfl | hsolid
  · exact solid_cons (hclose pair hp).1 (hclose pair hp).2
  · exact hsolid _ hstop.stops_mark

theorem lawful_bracket {pair : Char × Char} (hp : pair ∈ brackets) : (bracket pair.2).Lawful where
  follows := ⟨[pair.2], [], rfl⟩
  atBoundary := by
    have hmark : ∀ pair ∈ brackets, pair.2 ∈ boundaryMarks := by decide
    rintro _ ⟨more, rfl⟩ c hc
    obtain rfl : pair.2 = c := by simpa using hc
    exact hmark pair hp
  trivia := fun _ _ hplace _ => trivia_bracket hp hplace.nested
  expressionEnds := by
    intro behind cs _
    have hclose : ∀ pair ∈ brackets, isIndent pair.2 = false ∧ pair.2 ≠ '\r' ∧ pair.2 ≠ '/' := by
      decide
    obtain ⟨hindent, hreturn, hslash⟩ := hclose pair hp
    have hdrop : ∀ more, expressionEnds (cs ++ pair.2 :: more) =
        endsExpression (cs.dropWhile isIndent ++ pair.2 :: more) := fun more =>
      expressionEnds_append cs (stops_cons.2 hindent)
    generalize cs.dropWhile isIndent = ds at hdrop
    rcases ds with _ | ⟨c, _ | ⟨d, ds⟩⟩
    · refine ⟨endsExpression [pair.2], ?_⟩
      rintro _ ⟨more, rfl⟩
      rw [hdrop, List.nil_append, endsExpression_of_ne hreturn hslash]
    · exact ⟨endsExpression [c, pair.2], by rintro _ ⟨more, rfl⟩; exact hdrop more⟩
    · exact ⟨endsExpression [c, d], by rintro _ ⟨more, rfl⟩; exact hdrop more⟩

theorem settles_trivia {pair : Char × Char} (hp : pair ∈ brackets) :
    (bracket pair.2).Settles (.rule .trivia) := by
  intro behind cs hplace
  obtain ⟨a, b, hcs, hb, hw⟩ := trivia_bracket hp hplace.nested
  exact Decides.rule (decides_token (.inl ⟨a, b, hcs, hb, fun rest hr =>
    congrArg some (hw rest hr)⟩))

/-! ## Ends of lines -/

/-- Before the end of the text or one of some marks. The text does not end as if it went on. -/
def lineEnd (marks : List Char) : Boundary :=
  ⟨fun rest => ∀ c ∈ rest.head?, c ∈ marks, fun text => Stops isSpace text ∧ Stops isOpenEnded text⟩

theorem lawful_lineEnd {marks : List Char} (hm : ∀ c ∈ marks, c = '\n' ∨ c = ';') :
    (lineEnd marks).Lawful where
  follows := ⟨[], by simp [lineEnd]⟩
  atBoundary := by
    intro rest hr c hc
    rcases hm c (hr c hc) with rfl | rfl <;> decide
  trivia := by
    intro behind cs hplace hcontinues
    obtain ⟨parts, ds, rfl, hds, hsolid⟩ := hplace.nested.filler
    refine ⟨Filler.text parts, ds, rfl, hds, fun rest hr => ?_⟩
    rw [List.append_assoc]
    refine triviaWidth_append parts ?_
    rcases hsolid with rfl | hsolid
    · -- The text would end in an operator, in white space or in a comment.
      obtain ⟨hspace, hopen⟩ := hplace.known
      rw [List.append_nil] at hspace hopen
      rcases Filler.ends_text parts behind with hnil | ⟨c, more, hlast, hc⟩
      · rw [hnil] at hopen
        exact absurd hcontinues (by simp [continues_eq_false hopen])
      · rw [hlast] at hspace hopen
        rcases hc with hc | ⟨rfl, _⟩
        · exact absurd hc (by simp [stops_cons.1 hspace])
        · exact absurd (stops_cons.1 hopen) (by decide)
    · refine hsolid rest fun c hc => ?_
      rcases hm c (hr c hc) with rfl | rfl <;> decide
  expressionEnds := by
    intro behind cs hplace
    have hindent : ∀ rest, (lineEnd marks).follows rest → Stops isIndent rest := by
      intro rest hr c hc
      rcases hm c (hr c hc) with rfl | rfl <;> decide
    have hdrop : ∀ rest, (lineEnd marks).follows rest → expressionEnds (cs ++ rest) =
        endsExpression (cs.dropWhile isIndent ++ rest) := fun rest hr =>
      expressionEnds_append cs (hindent rest hr)
    obtain ⟨hspace, hopen⟩ := hplace.known
    have hcs : cs = cs.takeWhile isIndent ++ cs.dropWhile isIndent :=
      List.takeWhile_append_dropWhile.symm
    rcases hds : cs.dropWhile isIndent with _ | ⟨c, _ | ⟨d, ds⟩⟩
    · refine ⟨true, fun rest hr => ?_⟩
      rw [hdrop rest hr, hds, List.nil_append]
      cases rest with
      | nil => rfl
      | cons c rest => rcases hm c (hr c (by simp)) with rfl | rfl <;> rfl
    · -- The last character of the text is neither white space nor a slash.
      rw [hds] at hcs
      rw [hcs, List.reverse_append] at hspace hopen
      have hreturn : c ≠ '\r' := by
        rintro rfl
        exact absurd (stops_cons.1 hspace) (by decide)
      have hslash : c ≠ '/' := by
        rintro rfl
        exact absurd (stops_cons.1 hopen) (by decide)
      refine ⟨endsExpression [c], fun rest hr => ?_⟩
      rw [hdrop rest hr, hds, List.singleton_append, endsExpression_of_ne hreturn hslash]
    · exact ⟨endsExpression [c, d], fun rest hr => by rw [hdrop rest hr, hds]; rfl⟩

end Boundary
end EnumNames.Grammar
