import EnumNames.Proofs.Boundary

/-!
What is read is nested. Every piece that an expression of a declaration takes
may be put before nested text, as long as the text begins like the rest that the
piece was read before. A comment up to the end of its line asks for the line end
to be there, so at the end of a text this holds only of expressions that do not
end in such a comment.
-/

namespace EnumNames.Grammar

open EnumNames.Text

variable {e e' : Peg} {t : Token} {r : Rule} {f : Forest} {behind cs ds rest : List Char}

/-! ## Joining -/

/-- The text begins like the rest, as far as slashes and comments ask for it. -/
structure Follows (rest tail : List Char) : Prop where
  mark : Stops isCommentMark rest → Stops isCommentMark tail
  newline : rest.head? = some '\n' → tail.head? = some '\n'

theorem Follows.append (h : Follows rest ds) (cs : List Char) :
    Follows (cs ++ rest) (cs ++ ds) := by
  cases cs with
  | nil => exact h
  | cons c cs => exact ⟨id, id⟩

theorem follows_nil (hr : rest.head? ≠ some '\n') : Follows rest [] :=
  ⟨fun _ => stops_nil _, fun h => absurd h hr⟩

def isVertical (c : Char) : Bool := isSpace c && !isIndent c

/-- Nested text stays nested behind the characters, if it begins like the rest. Unless they are
sealed this asks for something to follow; if they are, they end within a line. -/
structure Joins (sealed : Bool) (cs rest : List Char) : Prop where
  nested : sealed = true ∨ rest ≠ [] → ∀ tail, Nested tail → Follows rest tail → Nested (cs ++ tail)
  flat : sealed = true → Stops isVertical cs.reverse

variable {sealed : Bool}

theorem Joins.weaken (h : Joins true cs rest) : Joins sealed cs rest :=
  ⟨fun _ => h.nested (.inl rfl), fun _ => h.flat rfl⟩

theorem joins_nil : Joins sealed [] rest := ⟨fun _ _ htail _ => htail, fun _ => stops_nil _⟩

theorem Joins.append (h : Joins sealed cs (ds ++ rest)) (h' : Joins sealed ds rest) :
    Joins sealed (cs ++ ds) rest where
  nested := by
    intro hr tail htail hfollows
    rw [List.append_assoc]
    refine h.nested ?_ _ (h'.nested hr tail htail hfollows) (hfollows.append ds)
    exact hr.imp id fun hne hnil => hne (List.append_eq_nil_iff.1 hnil).2
  flat := by
    intro hs
    rw [List.reverse_append]
    exact (h'.flat hs).append (h.flat hs)

/-- What stands before something need not be sealed. -/
theorem Joins.append_solid (h : Joins false cs (ds ++ rest)) (h' : Joins sealed ds rest)
    (hne : ds ≠ []) : Joins sealed (cs ++ ds) rest where
  nested := by
    intro hr tail htail hfollows
    rw [List.append_assoc]
    refine h.nested (.inr fun hnil => ?_) _ (h'.nested hr tail htail hfollows) (hfollows.append ds)
    exact hne (List.append_eq_nil_iff.1 hnil).1
  flat := by
    intro hs
    have hflat := h'.flat hs
    have hreverse : ds.reverse ≠ [] := by simpa using hne
    rw [List.reverse_append]
    generalize ds.reverse = bs at hflat hreverse
    cases bs with
    | nil => exact absurd rfl hreverse
    | cons b bs => exact hflat

theorem joins_plain (h : cs.all isFlat = true) : Joins sealed cs rest where
  nested := fun _ _ htail _ => .plain_append (all_imp (fun _ => isGroupText_of_isFlat) h) htail
  flat := by
    intro _ c hc
    have hflat := List.all_eq_true.1 h c (List.mem_reverse.1 (List.mem_of_mem_head? hc))
    simp only [isFlat, Bool.and_eq_true, Bool.or_eq_true, Bool.not_eq_true'] at hflat
    rcases hflat.2 with hindent | hspace
    · simp [isVertical, hindent]
    · simp [isVertical, hspace]

theorem stops_isVertical_concat {c : Char} (h : isVertical c = false) :
    Stops isVertical (cs ++ [c]).reverse := by
  rw [List.reverse_append]
  exact stops_cons.2 h

theorem joins_group {pair : Char × Char} (hp : pair ∈ brackets) (h : Nested cs) :
    Joins sealed (pair.1 :: cs ++ [pair.2]) rest where
  nested := fun _ tail htail _ => .group pair cs tail hp h htail
  flat := by
    have hclose : ∀ pair ∈ brackets, isVertical pair.2 = false := by decide
    exact fun _ => stops_isVertical_concat (hclose pair hp)

theorem joins_literal (h : IsLiteral cs) : Joins sealed cs rest where
  nested := fun _ tail htail _ => .literal cs tail h htail
  flat := by
    have hquote : ∀ q ∈ quotes, isVertical q = false := forall_quotes (by decide)
    obtain ⟨q, body, hq, rfl⟩ := h.quoted
    exact fun _ => stops_isVertical_concat (hquote q hq)

theorem joins_slash (h : Stops isCommentMark rest) : Joins sealed ['/'] rest where
  nested := fun _ tail htail hfollows => .slash tail (hfollows.mark h) htail
  flat := fun _ => stops_cons.2 (by decide)

theorem joins_block {p : Char → Bool} (h : blockCommentWidth p (cs ++ rest) = some cs.length) :
    Joins sealed cs rest := by
  obtain ⟨body, rfl, hbody, _⟩ := form_of_blockCommentWidth h
  refine ⟨fun _ tail htail _ => .block body tail hbody htail, fun _ => ?_⟩
  rw [List.reverse_append]
  exact stops_cons.2 (by decide)

theorem joins_line (h : lineCommentWidth (cs ++ rest) = some cs.length) : Joins false cs rest where
  nested := by
    intro hr tail htail hfollows
    obtain ⟨body, rfl, hbody, hstop⟩ := form_of_lineCommentWidth h
    have hnewline : rest.head? = some '\n' := by
      cases rest with
      | nil => simp at hr
      | cons c rest => simpa using hstop
    have hhead := hfollows.newline hnewline
    cases tail with
    | nil => cases hhead
    | cons c tail =>
        obtain rfl : c = '\n' := by simpa using hhead
        exact .line body tail hbody (htail.tail (by decide))
  flat := by simp

/-- What is passed over and does not begin with white space begins with a comment. -/
theorem comment_of_triviaWidth {c : Char} (hs : ¬ isSpace c = true)
    (h : triviaWidth (c :: cs ++ rest) = (c :: cs).length) :
    ∃ item tail, c :: cs = item ++ tail ∧
      commentWidth (item ++ (tail ++ rest)) = some item.length ∧
      triviaWidth (c :: cs ++ rest) = item.length + triviaWidth (tail ++ rest) := by
  cases hw : commentWidth (c :: cs ++ rest) with
  | none =>
      rw [List.cons_append] at hw
      simp [triviaWidth, triviaFrom, hs, hw] at h
  | some n =>
      have hc : c = '/' := by
        by_contra hc
        rw [List.cons_append, commentWidth_eq_none hc] at hw
        cases hw
      obtain ⟨hpos, hle⟩ := commentWidth_bounds hw
      obtain ⟨k, rfl⟩ : ∃ k, n = k + 1 := ⟨n - 1, by omega⟩
      subst hc
      have hsplit : ('/' :: cs ++ rest) = '/' :: (cs ++ rest).take k ++ (cs ++ rest).drop k := by
        simp
      have hlen : ((cs ++ rest).take k).length = k := by
        rw [List.length_take]
        simp only [List.length_append, List.length_cons] at hle ⊢
        omega
      have htotal : triviaWidth ('/' :: cs ++ rest) =
          k + 1 + triviaWidth ((cs ++ rest).drop k) := by
        have hitem : commentWidth ('/' :: (cs ++ rest).take k ++ (cs ++ rest).drop k) =
            some (((cs ++ rest).take k).length + 1) := by rw [← hsplit, hw, hlen]
        have hslash := triviaWidth_slash hitem
        rwa [← hsplit, hlen] at hslash
      have hk : k ≤ cs.length := by
        rw [h, List.length_cons] at htotal
        omega
      rw [List.drop_append_of_le_length hk] at htotal
      refine ⟨'/' :: cs.take k, cs.drop k, by simp, ?_, ?_⟩
      · rw [← List.append_assoc]
        simpa [List.length_take, Nat.min_eq_left hk] using hw
      · simpa [List.length_take, Nat.min_eq_left hk] using htotal

/-- White space and comments that are read before something are complete. -/
theorem filler_of_triviaWidth (h : triviaWidth (cs ++ rest) = cs.length) (hne : rest ≠ []) :
    Solid rest ∧ ∃ parts, cs = Filler.text parts := by
  suffices hparts : ∃ parts, cs = Filler.text parts by
    obtain ⟨parts, rfl⟩ := hparts
    rw [triviaWidth_text] at h
    refine ⟨?_, parts, rfl⟩
    unfold Solid
    omega
  induction hn : cs.length using Nat.strongRecOn generalizing cs with
  | ind n ih =>
      subst hn
      have hpart : ∀ (part : Filler) (tail : List Char), cs = part.chars ++ tail →
          ∃ parts, cs = Filler.text parts := by
        rintro part tail rfl
        have hlt : tail.length < (part.chars ++ tail).length := by
          cases part <;> simp [Filler.chars] <;> omega
        rw [List.append_assoc, triviaWidth_chars, List.length_append] at h
        obtain ⟨parts, rfl⟩ := ih tail.length hlt (by omega) rfl
        exact ⟨part :: parts, rfl⟩
      cases cs with
      | nil => exact ⟨[], rfl⟩
      | cons c cs =>
          by_cases hs : isSpace c = true
          · exact hpart (.space c hs) cs rfl
          obtain ⟨item, tail, heq, hwidth, htotal⟩ := comment_of_triviaWidth hs h
          rcases form_of_commentWidth hwidth with ⟨body, rfl, hbody, hstop⟩ | ⟨body, rfl, hbody⟩
          · -- The line ends before the rest, or else its end would have been read.
            cases tail with
            | nil =>
                obtain ⟨d, rest, rfl⟩ := List.ne_nil_iff_exists_cons.1 hne
                obtain rfl : d = '\n' := by simpa using hstop
                have hspace := triviaWidth_space (show isSpace '\n' = true by decide) rest
                rw [List.nil_append, hspace, h, heq, List.append_nil] at htotal
                omega
            | cons d tail =>
                obtain rfl : d = '\n' := by simpa using hstop
                exact hpart (.line body hbody) tail (by simp [heq, Filler.chars])
          · exact hpart (.block body hbody) tail heq

theorem joins_trivia (h : triviaWidth (cs ++ rest) = cs.length) : Joins false cs rest where
  nested := by
    intro hr tail htail _
    obtain ⟨_, parts, rfl⟩ := filler_of_triviaWidth h (by simpa using hr)
    exact .text_append parts htail
  flat := by simp

/-- A semicolon is taken where it stands. -/
theorem form_of_semicolon
    (h : (if (cs ++ rest).head? == some ';' then 1 else 0) = cs.length) :
    cs = [';'] ∨ cs = [] ∧ Stops (· == ';') rest := by
  cases cs with
  | nil =>
      refine .inr ⟨rfl, ?_⟩
      cases rest with
      | nil => exact stops_nil _
      | cons c rest => simpa using h
  | cons c cs =>
      by_cases hc : c = ';'
      · left
        simpa [hc] using h
      · simp [hc] at h

/-! ## Expressions -/

def Peg.Nests (e : Peg) (sealed : Bool) : Prop :=
  ∀ behind cs rest f, e.Reads behind cs rest f → Joins sealed cs rest

namespace Peg.Nests

theorem rule (h : r.body.Nests sealed) : (Peg.rule r).Nests sealed := by
  intro behind cs rest f hreads
  obtain ⟨g, _, hbody⟩ := body_of_reads hreads
  exact h behind cs rest g hbody

theorem seq (h : e.Nests sealed) (h' : e'.Nests sealed) : (Peg.seq e e').Nests sealed := by
  intro behind cs rest f hreads
  obtain ⟨a, b, _, _, rfl, ha, hb, _⟩ := parts_of_reads_seq hreads
  exact (h _ _ _ _ ha).append (h' _ _ _ _ hb)

theorem seq_solid (h : e.Nests false) (h' : e'.Nests sealed) (he' : e'.mayBeEmpty = false) :
    (Peg.seq e e').Nests sealed := by
  intro behind cs rest f hreads
  obtain ⟨a, b, _, _, rfl, ha, hb, _⟩ := parts_of_reads_seq hreads
  exact (h _ _ _ _ ha).append_solid (h' _ _ _ _ hb) (hb.ne_nil he')

theorem choice (h : e.Nests sealed) (h' : e'.Nests sealed) : (Peg.choice e e').Nests sealed := by
  intro behind cs rest f hreads
  rcases parts_of_reads_choice hreads with hreads | ⟨_, hreads⟩
  · exact h behind cs rest f hreads
  · exact h' behind cs rest f hreads

theorem optional (h : e.Nests sealed) : (Peg.optional e).Nests sealed := by
  intro behind cs rest f hreads
  rcases parts_of_reads_optional hreads with hreads | ⟨rfl, _, _⟩
  · exact h behind cs rest f hreads
  · exact joins_nil

theorem many (he : e.mayBeEmpty = false) (h : e.Nests sealed) : (Peg.many e).Nests sealed := by
  intro behind cs rest f hreads
  refine hreads.many_induction (P := fun _ cs _ => Joins sealed cs rest) he ?_ ?_
  · exact fun _ _ => joins_nil
  · exact fun _ _ _ _ _ ha _ hb => (h _ _ _ _ ha).append hb

theorem token (h : ∀ behind cs rest, t.width behind (cs ++ rest) = some cs.length →
    Joins sealed cs rest) : (Peg.token t).Nests sealed :=
  fun behind cs rest _ hreads => h behind cs rest (width_of_reads hreads).1

theorem plain (ht : t.Plain) : (Peg.token t).Nests sealed := token fun behind cs rest hw => by
  have hchars := ht.chars behind (cs ++ rest) cs.length hw
  rw [List.take_left] at hchars
  exact joins_plain hchars

theorem group : (Peg.rule .group).Nests sealed := by
  intro behind cs rest f hreads
  obtain ⟨pair, hp, inner, _, rfl, hinner⟩ := parts_of_reads_group hreads
  exact joins_group hp (nested_of_reads hinner ⟨pair, hp, rest, rfl⟩)

theorem stringLit : (Peg.rule .stringLit).Nests sealed :=
  .rule (token fun _ _ _ hw => joins_literal (.inl (quoted_string hw)))

theorem rawString : (Peg.rule .rawString).Nests sealed :=
  .rule (token fun _ _ _ hw => joins_literal (.inr (.inl (quoted_rawString hw))))

theorem charLit : (Peg.rule .charLit).Nests sealed :=
  .rule (token fun _ _ _ hw => joins_literal (.inr (.inr (quoted_rune hw))))

theorem slash : (Peg.token .slash).Nests sealed := token fun _ cs rest hw => by
  obtain ⟨rfl, hmark⟩ := form_of_slashWidth hw
  exact joins_slash hmark

theorem inlineComment : (Peg.token .inlineComment).Nests sealed :=
  token fun _ _ _ hw => by exact joins_block hw

theorem shortComment : (Peg.token .shortComment).Nests false := token fun _ cs rest hw => by
  rcases Option.or_eq_some_iff.1 hw with hline | ⟨_, hblock⟩
  · exact joins_line hline
  · exact joins_block hblock

theorem comment : (Peg.token .comment).Nests false := token fun _ cs rest hw => by
  rcases Option.or_eq_some_iff.1 hw with hline | ⟨_, hblock⟩
  · exact joins_line hline
  · exact joins_block hblock

theorem trivia : (Peg.token .trivia).Nests false := token fun _ _ _ hw => by
  exact joins_trivia (Option.some.inj hw)

theorem gap : (Peg.token .gap).Nests false := token fun behind cs rest hw => by
  simp only [Token.width, Option.some.injEq] at hw
  split at hw
  · exact joins_trivia hw
  · exact joins_plain (all_imp (fun _ => isFlat_of_isIndent) (run_of_takeWhile hw).1)

theorem groupText : (Peg.token .groupText).Nests false := token fun _ _ _ hw =>
  ⟨fun _ _ htail _ => .plain_append (run_of_takeWhile (runWidth_eq_some hw).1.symm).1 htail,
    by simp⟩

theorem groupBody : (Peg.rule .groupBody).Nests false :=
  .rule (.many rfl (.rule (.choice .group (.choice .stringLit (.choice .rawString (.choice .charLit
    (.choice (.rule .comment) (.choice (.rule .groupText) (.rule .slash)))))))))

end Peg.Nests

end EnumNames.Grammar
