import EnumNames.Proofs.NestedReading

/-!
Where a text is cut. Reading stops before something that begins with neither
white space nor a comment. The nested text before it stays nested before whatever
follows in the same way, so no comment begins across the cut, and the white space
and comments of the text end before it.
-/

namespace EnumNames.Grammar

open EnumNames.Text

variable {cs ds later : List Char}

/-! ## What is left over -/

/-- Something is left over, and it begins with neither white space nor a comment. -/
structure LeftOver (later : List Char) : Prop where
  ne_nil : later ≠ []
  solid : Solid later

theorem Solid.head {c : Char} (h : Solid (c :: cs)) :
    isSpace c = false ∧ commentWidth (c :: cs) = none := by
  unfold Solid triviaWidth at h
  rw [triviaFrom] at h
  split at h
  · omega
  · next hspace =>
      split at h
      · omega
      · next hnone => exact ⟨by simpa using hspace, hnone⟩

theorem solid_of_comment {c : Char} (hs : isSpace c = false)
    (h : commentWidth (c :: cs) = none) : Solid (c :: cs) := by
  simp [Solid, triviaWidth, triviaFrom, hs, h]

theorem Solid.stops (h : Solid cs) : Stops isSpace cs := by
  cases cs with
  | nil => exact stops_nil _
  | cons c cs => exact stops_cons.2 h.head.1

/-- The width of a comment of allowed characters, or also of one to the end of a line. -/
def commentWidthOf (line : Bool) (p : Char → Bool) (cs : List Char) : Option Nat :=
  (if line = true then lineCommentWidth cs else none).or (blockCommentWidth p cs)

/-- A comment stays one in a longer text. -/
theorem commentWidthOf_append (line : Bool) (p : Char → Bool)
    (h : commentWidthOf line p cs ≠ none) : commentWidthOf line p (cs ++ ds) ≠ none := by
  obtain ⟨n, hn⟩ := Option.ne_none_iff_exists'.1 h
  rcases Option.or_eq_some_iff.1 hn with hline | ⟨_, hblock⟩
  · split at hline
    · unfold lineCommentWidth at hline
      split at hline
      · simp [commentWidthOf, lineCommentWidth, *]
      · cases hline
    · cases hline
  · have hlen : (cs.take n).length = n :=
      List.length_take_of_le (blockCommentWidth_bounds hblock).2
    rw [← List.take_append_drop n cs] at hblock ⊢
    generalize cs.take n = item at hblock hlen ⊢
    generalize cs.drop n = tail at hblock ⊢
    subst hlen
    obtain ⟨body, rfl, hbody, hall⟩ := form_of_blockCommentWidth hblock
    have hlonger := blockCommentWidth_append hbody hall (tail ++ ds)
    simp only [List.append_assoc, List.cons_append, List.nil_append] at hlonger ⊢
    simp [commentWidthOf, hlonger]

theorem Solid.of_append (h : Solid (cs ++ ds)) : Solid cs := by
  cases cs with
  | nil => rfl
  | cons c cs =>
      obtain ⟨hspace, hcomment⟩ := Solid.head h
      refine solid_of_comment hspace ?_
      by_contra hsome
      exact commentWidthOf_append true (fun _ => true) hsome hcomment

namespace LeftOver

theorem stops_indent (h : LeftOver later) : Stops isIndent later :=
  h.solid.stops.mono fun _ => isSpace_of_isIndent

theorem head_ne_newline (h : LeftOver later) : later.head? ≠ some '\n' := by
  intro hhead
  exact absurd (h.solid.stops '\n' hhead) (by decide)

end LeftOver

/-! ## Seams -/

/-- The text is nested, whatever follows the cut in the same way. -/
def Seam (cs later : List Char) : Prop :=
  ∀ tail, Nested tail → Follows later tail → Nested (cs ++ tail)

namespace Seam

theorem nil : Seam [] later := fun _ htail _ => htail

theorem append (hl : LeftOver later) (h : Joins false cs (ds ++ later)) (hd : Seam ds later) :
    Seam (cs ++ ds) later := by
  intro tail htail hfollows
  rw [List.append_assoc]
  exact h.nested (.inr (by simp [hl.ne_nil])) _ (hd tail htail hfollows) (hfollows.append ds)

theorem nested (h : Seam cs later) (hl : LeftOver later) : Nested cs := by
  simpa using h [] .nil (follows_nil hl.head_ne_newline)

theorem of_plain_append (h : Seam (cs ++ ds) later) (hc : cs.all isGroupText = true) :
    Seam ds later := by
  intro tail htail hfollows
  have hnested := h tail htail hfollows
  rw [List.append_assoc] at hnested
  exact hnested.of_plain_append hc

/-- No comment begins across the cut. -/
theorem stops_mark (h : Seam ['/'] later) (hl : LeftOver later) : Stops isCommentMark later := by
  by_contra hmark
  have hfollows : Follows later ['*'] :=
    ⟨fun hstop => absurd hstop hmark, fun hhead => absurd hhead hl.head_ne_newline⟩
  have hnested := h ['*'] (.text '*' [] (by decide) .nil) hfollows
  rcases hnested.slash_cases with ⟨body, tail, heq, _⟩ | ⟨body, tail, heq, _⟩ | ⟨hlone, _⟩
  · cases heq
  · have hlength := congrArg List.length heq
    simp at hlength
  · exact absurd (stops_cons.1 hlone) (by decide)

end Seam

theorem commentWidth_line {body : List Char} (h : '\n' ∉ body) (tail : List Char) :
    commentWidth ('/' :: '/' :: body ++ '\n' :: tail) = some (body.length + 2) := by
  have hends : Stops (· != '\n') ('\n' :: tail) := stops_cons.2 rfl
  rw [commentWidth, lineCommentWidth_append h hends, Nat.add_comm]
  rfl

theorem commentWidth_block_length {body : List Char} (h : ¬ ['*', '/'] <:+: body)
    (tail : List Char) : commentWidth (('/' :: '*' :: body ++ ['*', '/']) ++ tail) =
      some ('/' :: '*' :: body ++ ['*', '/']).length := by
  rw [commentWidth_block h]
  simp

/-- Nested text stays nested without a comment before it. -/
theorem Nested.of_comment_append (h : Nested (cs ++ ds))
    (hw : commentWidth (cs ++ ds) = some cs.length) : Nested ds := by
  -- Whatever comment the text is found to begin with, it is as wide as this one.
  have hsame {a b : List Char} (heq : cs ++ ds = a ++ b)
      (ha : commentWidth (a ++ b) = some a.length) : ds = b := by
    rw [heq, ha] at hw
    exact (List.append_inj heq (Option.some.inj hw).symm).2
  obtain ⟨more, hmore⟩ : ∃ more, cs ++ ds = '/' :: more := by
    rcases form_of_commentWidth hw with ⟨body, rfl, _⟩ | ⟨body, rfl, _⟩
    · exact ⟨_, rfl⟩
    · exact ⟨_, rfl⟩
  rw [hmore] at h
  rcases h.slash_cases with ⟨body, tail, heq, hbody, htail⟩ | ⟨body, tail, heq, hbody, htail⟩ |
    ⟨hlone, _⟩
  · rw [hsame (hmore.trans (congrArg _ heq)) (commentWidth_line hbody tail)]
    exact .text '\n' tail (by decide) htail
  · rw [hsame (hmore.trans (congrArg _ heq)) (commentWidth_block_length hbody tail)]
    exact htail
  · rw [hmore, commentWidth_slash_eq_none hlone] at hw
    cases hw

/-- Nested text stays nested without the white space and comments before it. -/
theorem Nested.of_text_append {parts : List Filler} (h : Nested (Filler.text parts ++ ds)) :
    Nested ds := by
  induction parts with
  | nil => exact h
  | cons part parts ih =>
      refine ih ?_
      rw [Filler.text_cons, List.append_assoc] at h
      generalize Filler.text parts ++ ds = tail at h
      cases part with
      | space c white => exact h.tail (isGroupText_of_isSpace white)
      | line body oneLine =>
          rw [Filler.chars, List.append_assoc] at h
          have hbehind := h.of_comment_append (commentWidth_line oneLine tail)
          exact hbehind.tail (by decide)
      | block body unclosed => exact h.of_comment_append (commentWidth_block_length unclosed tail)

/-- White space and comments end before the cut. -/
theorem Seam.filler (hl : LeftOver later) (h : Seam cs later) :
    ∃ parts ds, cs = Filler.text parts ++ ds ∧ Seam ds later ∧ Solid (ds ++ later) := by
  obtain ⟨parts, ds, rfl, hds, hsolid⟩ := (h.nested hl).filler
  have hseam : Seam ds later := by
    intro tail htail hfollows
    have hnested := h tail htail hfollows
    rw [List.append_assoc] at hnested
    exact hnested.of_text_append
  refine ⟨parts, ds, rfl, hseam, ?_⟩
  cases ds with
  | nil => exact hl.solid
  | cons c ds =>
      have hsolid : Solid (c :: ds) := by
        cases hsolid with
        | inl hnil => cases hnil
        | inr hrest => simpa using hrest [] (stops_nil _)
      by_cases hc : c = '/'
      · subst hc
        refine solid_of_comment hsolid.head.1 (commentWidth_slash_eq_none ?_)
        cases ds with
        | nil => exact hseam.stops_mark hl
        | cons d ds =>
            refine stops_cons.2 ?_
            rcases hds.slash_cases with ⟨body, tail, heq, _⟩ | ⟨body, tail, heq, hbody, _⟩ |
              ⟨hlone, _⟩
            · have hcomment := hsolid.head.2
              rw [heq] at hcomment
              simp [commentWidth, lineCommentWidth] at hcomment
            · have hcomment := hsolid.head.2
              have hblock := commentWidth_block hbody tail
              rw [heq] at hcomment
              simp only [List.cons_append] at hcomment hblock
              rw [hblock] at hcomment
              cases hcomment
            · exact stops_cons.1 hlone
      · exact solid_cons hsolid.head.1 hc

end EnumNames.Grammar
