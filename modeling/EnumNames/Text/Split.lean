/-!
Splitting a text at a character. There is one part more than the character
occurs, so an empty text has one part, which is empty.
-/

namespace EnumNames.Text

def splitAt (sep : Char) : List Char → List (List Char)
  | [] => [[]]
  | c :: cs =>
      if c == sep then [] :: splitAt sep cs
      else
        match splitAt sep cs with
        | [] => [[c]]
        | part :: parts => (c :: part) :: parts

theorem splitAt_ne_nil (sep : Char) (cs : List Char) : splitAt sep cs ≠ [] := by
  induction cs with
  | nil => simp [splitAt]
  | cons c cs ih =>
      unfold splitAt
      split
      · simp
      · split <;> simp

theorem splitAt_append_sep (sep : Char) (cs ds : List Char) :
    splitAt sep (cs ++ sep :: ds) = splitAt sep cs ++ splitAt sep ds := by
  induction cs with
  | nil => simp [splitAt]
  | cons c cs ih =>
      simp only [List.cons_append, splitAt, ih]
      split
      · rfl
      · cases hsplit : splitAt sep cs with
        | nil => exact absurd hsplit (splitAt_ne_nil sep cs)
        | cons part parts => rfl

theorem splitAt_of_not_mem {sep : Char} {cs : List Char} (h : sep ∉ cs) :
    splitAt sep cs = [cs] := by
  induction cs with
  | nil => rfl
  | cons c cs ih =>
      rw [List.mem_cons, not_or] at h
      rw [splitAt, ih h.2, if_neg (by simpa using Ne.symm h.1)]

end EnumNames.Text
