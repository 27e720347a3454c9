import EnumNames.Text.Ranges

/-!
White space. Source text is separated by `isSpace`; a text that is trimmed also
loses the four information separators, which `isBlank` adds.
-/

namespace EnumNames.Text

def spaces : Ranges :=
  [(0x9, 0xd), (0x20, 0x20), (0x85, 0x85), (0xa0, 0xa0), (0x1680, 0x1680), (0x2000, 0x200a),
   (0x2028, 0x2029), (0x202f, 0x202f), (0x205f, 0x205f), (0x3000, 0x3000)]

def isSpace (c : Char) : Bool := spaces.has c

def isBlank (c : Char) : Bool := isSpace c || (0x1c ≤ c.toNat && c.toNat ≤ 0x1f)

def dropEndWhile (p : Char → Bool) (cs : List Char) : List Char :=
  (cs.reverse.dropWhile p).reverse

def trimEnd (cs : List Char) : List Char := dropEndWhile isBlank cs

def trim (cs : List Char) : List Char := trimEnd (cs.dropWhile isBlank)

/-- What is dropped from an end, and what is left. -/
theorem dropEndWhile_spec (p : Char → Bool) (cs : List Char) :
    (∃ dropped, dropped.all p = true ∧ cs = dropEndWhile p cs ++ dropped) ∧
      ∀ c ∈ (dropEndWhile p cs).getLast?, p c = false := by
  refine ⟨⟨(cs.reverse.takeWhile p).reverse, ?_, ?_⟩, fun c hc => ?_⟩
  · rw [List.all_reverse, List.all_takeWhile]
  · rw [dropEndWhile, ← List.reverse_append, List.takeWhile_append_dropWhile, List.reverse_reverse]
  · rw [dropEndWhile, List.getLast?_reverse] at hc
    have hhead := List.head?_dropWhile_not p cs.reverse
    rw [Option.mem_def.1 hc] at hhead
    simpa using hhead

end EnumNames.Text
