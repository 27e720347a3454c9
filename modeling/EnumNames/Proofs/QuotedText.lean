import EnumNames.Code.StringLiteral

/-!
Reading string literals. A backslash stands with the character after it for one
of the four escapes, any other character for itself, and a line end for nothing.
Reading what quoting wrote gives the text back, whatever follows it.
-/

namespace EnumNames.StringLiteral

def unescape? : Char → Option Char
  | '\\' => some '\\'
  | '"' => some '"'
  | 'n' => some '\n'
  | 't' => some '\t'
  | _ => none

def readTail : List Char → Option (List Char × List Char)
  | [] => none
  | '"' :: rest => some ([], rest)
  | '\\' :: c :: rest =>
      match unescape? c, readTail rest with
      | some d, some (text, rest) => some (d :: text, rest)
      | _, _ => none
  | c :: rest => if c = '\n' then none else (readTail rest).map fun r => (c :: r.1, r.2)

def readFirst : List Char → Option (List Char × List Char)
  | '"' :: rest => readTail rest
  | _ => none

def denoted? (literal : String) : Option String :=
  match readFirst literal.toList with
  | some (text, []) => some (String.ofList text)
  | _ => none

theorem readTail_escape (c : Char) (cs : List Char) :
    readTail (escape c ++ cs) = (readTail cs).map fun r => (c :: r.1, r.2) := by
  by_cases hslash : c = '\\'
  · subst hslash
    cases h : readTail cs <;> simp [escape, readTail, unescape?, h]
  by_cases hquote : c = '"'
  · subst hquote
    cases h : readTail cs <;> simp [escape, readTail, unescape?, h]
  by_cases hend : c = '\n'
  · subst hend
    cases h : readTail cs <;> simp [escape, readTail, unescape?, h]
  by_cases htab : c = '\t'
  · subst htab
    cases h : readTail cs <;> simp [escape, readTail, unescape?, h]
  simp [escape, readTail, hslash, hquote, hend, htab]

theorem readTail_escaped (cs rest : List Char) :
    readTail (cs.flatMap escape ++ '"' :: rest) = some (cs, rest) := by
  induction cs with
  | nil => rfl
  | cons c cs ih => rw [List.flatMap_cons, List.append_assoc, readTail_escape, ih, Option.map_some]

theorem readFirst_quoteChars (cs rest : List Char) :
    readFirst (quoteChars cs ++ rest) = some (cs, rest) := by
  have htext : quoteChars cs ++ rest = '"' :: (cs.flatMap escape ++ '"' :: rest) := by
    simp [quoteChars]
  rw [htext]
  exact readTail_escaped cs rest

/-- A text is what its literal denotes. -/
theorem denoted?_quote (s : String) : denoted? (quote s) = some s := by
  have h := readFirst_quoteChars s.toList []
  rw [List.append_nil] at h
  simp only [denoted?, quote, String.toList_ofList, h, String.ofList_toList]

/-- Newlines and tabs are always escaped. -/
theorem not_mem_escape {d : Char} (hd : d = '\n' ∨ d = '\t') (c : Char) : d ∉ escape c := by
  by_cases hc : c = d
  · subst hc
    cases hd with
    | inl hd => subst hd; decide
    | inr hd => subst hd; decide
  · have hslash : d ≠ '\\' ∧ d ≠ '"' ∧ d ≠ 'n' ∧ d ≠ 't' := by
      cases hd with
      | inl hd => subst hd; decide
      | inr hd => subst hd; decide
    unfold escape
    split
    · simp [hslash]
    · split
      · simp [hslash]
      · split
        · simp [hslash]
        · split
          · simp [hslash]
          · simpa using Ne.symm hc

theorem not_mem_quote {d : Char} (hd : d = '\n' ∨ d = '\t') (s : String) :
    d ∉ (quote s).toList := by
  have hquote : d ≠ '"' := by
    cases hd with
    | inl hd => subst hd; decide
    | inr hd => subst hd; decide
  simp only [quote, quoteChars, String.toList_ofList, List.mem_cons, List.mem_append,
    List.mem_flatMap, not_or]
  refine ⟨hquote, ?_, hquote, by simp⟩
  intro ⟨c, _, hmem⟩
  exact not_mem_escape hd c hmem

theorem newline_not_mem_quote (s : String) : '\n' ∉ (quote s).toList := not_mem_quote (.inl rfl) s

end EnumNames.StringLiteral
