import EnumNames.Proofs.BalancedText
import EnumNames.Proofs.QuotedText

/-!
Quoting as a whole. A text is escaped by four replacements, one after the other,
of which the first has to be that of the backslash: the later ones put
backslashes in. What they make of a text is a literal that denotes the text, is
on one line, and is read as one literal before every rest.
-/

namespace EnumNames.StringLiteral

open EnumNames.Grammar

/-! ## Replacements -/

def replaceChar (c : Char) (new cs : List Char) : List Char :=
  cs.flatMap fun d => if d == c then new else [d]

/-- The characters to escape, each with the letter of its escape, in the order of replacement. -/
def escapes : List (Char × Char) := [('\\', '\\'), ('"', '"'), ('\n', 'n'), ('\t', 't')]

def replaceAll (table : List (Char × Char)) (cs : List Char) : List Char :=
  table.foldl (fun cs pair => replaceChar pair.1 ['\\', pair.2] cs) cs

theorem replaceAll_nil (table : List (Char × Char)) : replaceAll table [] = [] := by
  induction table with
  | nil => rfl
  | cons pair table ih => exact ih

theorem replaceAll_append (table : List (Char × Char)) (cs ds : List Char) :
    replaceAll table (cs ++ ds) = replaceAll table cs ++ replaceAll table ds := by
  induction table generalizing cs ds with
  | nil => rfl
  | cons pair table ih =>
      have hpair : replaceChar pair.1 ['\\', pair.2] (cs ++ ds) =
          replaceChar pair.1 ['\\', pair.2] cs ++ replaceChar pair.1 ['\\', pair.2] ds :=
        List.flatMap_append
      simp only [replaceAll, List.foldl_cons, hpair]
      exact ih _ _

/-- No later replacement touches what an earlier one has put in. -/
theorem replaceAll_singleton (c : Char) : replaceAll escapes [c] = escape c := by
  by_cases hslash : c = '\\'
  · subst hslash
    decide
  by_cases hquote : c = '"'
  · subst hquote
    decide
  by_cases hend : c = '\n'
  · subst hend
    decide
  by_cases htab : c = '\t'
  · subst htab
    decide
  simp [replaceAll, escapes, replaceChar, escape, hslash, hquote, hend, htab]

/-- Replacing in the whole text, one escape after the other, escapes each character. -/
theorem replaceAll_escapes (cs : List Char) : replaceAll escapes cs = cs.flatMap escape := by
  induction cs with
  | nil => exact replaceAll_nil escapes
  | cons c cs ih =>
      rw [← List.singleton_append, replaceAll_append, replaceAll_singleton, ih, List.flatMap_append,
        List.flatMap_singleton]

/-! ## Literals -/

theorem quote_injective : Function.Injective quote := by
  intro s t h
  have hdenoted := denoted?_quote s
  rw [h, denoted?_quote t] at hdenoted
  exact (Option.some.inj hdenoted).symm

/-- Wherever a quoted text stands, the rule of string literals matches just the quoted text. -/
theorem matchSome_quote (s : String) (before rest : List Char) :
    ∃ c, Rule.stringLit.matchSome (before ++ ((quote s).toList ++ rest)) before.length =
        .ok (⟨.stringLit, before.length, .leaf (quote s).toList .nil⟩, c) ∧
      c.offset = before.length + (quote s).toList.length := by
  have hwidth := stringWidth_quoteChars s.toList rest
  have hquote : (quote s).toList = quoteChars s.toList := String.toList_ofList
  rw [← hquote] at hwidth
  have hdrop : (before ++ ((quote s).toList ++ rest)).drop before.length =
      (quote s).toList ++ rest := List.drop_left
  exact ⟨_, Rule.matchSome_of_reads hdrop (reads_lexeme (t := .string) rfl hwidth), rfl⟩

/-- Quoting puts the four replacements between quotes. The literal denotes the text, so no two
texts have the same; it has no newline or tab in it, and the grammar takes it as one literal,
whatever stands before and behind it. -/
theorem quote_faithful :
    (∀ s, (quote s).toList = '"' :: (replaceAll escapes s.toList ++ ['"'])) ∧
      (∀ s, denoted? (quote s) = some s) ∧ Function.Injective quote ∧
      (∀ s, '\n' ∉ (quote s).toList ∧ '\t' ∉ (quote s).toList) ∧
      ∀ (s : String) (before rest : List Char),
        ∃ c, Rule.stringLit.matchSome (before ++ ((quote s).toList ++ rest)) before.length =
            .ok (⟨.stringLit, before.length, .leaf (quote s).toList .nil⟩, c) ∧
          c.offset = before.length + (quote s).toList.length := by
  refine ⟨?_, denoted?_quote, quote_injective, ?_, matchSome_quote⟩
  · intro s
    rw [replaceAll_escapes, quote, String.toList_ofList, quoteChars]
  · intro s
    exact ⟨not_mem_quote (.inl rfl) s, not_mem_quote (.inr rfl) s⟩

end EnumNames.StringLiteral
