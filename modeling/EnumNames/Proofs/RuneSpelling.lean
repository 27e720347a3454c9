import EnumNames.Proofs.IntegerLiterals

/-!
What rune literals spell. The rule that recognises a literal and the function that
decodes it know the same forms: a character itself, its number in a fixed count of
hexadecimal or octal digits, or a letter that stands for it. Here each form is
related to its code point by the numerals of that number, without the reader of
digits, and every literal turns out to have one of the forms.
-/

namespace EnumNames

open EnumNames.Grammar EnumNames.Text

/-! ## Digits are numerals -/

namespace IntLiteral.Marks

open Numeral

variable {mark c : Char} {base : Nat} {digit : Char → Bool} {ds : List Char}

/-- A digit is the one that is written for its value, in either case. -/
theorem digitChar_digitOf (h : Marks mark base digit) (hc : digit c = true) :
    digitOf c < base ∧ Nat.digitChar (digitOf c) = c.toLower := by
  have hpass := passes_of_isHexDigit (p := fun c => !digit c || decide (digitOf c < base) &&
    Nat.digitChar (digitOf c) == c.toLower)
    (by cases h with | hex _ | octal _ | binary _ => decide +kernel) (h.isHexDigit_of_digit hc)
  simpa [hc] using hpass

/-- Every run of digits is a numeral after some zeros. -/
theorem exists_numeral (h : Marks mark base digit) (hne : ds ≠ []) (hall : ds.all digit = true) :
    ∃ zeros n, ds.map Char.toLower = List.replicate zeros '0' ++ Nat.toDigits base n := by
  obtain ⟨hlow, _, _⟩ := h.base_bounds
  induction ds using List.reverseRecOn with
  | nil => exact absurd rfl hne
  | append_singleton ds c ih =>
      rw [List.all_append, Bool.and_eq_true, List.all_cons, List.all_nil, Bool.and_true] at hall
      obtain ⟨hds, hc⟩ := hall
      obtain ⟨hlt, hchar⟩ := h.digitChar_digitOf hc
      have hlast : [c].map Char.toLower = Nat.toDigits base (digitOf c) := by
        rw [Nat.toDigits_of_lt_base hlt, hchar]
        rfl
      by_cases hnil : ds = []
      · exact ⟨0, digitOf c, by rw [hnil, List.nil_append, hlast]; rfl⟩
      obtain ⟨zeros, n, hn⟩ := ih hnil hds
      rw [List.map_append, hn, hlast, List.append_assoc]
      -- A numeral of zero is one more zero before the digit; any other is continued by it.
      by_cases hzero : n = 0
      · refine ⟨zeros + 1, digitOf c, ?_⟩
        rw [hzero, Nat.toDigits_zero, List.replicate_succ', List.append_assoc]
      · refine ⟨zeros, base * n + digitOf c, ?_⟩
        rw [Nat.toDigits_append_toDigits hlow (Nat.pos_of_ne_zero hzero) hlt]

end IntLiteral.Marks

namespace Rune

open IntLiteral Numeral

variable {mark : Char} {base : Nat} {digit : Char → Bool} {ds body : List Char} {zeros n : Nat}

/-- Zeros and a numeral of a number, in digits of either case. -/
def Numbers (base : Nat) (ds : List Char) (n : Nat) : Prop :=
  ∃ zeros, ds.map Char.toLower = List.replicate zeros '0' ++ Nat.toDigits base n

theorem numberIn_of_numbers (h : Marks mark base digit) (hb : base = 8 ∨ base = 16)
    (hn : Numbers base ds n) : numberIn base ds = .ok (n : Int) := by
  obtain ⟨zeros, hspelled⟩ := hn
  obtain ⟨hlow, hhigh, _⟩ := h.base_bounds
  have hall := all_of_spelled h hspelled
  have hhex : ds.all isHexDigit = true := all_imp (fun c hc => h.isHexDigit_of_digit hc) hall
  have hdigits : Spells base ds (ds.map digitOf) :=
    spells_digitOf fun c hc => h.digitBelow? (List.all_eq_true.1 hall c hc)
  rw [numberIn_of_spells hb (ne_nil_of_spelled hspelled) hhex hdigits, ofDigits_digitOf,
    ← positional_toLower, hspelled, positional_padded hlow hhigh]

theorem lt_of_numbers (hlow : 1 < base) (hn : Numbers base ds n) (hne : 0 < ds.length) :
    n < base ^ ds.length := by
  obtain ⟨zeros, hspelled⟩ := hn
  have hlength := congrArg List.length hspelled
  rw [List.length_map, List.length_append, List.length_replicate] at hlength
  exact (Nat.length_toDigits_le_iff hlow hne).1 (by omega)

/-! ## Forms and code points -/

inductive Spelling : List Char → Nat → Prop
  | itself {c : Char} (quote : c ≠ '\'') (backslash : c ≠ '\\') (newline : c ≠ '\n') :
      Spelling [c] c.toNat
  | hex {mark : Char} {ds : List Char} {n : Nat}
      (width : (mark, ds.length) ∈ [('x', 2), ('u', 4), ('U', 8)]) (digits : Numbers 16 ds n) :
      Spelling ('\\' :: mark :: ds) n
  | octal {ds : List Char} {n : Nat} (width : ds.length = 3) (digits : Numbers 8 ds n) :
      Spelling ('\\' :: ds) n
  | letter {c : Char} {n : Nat} (known : (c, n) ∈ letters) : Spelling ['\\', c] n

theorem marks_hex : Marks 'x' 16 isHexDigit := .hex (.inl rfl)

theorem marks_octal : Marks 'o' 8 isOctalDigit := .octal (.inl rfl)

theorem Spelling.form (h : Spelling body n) : Form body := by
  cases h with
  | itself quote backslash newline => exact .plain _ quote backslash newline
  | hex width digits =>
      obtain ⟨zeros, hspelled⟩ := digits
      exact .hex _ _ (all_of_spelled marks_hex hspelled) width
  | octal width digits =>
      obtain ⟨zeros, hspelled⟩ := digits
      exact .octal _ (all_of_spelled marks_octal hspelled) width
  | letter known => exact .simple _ (isSimpleEscape_iff.2 ⟨n, known⟩)

theorem Form.exists_spelling (h : Form body) : ∃ n, Spelling body n := by
  cases h with
  | plain c quote backslash newline => exact ⟨_, .itself quote backslash newline⟩
  | hex mark ds digits length =>
      have hne : ds ≠ [] := by
        rintro rfl
        simp at length
      obtain ⟨zeros, n, hn⟩ := marks_hex.exists_numeral hne digits
      exact ⟨n, .hex length ⟨zeros, hn⟩⟩
  | octal ds digits length =>
      have hne : ds ≠ [] := List.ne_nil_of_length_pos (by omega)
      obtain ⟨zeros, n, hn⟩ := marks_octal.exists_numeral hne digits
      exact ⟨n, .octal length ⟨zeros, hn⟩⟩
  | simple c letter =>
      obtain ⟨n, hn⟩ := isSimpleEscape_iff.1 letter
      exact ⟨n, .letter hn⟩

theorem Spelling.value_eq (h : Spelling body n) :
    value ('\'' :: body ++ ['\'']) = .ok (n : Int) := by
  cases h with
  | itself _ backslash _ => exact value_plain backslash
  | hex width digits =>
      rw [value_escape, escaped_hex width, numberIn_of_numbers marks_hex (.inr rfl) digits]
  | octal width digits =>
      obtain ⟨zeros, hspelled⟩ := digits
      rw [value_escape, escaped_octal (ne_nil_of_spelled hspelled)
        (all_of_spelled marks_octal hspelled),
        numberIn_of_numbers marks_octal (.inl rfl) ⟨zeros, hspelled⟩]
  | letter known => rw [value_escape, escaped_letter known]

/-- A code point fits into thirty-two bits, as the widest escape does. -/
theorem Spelling.lt (h : Spelling body n) : n < 2 ^ 32 := by
  cases h with
  | itself _ _ _ => exact UInt32.toNat_lt _
  | hex width digits =>
      rename_i mark ds
      have hwidth : 0 < ds.length ∧ ds.length ≤ 8 := by
        simp only [List.mem_cons, Prod.mk.injEq, List.not_mem_nil, or_false] at width
        omega
      calc
        n < 16 ^ ds.length := lt_of_numbers (by decide) digits hwidth.1
        _ ≤ 16 ^ 8 := Nat.pow_le_pow_right (by decide) hwidth.2
        _ = 2 ^ 32 := by decide
  | octal width digits =>
      have hlt := lt_of_numbers (by decide) digits (by omega)
      rw [width] at hlt
      omega
  | letter known =>
      simp only [letters, List.mem_cons, Prod.mk.injEq, List.not_mem_nil, or_false] at known
      omega

theorem matchRest_iff {text : List Char} :
    (∃ tree, Rule.charLit.matchRest text 0 = .ok tree) ↔
      ∃ body, text = '\'' :: body ++ ['\''] ∧ Form body := by
  refine (Rule.matchRest_lexeme_iff (t := .rune) rfl).trans ⟨form_of_runeWidth, ?_⟩
  rintro ⟨body, rfl, hform⟩
  have hwidth := runeWidth_of_form hform []
  simpa [Token.width] using hwidth

/-- Every literal has a form that spells some code point below two to the thirty-second, and
decodes to it; whatever spells a code point is a literal that decodes to it. -/
theorem literal_decodes_to_spelling (text : List Char) :
    (∀ tree, Rule.charLit.matchRest text 0 = .ok tree →
        ∃ body n, text = '\'' :: body ++ ['\''] ∧ Spelling body n ∧ value text = .ok (n : Int) ∧
          n < 2 ^ 32) ∧
      ∀ body n, text = '\'' :: body ++ ['\''] → Spelling body n →
        (∃ tree, Rule.charLit.matchRest text 0 = .ok tree) ∧ value text = .ok (n : Int) := by
  constructor
  · intro tree htree
    obtain ⟨body, rfl, hform⟩ := matchRest_iff.1 ⟨tree, htree⟩
    obtain ⟨n, hn⟩ := hform.exists_spelling
    exact ⟨body, n, rfl, hn, hn.value_eq, hn.lt⟩
  · rintro body n rfl hn
    exact ⟨matchRest_iff.2 ⟨body, rfl, hn.form⟩, hn.value_eq⟩

theorem mixed_case_escape_decodes :
    Spelling "\\u00eF".toList 239 ∧
      (∃ tree, Rule.charLit.matchRest "'\\u00eF'".toList 0 = .ok tree) ∧
      value "'\\u00eF'".toList = .ok 239 ∧
      ∃ body n, "'\\u00eF'".toList = '\'' :: body ++ ['\''] ∧ Spelling body n ∧
        value "'\\u00eF'".toList = .ok (n : Int) ∧ n < 2 ^ 32 := by
  have hspelling : Spelling "\\u00eF".toList 239 := .hex (by decide) ⟨2, by decide⟩
  obtain ⟨hforms, hspelled⟩ := literal_decodes_to_spelling "'\\u00eF'".toList
  obtain ⟨⟨tree, htree⟩, hvalue⟩ := hspelled _ _ (by decide) hspelling
  exact ⟨hspelling, ⟨tree, htree⟩, hvalue, hforms tree htree⟩

end Rune
end EnumNames
