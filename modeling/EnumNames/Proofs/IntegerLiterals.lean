import EnumNames.Proofs.IntegerText
import EnumNames.Proofs.RejectedFile

/-!
The values of integer literals. A literal is a zero with a base letter and digits
of that base, or decimal digits alone, and underscores may stand among the digits.
Its value is the positional value of the digits in the base that it is written in,
which for digits alone after a zero is eight. Whatever a number is written as in
these notations is a literal with that number for its value.
-/

namespace EnumNames

open EnumNames.Grammar EnumNames.Text

namespace Numeral

variable {base : Nat} {cs : List Char}

/-- Digits are read up to the first character that is none. -/
theorem leadingDigits_append (needed : Bool) {c : Char} {rest : List Char}
    (hne : cs ≠ [] ∨ needed = false) (h : ∀ c ∈ cs, digitBelow? base c = some (digitOf c))
    (hc : digitBelow? base c = none) (hunderscore : c ≠ '_') :
    leadingDigits base needed (cs ++ c :: rest) = some (cs.map digitOf, c :: rest) := by
  induction cs generalizing needed with
  | nil =>
      obtain rfl : needed = false := by simpa using hne
      simp [leadingDigits, hunderscore, hc]
  | cons d cs ih =>
      have hd := h d List.mem_cons_self
      have hdigit : d ≠ '_' := by
        rintro rfl
        cases hd
      have hrest := ih false (.inr rfl) fun c hc => h c (List.mem_cons_of_mem d hc)
      simp [leadingDigits, hdigit, hd, hrest]

/-- A test that letters pass with their capitals. -/
theorem passes_toLower {p : Char → Char → Bool}
    (h : ((List.range 128).all fun n => p (Char.ofNat n).toLower (Char.ofNat n)) = true)
    (hself : ∀ c, p c c = true) (c : Char) : p c.toLower c = true := by
  by_cases hc : c.toNat < 128
  · exact passes_of_ascii (p := fun c => p c.toLower c) h hc
  · have hsame : c.toLower = c := by
      refine dif_neg ?_
      rintro ⟨_, hle⟩
      exact hc (Nat.lt_of_le_of_lt (UInt32.le_iff_toNat_le.1 hle) (by decide))
    rw [hsame]
    exact hself c

theorem positional_toLower (base : Nat) (cs : List Char) :
    positional base (cs.map Char.toLower) = positional base cs := by
  have hdigit : ∀ c : Char, digitOf c.toLower = digitOf c := fun c =>
    beq_iff_eq.1 (passes_toLower (p := fun a b => digitOf a == digitOf b) (by decide +kernel)
      (by simp) c)
  rw [positional, List.map_map]
  exact congrArg (Nat.ofDigits base ·.reverse) (List.map_congr_left fun c _ => hdigit c)

end Numeral

/-! ## Base letters -/

namespace IntLiteral

open Numeral

inductive Marks : Char → Nat → (Char → Bool) → Prop
  | hex {mark : Char} (letter : mark = 'x' ∨ mark = 'X') : Marks mark 16 isHexDigit
  | octal {mark : Char} (letter : mark = 'o' ∨ mark = 'O') : Marks mark 8 isOctalDigit
  | binary {mark : Char} (letter : mark = 'b' ∨ mark = 'B') : Marks mark 2 isBinaryDigit

namespace Marks

variable {mark c : Char} {base : Nat} {digit : Char → Bool} (h : Marks mark base digit)

include h

theorem markedBase? (ds : List Char) : Numeral.markedBase? ('0' :: mark :: ds) = some base := by
  cases h with
  | hex letter | octal letter | binary letter => rcases letter with rfl | rfl <;> rfl

theorem basedWidth (body : List Char) :
    Grammar.basedWidth (mark :: body) = passed 1 (runWidth (spaced digit) body) := by
  cases h with
  | hex letter | octal letter | binary letter => rcases letter with rfl | rfl <;> rfl

theorem isDigit_eq_false : isDigit mark = false := by
  cases h with
  | hex letter | octal letter | binary letter => rcases letter with rfl | rfl <;> decide +kernel

theorem isSome_digitValue? : (digitValue? mark).isSome = true := by
  cases h with
  | hex letter | octal letter | binary letter => rcases letter with rfl | rfl <;> rfl

theorem base_bounds : 1 < base ∧ base ≤ 16 ∧ base ≠ 10 := by
  cases h with
  | hex _ | octal _ | binary _ => decide

theorem isHexDigit_of_digit (hc : digit c = true) : isHexDigit c = true := by
  cases h with
  | hex _ => exact hc
  | octal _ => exact isHexDigit_of_isOctalDigit c hc
  | binary _ => exact isHexDigit_of_isBinaryDigit c hc

/-- A digit of the base is read as its value. -/
theorem digitBelow? (hc : digit c = true) : Numeral.digitBelow? base c = some (digitOf c) := by
  have hpass := passes_of_isHexDigit (p := fun c => !digit c || Numeral.digitBelow? base c ==
    some (digitOf c)) (by cases h with | hex _ | octal _ | binary _ => decide +kernel)
    (h.isHexDigit_of_digit hc)
  simpa [hc] using hpass

theorem not_spaced : spaced isPlainDigit mark = false := by
  cases h with
  | hex letter | octal letter | binary letter => rcases letter with rfl | rfl <;> decide

theorem ne_underscore : mark ≠ '_' := by
  rintro rfl
  cases h.not_spaced

theorem digit_zero : digit '0' = true := by
  cases h with
  | hex _ | octal _ | binary _ => decide

theorem digit_underscore : digit '_' = false := by
  cases h with
  | hex _ | octal _ | binary _ => decide

/-- The digits of a numeral are digits of its base. -/
theorem digit_of_mem_toDigits {n : Nat} (hc : c ∈ Nat.toDigits base n) : digit c = true := by
  have hdigit : ∀ d < base, digit (Nat.digitChar d) = true := by
    cases h with
    | hex _ | octal _ | binary _ => decide
  obtain ⟨hlow, _, _⟩ := h.base_bounds
  induction n using Nat.strongRecOn with
  | ind n ih =>
      by_cases hn : n < base
      · rw [Nat.toDigits_of_lt_base hn, List.mem_singleton] at hc
        exact hc ▸ hdigit n hn
      · rw [Nat.toDigits_of_base_le hlow (by omega), List.mem_append, List.mem_singleton] at hc
        rcases hc with hc | rfl
        · exact ih _ (Nat.div_lt_self (by omega) hlow) hc
        · exact hdigit _ (Nat.mod_lt n (by omega))

/-- Digits do not depend on the case of letters. -/
theorem digit_toLower (c : Char) : digit c.toLower = digit c := by
  refine beq_iff_eq.1 (passes_toLower (p := fun a b => digit a == digit b) ?_ (by simp) c)
  cases h with
  | hex _ | octal _ | binary _ => decide +kernel

end Marks

/-! ## Forms of literals -/

/-- An integer literal: a zero, a base letter and digits of that base, or decimal digits. After
the base letter and after the first decimal digit underscores count as digits. -/
inductive Form : List Char → Prop
  | marked {mark : Char} {base : Nat} {digit : Char → Bool} {body : List Char}
      (letter : Marks mark base digit) (ne : body ≠ []) (all : body.all (spaced digit) = true) :
      Form ('0' :: mark :: body)
  | plain {first : Char} {body : List Char} (digit : isPlainDigit first = true)
      (all : body.all (spaced isPlainDigit) = true) : Form (first :: body)

theorem marks_of_basedWidth {cs : List Char} {n : Nat} (h : basedWidth cs = some n) :
    ∃ mark base digit body, cs = mark :: body ∧ Marks mark base digit ∧
      passed 1 (runWidth (spaced digit) body) = some n := by
  cases cs with
  | nil => cases h
  | cons mark body =>
      have hletter : ∀ x y : Char, (mark == x || mark == y) = true → mark = x ∨ mark = y := by
        intro x y hxy
        simpa using hxy
      simp only [basedWidth] at h
      split at h
      · next hx => exact ⟨mark, 16, isHexDigit, body, rfl, .hex (hletter _ _ hx), h⟩
      split at h
      · next hb => exact ⟨mark, 2, isBinaryDigit, body, rfl, .binary (hletter _ _ hb), h⟩
      split at h
      · next ho => exact ⟨mark, 8, isOctalDigit, body, rfl, .octal (hletter _ _ ho), h⟩
      · cases h

theorem basedWidth_of_digits {cs : List Char} (h : cs.all (spaced isPlainDigit) = true) :
    basedWidth cs = none := by
  by_contra hsome
  obtain ⟨n, hn⟩ := Option.ne_none_iff_exists'.1 hsome
  obtain ⟨mark, base, digit, body, rfl, hmark, _⟩ := marks_of_basedWidth hn
  have hspaced := List.all_eq_true.1 h mark List.mem_cons_self
  rw [hmark.not_spaced] at hspaced
  cases hspaced

theorem all_of_length_takeWhile {p : Char → Bool} {cs : List Char}
    (h : (cs.takeWhile p).length = cs.length) : cs.all p = true := by
  have heq := (List.takeWhile_prefix p).eq_of_length h
  rw [← heq]
  exact List.all_takeWhile

theorem form_of_integerWidth {text : List Char} (h : integerWidth text = some text.length) :
    Form text := by
  cases text with
  | nil => cases h
  | cons c cs =>
      simp only [integerWidth] at h
      split at h
      · next hc =>
          rcases Option.or_eq_some_iff.1 h with h | ⟨_, h⟩
          · split at h
            · next hzero =>
                obtain ⟨k, hk, hlen⟩ := passed_eq_some.1 h
                obtain ⟨mark, base, digit, body, rfl, hmark, hrun⟩ := marks_of_basedWidth hk
                obtain ⟨m, hm, rfl⟩ := passed_eq_some.1 hrun
                obtain ⟨rfl, hpos⟩ := runWidth_eq_some hm
                rw [List.length_cons, List.length_cons] at hlen
                have hall : body.all (spaced digit) = true := all_of_length_takeWhile (by omega)
                have hne : body ≠ [] := by
                  rintro rfl
                  cases hpos
                rw [beq_iff_eq.1 hzero]
                exact .marked hmark hne hall
            · cases h
          · rw [List.length_cons, Nat.add_comm] at h
            exact .plain hc (all_of_length_takeWhile (Nat.succ.inj (Option.some.inj h)))
      · cases h

theorem integerWidth_of_form {text : List Char} (h : Form text) :
    integerWidth text = some text.length := by
  cases h with
  | marked letter ne all =>
      rename_i mark base digit body
      have hrun : runWidth (spaced digit) body = some body.length := by
        have happend := runWidth_append all ne (stops_nil _)
        rwa [List.append_nil] at happend
      have hzero : isPlainDigit '0' = true := rfl
      simp only [integerWidth, hzero, if_true, beq_self_eq_true, letter.basedWidth, hrun, passed,
        Option.map_some, Option.some_or, List.length_cons]
      rw [Nat.add_comm 1, Nat.add_comm 1]
  | plain digit all =>
      have hrun := takeWhile_append_stops all (stops_nil _)
      rw [List.append_nil] at hrun
      simp only [integerWidth, digit, if_true, basedWidth_of_digits all, hrun, passed,
        Option.map_none, ite_self, Option.none_or, List.length_cons]
      rw [Nat.add_comm 1]

/-- The texts that the rule for integer literals matches in full. -/
theorem matchRest_iff {text : List Char} :
    (∃ tree, Rule.intLit.matchRest text 0 = .ok tree) ↔ Form text :=
  (Rule.matchRest_lexeme_iff (t := .integer) rfl).trans ⟨form_of_integerWidth, integerWidth_of_form⟩

/-! ## Values -/

section

variable {text : String} {mark : Char} {base : Nat} {digit : Char → Bool} {ds : List Char}

theorem isOctal_marked (h : Marks mark base digit) : ¬ isOctal ('0' :: mark :: ds) = true := by
  rw [isOctal, List.all_cons, List.all_cons, h.isDigit_eq_false, Bool.false_and, Bool.and_false,
    Bool.and_false]
  exact Bool.false_ne_true

theorem afterMark_marked (h : Marks mark base digit) (hall : ds.all digit = true) :
    afterMark base ('0' :: mark :: ds) = ds := by
  rw [afterMark, h.markedBase?, if_pos (beq_self_eq_true _), List.drop_succ_cons,
    List.drop_succ_cons, List.drop_zero]
  split
  · rw [List.all_cons, h.digit_underscore, Bool.false_and] at hall
    cases hall
  · rfl

theorem leadingDigits_marked (h : Marks mark base digit) (hall : ds.all digit = true)
    (hne : ds ≠ []) : leadingDigits base true ds = some (ds.map digitOf, []) :=
  leadingDigits_of_spells
    (spells_digitOf fun c hc => h.digitBelow? (List.all_eq_true.1 hall c hc)) true (.inl hne)

theorem isSome_digitValue?_marked (h : Marks mark base digit) (hall : ds.all digit = true) :
    ∀ c ∈ '0' :: mark :: ds, (digitValue? c).isSome = true := by
  intro c hc
  rcases List.mem_cons.1 hc with rfl | hc
  · rfl
  rcases List.mem_cons.1 hc with rfl | hc
  · exact h.isSome_digitValue?
  · exact isSome_digitValue?_of_isHexDigit (h.isHexDigit_of_digit (List.all_eq_true.1 hall c hc))

theorem value_marked (h : Marks mark base digit) (hd : digits text.toList = '0' :: mark :: ds)
    (hall : ds.all digit = true) (hne : ds ≠ []) : value text = .ok (positional base ds : Nat) := by
  obtain ⟨_, _, hten⟩ := h.base_bounds
  have hunsigned : readUnsigned 0 ('0' :: mark :: ds) = .ok (positional base ds) := by
    unfold readUnsigned
    simp only [beq_self_eq_true, if_true, h.markedBase?, Option.getD_some, afterMark_marked h hall,
      leadingDigits_marked h hall hne, beq_eq_false_iff_ne.2 hten, Bool.false_and,
      Bool.and_false, Bool.false_eq_true, if_false, ofDigits_digitOf, List.all_nil]
  rw [value_of_alnum hd (List.cons_ne_nil _ _) (isSome_digitValue?_marked h hall)
    (if_neg (isOctal_marked h)), hunsigned]

/-- A base letter without digits is refused. -/
theorem value_lone (h : Marks mark base digit) (hd : digits text.toList = ['0', mark]) :
    value text = .error (.malformed 0 (String.ofList ['0', mark])) := by
  have hunsigned : readUnsigned 0 ['0', mark] = .error none := by
    unfold readUnsigned
    simp only [beq_self_eq_true, if_true, h.markedBase?, Option.getD_some,
      afterMark_marked h (List.all_nil), leadingDigits]
  rw [value_of_alnum hd (List.cons_ne_nil _ _) (isSome_digitValue?_marked h List.all_nil)
    (if_neg (isOctal_marked h)), hunsigned]

theorem isOctal_digits (hall : ds.all isPlainDigit = true) (hne : ds ≠ []) :
    isOctal ('0' :: ds) = true := by
  have hdigit : ('0' :: ds).all isDigit = true := by
    refine List.all_eq_true.2 fun c hc => ?_
    have hplain : isPlainDigit c = true := by
      rcases List.mem_cons.1 hc with rfl | hc
      · rfl
      · exact List.all_eq_true.1 hall c hc
    have hpass := passes_of_isHexDigit (p := fun c => !isPlainDigit c || isDigit c)
      (by decide +kernel) (isHexDigit_of_isPlainDigit c hplain)
    simpa [hplain] using hpass
  have hlength : 1 < ('0' :: ds).length := Nat.succ_lt_succ (List.length_pos_iff.2 hne)
  rw [isOctal, hdigit, decide_eq_true hlength]
  rfl

/-- Digits alone after a zero are octal. -/
theorem value_octal (hd : digits text.toList = '0' :: ds) (hall : ds.all isOctalDigit = true)
    (hne : ds ≠ []) : value text = .ok (positional 8 ('0' :: ds) : Nat) := by
  have hoctal : Marks 'o' 8 isOctalDigit := .octal (.inl rfl)
  have hfirst : ('0' :: ds).all isOctalDigit = true := by
    rw [List.all_cons, hall]
    rfl
  have hplain : ds.all isPlainDigit = true := all_imp isPlainDigit_of_isOctalDigit hall
  have hhex : ('0' :: ds).all isHexDigit = true := all_imp isHexDigit_of_isOctalDigit hfirst
  have halnum : ∀ c ∈ '0' :: ds, (digitValue? c).isSome = true := fun c hc =>
    isSome_digitValue?_of_isHexDigit (List.all_eq_true.1 hhex c hc)
  have hspells : Spells 8 ('0' :: ds) (('0' :: ds).map digitOf) :=
    spells_digitOf fun c hc => hoctal.digitBelow? (List.all_eq_true.1 hfirst c hc)
  rw [value_of_alnum hd (List.cons_ne_nil _ _) halnum (if_pos (isOctal_digits hplain hne)),
    readUnsigned_of_spells (.inl rfl) (List.cons_ne_nil _ _) hhex hspells, ofDigits_digitOf]

/-- Octal digits are read up to an eight or a nine, which is then left over. -/
theorem readUnsigned_not_octal {before after : List Char} {c : Char}
    (hbefore : before.all isOctalDigit = true) (hc : isPlainDigit c = true)
    (hno : isOctalDigit c = false) (hhex : ('0' :: (before ++ c :: after)).all isHexDigit = true) :
    readUnsigned 8 ('0' :: (before ++ c :: after)) = .error none := by
  have hpass := passes_of_isHexDigit (p := fun c => !isPlainDigit c || isOctalDigit c ||
    (digitBelow? 8 c == none && c != '_' && !isPadding c)) (by decide +kernel)
    (isHexDigit_of_isPlainDigit c hc)
  rw [hc, hno, Bool.not_true, Bool.false_or, Bool.false_or] at hpass
  simp only [Bool.and_eq_true, beq_iff_eq, bne_iff_ne, Bool.not_eq_true'] at hpass
  obtain ⟨⟨hbelow, hunderscore⟩, hpad⟩ := hpass
  have hoctal : Marks 'o' 8 isOctalDigit := .octal (.inl rfl)
  have hdigits : ∀ d ∈ '0' :: before, digitBelow? 8 d = some (digitOf d) := by
    intro d hd
    rcases List.mem_cons.1 hd with rfl | hd
    · rfl
    · exact hoctal.digitBelow? (List.all_eq_true.1 hbefore d hd)
  have hlead : leadingDigits 8 true ('0' :: (before ++ c :: after)) =
      some (('0' :: before).map digitOf, c :: after) :=
    leadingDigits_append true (.inl (List.cons_ne_nil _ _)) hdigits hbelow hunderscore
  unfold readUnsigned
  simp [afterMark_of_hex (.inl rfl) hhex, hlead, hpad]

theorem value_not_octal (hd : digits text.toList = '0' :: ds) (hall : ds.all isPlainDigit = true)
    (hno : ds.all isOctalDigit = false) :
    value text = .error (.malformed 8 (String.ofList ('0' :: ds))) := by
  have hne : ds ≠ [] := by
    rintro rfl
    cases hno
  have hhex : ('0' :: ds).all isHexDigit = true := by
    rw [List.all_cons, all_imp isHexDigit_of_isPlainDigit hall]
    rfl
  have halnum : ∀ c ∈ '0' :: ds, (digitValue? c).isSome = true := fun c hc =>
    isSome_digitValue?_of_isHexDigit (List.all_eq_true.1 hhex c hc)
  have hfind : (ds.find? (!isOctalDigit ·)).isSome = true := by
    rw [List.find?_isSome]
    simpa using hno
  obtain ⟨c, hfind⟩ := Option.isSome_iff_exists.1 hfind
  obtain ⟨hc, before, after, heq, hbefore⟩ := List.find?_eq_some_iff_append.1 hfind
  have hplain : isPlainDigit c = true := List.all_eq_true.1 hall c (by simp [heq])
  have hunsigned : readUnsigned 8 ('0' :: ds) = .error none := by
    rw [heq] at hhex ⊢
    exact readUnsigned_not_octal (by simpa using hbefore) hplain (by simpa using hc) hhex
  rw [value_of_alnum hd (List.cons_ne_nil _ _) halnum (if_pos (isOctal_digits hall hne)), hunsigned]

end

/-- What the digits of a literal, without underscores, stand for. After a base letter they count
in the base of the letter, of which there has to be one digit; alone after a zero they count in
base eight, and eights and nines are refused; in base ten their number is limited. -/
inductive Denotes : List Char → Except Fault Int → Prop
  | marked {mark : Char} {base : Nat} {digit : Char → Bool} {ds : List Char}
      (letter : Marks mark base digit) (all : ds.all digit = true) (ne : ds ≠ []) :
      Denotes ('0' :: mark :: ds) (.ok (positional base ds : Nat))
  | lone {mark : Char} {base : Nat} {digit : Char → Bool} (letter : Marks mark base digit) :
      Denotes ['0', mark] (.error (.malformed 0 (String.ofList ['0', mark])))
  | octal {ds : List Char} (all : ds.all isOctalDigit = true) (ne : ds ≠ []) :
      Denotes ('0' :: ds) (.ok (positional 8 ('0' :: ds) : Nat))
  | notOctal {ds : List Char} (all : ds.all isPlainDigit = true)
      (no : ds.all isOctalDigit = false) :
      Denotes ('0' :: ds) (.error (.malformed 8 (String.ofList ('0' :: ds))))
  | decimal {ds : List Char} (all : ds.all isPlainDigit = true) (ne : ds ≠ [])
      (lead : ds.head? = some '0' → ds = ['0']) (short : ds.length ≤ digitLimit) :
      Denotes ds (.ok (positional 10 ds : Nat))
  | tooLong {ds : List Char} (all : ds.all isPlainDigit = true)
      (lead : ds.head? = some '0' → ds = ['0']) (long : digitLimit < ds.length) :
      Denotes ds (.error (.tooLongToRead ds.length))

theorem all_digits {digit : Char → Bool} {body : List Char} :
    (digits body).all digit = true ↔ body.all (spaced digit) = true := by
  have hspaced : (fun c => !(c != '_') || digit c) = spaced digit := by
    funext c
    rw [spaced, bne, Bool.not_not, Bool.or_comm]
  rw [digits, List.all_filter, hspaced]

theorem digits_cons {c : Char} (h : c ≠ '_') (body : List Char) :
    digits (c :: body) = c :: digits body :=
  List.filter_cons_of_pos (by simpa using h)

theorem denotes_plain {text : String} {first : Char} {ds : List Char}
    (hd : digits text.toList = first :: ds) (hfirst : isPlainDigit first = true)
    (hall : ds.all isPlainDigit = true) : Denotes (first :: ds) (value text) := by
  have hplain : (first :: ds).all isPlainDigit = true := by
    rw [List.all_cons, hfirst, hall]
    rfl
  by_cases hoctal : first = '0' ∧ ds ≠ []
  · obtain ⟨rfl, hne⟩ := hoctal
    cases hdigits : ds.all isOctalDigit with
    | true =>
        rw [value_octal hd hdigits hne]
        exact .octal hdigits hne
    | false =>
        rw [value_not_octal hd hall hdigits]
        exact .notOctal hall hdigits
  · have hlead : (first :: ds).head? = some '0' → first :: ds = ['0'] := by
      intro hhead
      have hzero : first = '0' := Option.some.inj hhead
      have hnil : ds = [] := by
        by_contra hne
        exact hoctal ⟨hzero, hne⟩
      rw [hzero, hnil]
    rw [value_decimal hd hplain (List.cons_ne_nil _ _) hlead]
    by_cases hlong : digitLimit < (first :: ds).length
    · rw [if_pos hlong]
      exact .tooLong hplain hlead hlong
    · rw [if_neg hlong]
      exact .decimal hplain (List.cons_ne_nil _ _) hlead (Nat.not_lt.1 hlong)

theorem denotes_of_form {text : String} {cs : List Char} (htext : text.toList = cs) (h : Form cs) :
    Denotes (digits text.toList) (value text) := by
  cases h with
  | marked letter ne all =>
      rename_i mark base digit body
      have hd : digits text.toList = '0' :: mark :: digits body := by
        rw [htext, digits_cons (by decide), digits_cons letter.ne_underscore]
      rw [hd]
      by_cases hnil : digits body = []
      · rw [hnil] at hd ⊢
        rw [value_lone letter hd]
        exact .lone letter
      · have hall := all_digits.2 all
        rw [value_marked letter hd hall hnil]
        exact .marked letter hall hnil
  | plain digit all =>
      rename_i first body
      have hfirst : first ≠ '_' := by
        rintro rfl
        cases digit
      have hd : digits text.toList = first :: digits body := by rw [htext, digits_cons hfirst]
      rw [hd]
      exact denotes_plain hd digit (all_digits.2 all)

/-! ## Renderings -/

/-- A text that a number is written as: its decimal numeral, its octal numeral after a zero, or
after a base letter its numeral in that base, in small or capital letters. Zeros may stand before
the numeral unless it is decimal, and underscores anywhere after the first digit or the letter. -/
inductive Renders (n : Nat) : List Char → Prop
  | decimal {first : Char} {body : List Char} (short : n < Nat.pow 10 digitLimit)
      (spelled : first :: digits body = Nat.toDigits 10 n) : Renders n (first :: body)
  | octal {body : List Char} {zeros : Nat}
      (spelled : digits body = List.replicate zeros '0' ++ Nat.toDigits 8 n) :
      Renders n ('0' :: body)
  | marked {mark : Char} {base : Nat} {digit : Char → Bool} {body : List Char} {zeros : Nat}
      (letter : Marks mark base digit)
      (spelled : (digits body).map Char.toLower =
        List.replicate zeros '0' ++ Nat.toDigits base n) :
      Renders n ('0' :: mark :: body)

section

variable {n zeros : Nat} {mark : Char} {base : Nat} {digit : Char → Bool} {ds : List Char}

theorem digit_of_mem_padded (h : Marks mark base digit) {c : Char}
    (hc : c ∈ List.replicate zeros '0' ++ Nat.toDigits base n) : digit c = true := by
  rcases List.mem_append.1 hc with hc | hc
  · rw [(List.mem_replicate.1 hc).2]
    exact h.digit_zero
  · exact h.digit_of_mem_toDigits hc

theorem all_of_spelled (h : Marks mark base digit)
    (hs : ds.map Char.toLower = List.replicate zeros '0' ++ Nat.toDigits base n) :
    ds.all digit = true := by
  refine List.all_eq_true.2 fun c hc => ?_
  have hmem : c.toLower ∈ ds.map Char.toLower := List.mem_map_of_mem hc
  rw [hs] at hmem
  rw [← h.digit_toLower]
  exact digit_of_mem_padded h hmem

theorem positional_padded (hlow : 1 < base) (hhigh : base ≤ 16) :
    positional base (List.replicate zeros '0' ++ Nat.toDigits base n) = n := by
  rw [positional_zeros_append, positional_toDigits hlow hhigh]

theorem ne_nil_of_spelled
    (hs : ds.map Char.toLower = List.replicate zeros '0' ++ Nat.toDigits base n) : ds ≠ [] := by
  rintro rfl
  exact Nat.toDigits_ne_nil (List.append_eq_nil_iff.1 hs.symm).2

end

variable {n : Nat} {cs : List Char}

theorem form_of_renders (h : Renders n cs) : Form cs := by
  cases h with
  | decimal short spelled =>
      rename_i first body
      have hdigit : ∀ c ∈ first :: digits body, isPlainDigit c = true := by
        rw [spelled]
        exact fun c hc => isPlainDigit_of_mem_toDigits hc
      refine .plain (hdigit first List.mem_cons_self) (all_digits.1 (List.all_eq_true.2 ?_))
      exact fun c hc => hdigit c (List.mem_cons_of_mem first hc)
  | octal spelled =>
      refine .plain rfl (all_digits.1 (List.all_eq_true.2 fun c hc => ?_))
      rw [spelled] at hc
      have hletter : Marks 'o' 8 isOctalDigit := .octal (.inl rfl)
      exact isPlainDigit_of_isOctalDigit c (digit_of_mem_padded hletter hc)
  | marked letter spelled =>
      refine .marked letter ?_ (all_digits.1 (all_of_spelled letter spelled))
      rintro rfl
      exact ne_nil_of_spelled spelled rfl

theorem value_of_renders {text : String} (htext : text.toList = cs) (h : Renders n cs) :
    value text = .ok (n : Int) := by
  cases h with
  | decimal short spelled =>
      rename_i first body
      have hfirst : first ≠ '_' := by
        rintro rfl
        exact Nat.underscore_not_in_toDigits (spelled ▸ List.mem_cons_self)
      refine value_of_toDigits short ?_
      rw [htext, digits_cons hfirst, spelled]
  | octal spelled =>
      rename_i body zeros
      have hletter : Marks 'o' 8 isOctalDigit := .octal (.inl rfl)
      have hd : digits text.toList = '0' :: (List.replicate zeros '0' ++ Nat.toDigits 8 n) := by
        rw [htext, digits_cons (by decide), spelled]
      have hpadded : positional 8 (List.replicate (zeros + 1) '0' ++ Nat.toDigits 8 n) = n :=
        positional_padded (by decide) (by decide)
      rw [List.replicate_succ, List.cons_append] at hpadded
      rw [value_octal hd (List.all_eq_true.2 fun c hc => digit_of_mem_padded hletter hc)
        (List.append_ne_nil_of_right_ne_nil _ Nat.toDigits_ne_nil), hpadded]
  | marked letter spelled =>
      rename_i mark base digit body zeros
      obtain ⟨hlow, hhigh, _⟩ := letter.base_bounds
      have hd : digits text.toList = '0' :: mark :: digits body := by
        rw [htext, digits_cons (by decide), digits_cons letter.ne_underscore]
      rw [value_marked letter hd (all_of_spelled letter spelled) (ne_nil_of_spelled spelled),
        ← positional_toLower, spelled, positional_padded hlow hhigh]

/-- The value of a literal is what its digits denote in the base that it is written in, and every
rendering of a number is a literal with that value. -/
theorem literal_value_is_positional (text : String) :
    (∀ tree, Rule.intLit.matchRest text.toList 0 = .ok tree →
        Denotes (digits text.toList) (value text)) ∧
      ∀ n : Nat, Renders n text.toList →
        (∃ tree, Rule.intLit.matchRest text.toList 0 = .ok tree) ∧ value text = .ok (n : Int) :=
  ⟨fun tree htree => denotes_of_form rfl (matchRest_iff.1 ⟨tree, htree⟩),
    fun _ h => ⟨matchRest_iff.2 (form_of_renders h), value_of_renders rfl h⟩⟩

theorem capital_hexadecimal_value :
    Renders 255 "0X_0fF_".toList ∧ value "0X_0fF_" = .ok 255 ∧
      Denotes "0X0fF".toList (value "0X_0fF_") := by
  have hspelled : (digits "_0fF_".toList).map Char.toLower =
      List.replicate 1 '0' ++ Nat.toDigits 16 255 := by decide
  have hrenders : Renders 255 "0X_0fF_".toList := .marked (.hex (.inr rfl)) hspelled
  obtain ⟨⟨tree, htree⟩, hvalue⟩ := (literal_value_is_positional "0X_0fF_").2 255 hrenders
  exact ⟨hrenders, hvalue, (literal_value_is_positional "0X_0fF_").1 tree htree⟩

end IntLiteral
end EnumNames
