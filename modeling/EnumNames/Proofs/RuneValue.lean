import EnumNames.Proofs.Lexemes
import EnumNames.Source.Rune

/-!
Rune literals have values. A run of digits of a base is read as the number that
it spells, and every text that is a rune literal as a whole stands for a code
point.
-/

namespace EnumNames

open EnumNames.Grammar EnumNames.Text

namespace Numeral

def Spells (base : Nat) (cs : List Char) (digits : List Nat) : Prop :=
  cs.map (digitBelow? base) = digits.map some

theorem Spells.cons {base : Nat} {c : Char} {cs : List Char} {digits : List Nat}
    (h : Spells base (c :: cs) digits) :
    ∃ d ds, digits = d :: ds ∧ digitBelow? base c = some d ∧ Spells base cs ds := by
  cases digits with
  | nil => cases h
  | cons d ds =>
      obtain ⟨hd, hds⟩ := List.cons.inj h
      exact ⟨d, ds, rfl, hd, hds⟩

theorem leadingDigits_of_spells {base : Nat} {cs : List Char} {digits : List Nat}
    (h : Spells base cs digits) (needed : Bool) (hne : cs ≠ [] ∨ needed = false) :
    leadingDigits base needed cs = some (digits, []) := by
  induction cs generalizing digits needed with
  | nil =>
      cases digits with
      | nil => simpa [leadingDigits] using hne
      | cons _ _ => cases h
  | cons c cs ih =>
      obtain ⟨d, ds, rfl, hd, hds⟩ := h.cons
      have hunderscore : (c == '_') = false := by
        cases hc : c == '_' with
        | false => rfl
        | true =>
            have : c = '_' := by simpa using hc
            subst this
            simp [digitBelow?, digitValue?] at hd
      simp [leadingDigits, hunderscore, hd, ih hds false (.inr rfl)]

theorem toNat_lt_of_digitValue? {c : Char} (h : (digitValue? c).isSome = true) :
    c.toNat < 128 := by
  have hlt : ∀ d : Char, d.toNat < 128 → decide (c ≤ d) = true → c.toNat < 128 := fun d hd hc =>
    Nat.lt_of_le_of_lt (UInt32.le_iff_toNat_le.1 (of_decide_eq_true hc)) hd
  unfold digitValue? at h
  split_ifs at h with hdigit hsmall hcapital
  · exact hlt '9' (by decide) (Bool.and_eq_true_iff.1 hdigit).2
  · exact hlt 'z' (by decide) (Bool.and_eq_true_iff.1 hsmall).2
  · exact hlt 'Z' (by decide) (Bool.and_eq_true_iff.1 hcapital).2
  · cases h

/-- A test that all letters and digits of ASCII pass. -/
theorem passes_of_digitValue? {p : Char → Bool}
    (h : ((List.range 128).all fun n =>
      (digitValue? (Char.ofNat n)).isNone || p (Char.ofNat n)) = true)
    {c : Char} (hc : (digitValue? c).isSome = true) : p c = true := by
  have hpass := passes_of_ascii (p := fun c => (digitValue? c).isNone || p c) h
    (toNat_lt_of_digitValue? hc)
  rw [Bool.or_eq_true, Option.isNone_iff_eq_none] at hpass
  rcases hpass with hnone | hpass
  · rw [hnone] at hc
    cases hc
  · exact hpass

theorem plain_of_alnum {cs : List Char} (h : ∀ c ∈ cs, (digitValue? c).isSome = true) :
    plain cs = cs := by
  induction cs with
  | nil => rfl
  | cons c cs ih =>
      have hlt := passes_of_digitValue? (p := fun c => decide (c.toNat < 127)) (by decide +kernel)
        (h c List.mem_cons_self)
      rw [plain, if_pos (of_decide_eq_true hlt), ih fun d hd => h d (List.mem_cons_of_mem c hd)]

/-- Letters and digits are read as they stand, without blanks or a sign before them. -/
theorem read_of_alnum {base : Nat} {cs : List Char} (hne : cs ≠ [])
    (h : ∀ c ∈ cs, (digitValue? c).isSome = true) :
    read base (String.ofList cs) =
      match readUnsigned base cs with
      | .ok n => .ok (n : Int)
      | .error none => .error (.malformed base (String.ofList cs))
      | .error (some digits) => .error (.tooLongToRead digits) := by
  obtain ⟨c, cs, rfl⟩ := List.exists_cons_of_ne_nil hne
  have hpass := passes_of_digitValue? (p := fun c => !isPadding c && c != '-' && c != '+')
    (by decide +kernel) (h c List.mem_cons_self)
  simp only [Bool.and_eq_true, Bool.not_eq_true', bne_iff_ne] at hpass
  obtain ⟨⟨hpad, hminus⟩, hplus⟩ := hpass
  unfold read
  rw [String.toList_ofList, plain_of_alnum h, List.dropWhile_cons_of_neg (by simp [hpad])]
  cases hread : readUnsigned base (c :: cs) with
  | ok n => simp [hminus, hplus, hread]
  | error e => cases e <;> simp [hminus, hplus, hread]

theorem isSome_digitValue?_of_isHexDigit {c : Char} (h : isHexDigit c = true) :
    (digitValue? c).isSome = true :=
  passes_of_isHexDigit (p := fun c => (digitValue? c).isSome) (by decide +kernel) h

/-- No base mark stands before digits of that base. -/
theorem afterMark_of_hex {base : Nat} {cs : List Char} (hb : base = 8 ∨ base = 16)
    (h : cs.all isHexDigit = true) : afterMark base cs = cs := by
  have hmark : (markedBase? cs == some base) = false := by
    unfold markedBase?
    split
    · next c _ =>
        have hc : isHexDigit c = true := by
          simp only [List.all_cons, Bool.and_eq_true] at h
          exact h.2.1
        have hne := passes_of_isHexDigit
          (p := fun c => c != 'x' && c != 'X' && c != 'o' && c != 'O') (by decide +kernel) hc
        simp only [Bool.and_eq_true, bne_iff_ne] at hne
        obtain ⟨⟨⟨hx, hX⟩, ho⟩, hO⟩ := hne
        rcases hb with rfl | rfl
        · by_cases hbin : c = 'b' ∨ c = 'B' <;> simp [hx, hX, ho, hO, hbin]
        · by_cases hbin : c = 'b' ∨ c = 'B' <;> simp [hx, hX, ho, hO, hbin]
    · simp
  simp [afterMark, hmark]

theorem readUnsigned_of_spells {base : Nat} {cs : List Char} {digits : List Nat}
    (hb : base = 8 ∨ base = 16) (hne : cs ≠ []) (hhex : cs.all isHexDigit = true)
    (h : Spells base cs digits) : readUnsigned base cs = .ok (ofDigits base digits) := by
  have hzero : base ≠ 0 := by omega
  have hten : base ≠ 10 := by omega
  simp [readUnsigned, hzero, hten, afterMark_of_hex hb hhex,
    leadingDigits_of_spells h true (.inl hne)]

/-- Octal or hexadecimal digits are read as the number that they spell. -/
theorem read_of_spells {base : Nat} {cs : List Char} {digits : List Nat}
    (hb : base = 8 ∨ base = 16) (hne : cs ≠ []) (hhex : cs.all isHexDigit = true)
    (h : Spells base cs digits) :
    read base (String.ofList cs) = .ok (ofDigits base digits : Nat) := by
  rw [read_of_alnum hne fun c hc =>
    isSome_digitValue?_of_isHexDigit (List.all_eq_true.1 hhex c hc),
    readUnsigned_of_spells hb hne hhex h]

end Numeral

namespace Rune

theorem exists_spells {base : Nat} {cs : List Char}
    (h : ∀ c ∈ cs, (Numeral.digitBelow? base c).isSome = true) :
    ∃ digits, Numeral.Spells base cs digits := by
  induction cs with
  | nil => exact ⟨[], rfl⟩
  | cons c cs ih =>
      obtain ⟨d, hd⟩ := Option.isSome_iff_exists.1 (h c (by simp))
      obtain ⟨ds, hds⟩ := ih fun c hc => h c (by simp [hc])
      refine ⟨d :: ds, ?_⟩
      rw [Numeral.Spells, List.map_cons, List.map_cons, hd, hds]

theorem numberIn_of_spells {base : Nat} {cs : List Char} {digits : List Nat}
    (hb : base = 8 ∨ base = 16) (hne : cs ≠ []) (hhex : cs.all isHexDigit = true)
    (h : Numeral.Spells base cs digits) :
    numberIn base cs = .ok (Numeral.ofDigits base digits : Nat) := by
  rw [numberIn, Numeral.read_of_spells hb hne hhex h]
  rfl

/-- Digits of a base, of which only the ASCII ones have to be looked at, make a number. -/
theorem exists_numberIn {base : Nat} {digit : Char → Bool} {cs : List Char}
    (hb : base = 8 ∨ base = 16) (hhex : ∀ c, digit c = true → isHexDigit c = true)
    (hdigit : ((List.range 128).all fun n =>
      !digit (Char.ofNat n) || (Numeral.digitBelow? base (Char.ofNat n)).isSome) = true)
    (hne : cs ≠ []) (h : cs.all digit = true) : ∃ n : Nat, numberIn base cs = .ok n := by
  have hbelow : ∀ c ∈ cs, (Numeral.digitBelow? base c).isSome = true := by
    intro c hc
    have hc := List.all_eq_true.1 h c hc
    have hpass := passes_of_ascii
      (p := fun c => !digit c || (Numeral.digitBelow? base c).isSome) hdigit
      (toNat_lt_of_isHexDigit (hhex c hc))
    simpa [hc] using hpass
  obtain ⟨digits, hdigits⟩ := exists_spells hbelow
  exact ⟨_, numberIn_of_spells hb hne (all_imp hhex h) hdigits⟩

inductive Form : List Char → Prop where
  | plain (c : Char) (quote : c ≠ '\'') (backslash : c ≠ '\\') (newline : c ≠ '\n') : Form [c]
  | hex (mark : Char) (ds : List Char) (digits : ds.all isHexDigit = true)
      (length : (mark, ds.length) ∈ [('x', 2), ('u', 4), ('U', 8)]) : Form ('\\' :: mark :: ds)
  | octal (ds : List Char) (digits : ds.all isOctalDigit = true) (length : ds.length = 3) :
      Form ('\\' :: ds)
  | simple (c : Char) (letter : isSimpleEscape c = true) : Form ['\\', c]

theorem exactWidth_digits {p : Char → Bool} {k n : Nat} {cs : List Char}
    (h : exactWidth p k cs = some n) :
    n = k ∧ (cs.take k).length = k ∧ (cs.take k).all p = true := by
  unfold exactWidth at h
  split at h
  · next hk =>
      cases h
      exact ⟨rfl, by simpa using (Bool.and_eq_true_iff.1 hk).1, (Bool.and_eq_true_iff.1 hk).2⟩
  · cases h

theorem form_of_runeBodyWidth {cs : List Char} {n : Nat} (h : runeBodyWidth cs = some n) :
    Form (cs.take n) := by
  cases cs with
  | nil => cases h
  | cons c cs =>
      by_cases hc : c = '\\'
      · subst hc
        cases cs with
        | nil => simp [runeBodyWidth] at h
        | cons c cs =>
            have hhex : ∀ k, (c, k) ∈ [('x', 2), ('u', 4), ('U', 8)] →
                passed 2 (exactWidth isHexDigit k cs) = some n →
                Form (('\\' :: c :: cs).take n) := by
              intro k hmem hpassed
              obtain ⟨m, hm, rfl⟩ := passed_eq_some.1 hpassed
              obtain ⟨rfl, hlen, hall⟩ := exactWidth_digits hm
              rw [Nat.add_comm, List.take_succ_cons, List.take_succ_cons]
              exact .hex c _ hall (by rwa [hlen])
            simp only [runeBodyWidth] at h
            split_ifs at h with hx hu hU ho hs
            · have : c = 'x' := by simpa using hx
              exact hhex 2 (by simp [this]) h
            · have : c = 'u' := by simpa using hu
              exact hhex 4 (by simp [this]) h
            · have : c = 'U' := by simpa using hU
              exact hhex 8 (by simp [this]) h
            · obtain ⟨m, hm, rfl⟩ := passed_eq_some.1 h
              obtain ⟨rfl, hlen, hall⟩ := exactWidth_digits hm
              rw [Nat.add_comm, List.take_succ_cons]
              exact .octal _ hall hlen
            · cases h
              exact .simple c hs
      · rw [runeBodyWidth_plain hc] at h
        split at h
        · cases h
        · next hne =>
            cases h
            rw [not_or] at hne
            exact .plain c hne.1 hc hne.2

/-- A rune literal is one of the forms between quotes. -/
theorem form_of_runeWidth {cs : List Char} (h : runeWidth cs = some cs.length) :
    ∃ body, cs = '\'' :: body ++ ['\''] ∧ Form body := by
  have hwhole := h
  unfold runeWidth at h
  split at h
  · next cs =>
      obtain ⟨k, hk, hq⟩ := Option.bind_eq_some_iff.1 h
      split at hq
      · next hquote =>
          have hlen : k + 1 = cs.length := by simpa using hq
          refine ⟨cs.take k, ?_, form_of_runeBodyWidth hk⟩
          have hlast : cs.drop k = ['\''] := by
            have hone : (cs.drop k).length = 1 := by
              rw [List.length_drop]
              omega
            obtain ⟨c, hc⟩ := List.length_eq_one_iff.1 hone
            rw [hc] at hquote ⊢
            simpa using hquote
          rw [List.cons_append, ← hlast, List.take_append_drop]
      · cases hq
  · cases h

theorem escaped_hex {mark : Char} {ds : List Char}
    (length : (mark, ds.length) ∈ [('x', 2), ('u', 4), ('U', 8)]) :
    escaped (mark :: ds) = numberIn 16 ds := by
  have hmark : ['x', 'u', 'U'].contains mark = true := by
    simp only [List.mem_cons, Prod.mk.injEq, List.not_mem_nil, or_false] at length
    rcases length with ⟨rfl, _⟩ | ⟨rfl, _⟩ | ⟨rfl, _⟩ <;> rfl
  simp only [escaped, hmark, if_true]

theorem escaped_octal {ds : List Char} (hne : ds ≠ []) (digits : ds.all isOctalDigit = true) :
    escaped ds = numberIn 8 ds := by
  obtain ⟨d, ds, rfl⟩ := List.exists_cons_of_ne_nil hne
  have hd : isOctalDigit d = true := by
    simp only [List.all_cons, Bool.and_eq_true] at digits
    exact digits.1
  have hmark : ['x', 'u', 'U'].contains d = false := by
    have htest := passes_of_isHexDigit (p := fun c => !(['x', 'u', 'U'].contains c))
      (by decide +kernel) (isHexDigit_of_isOctalDigit d hd)
    simpa using htest
  simp only [escaped, hmark, Bool.false_eq_true, if_false]
  exact if_pos hd

def letters : List (Char × Nat) :=
  [('a', 7), ('b', 8), ('f', 12), ('n', 10), ('r', 13), ('t', 9), ('v', 11), ('\\', 92), ('\'', 39)]

theorem isSimpleEscape_iff {c : Char} : isSimpleEscape c = true ↔ ∃ n, (c, n) ∈ letters := by
  have hletters : isSimpleEscape c = (letters.map (·.1)).contains c := rfl
  rw [hletters, List.contains_iff_mem, List.mem_map]
  constructor
  · rintro ⟨⟨_, n⟩, hn, rfl⟩
    exact ⟨n, hn⟩
  · rintro ⟨n, hn⟩
    exact ⟨(c, n), hn, rfl⟩

theorem escaped_letter {c : Char} {n : Nat} (h : (c, n) ∈ letters) :
    escaped [c] = .ok (n : Int) := by
  simp only [letters, List.mem_cons, Prod.mk.injEq, List.not_mem_nil, or_false] at h
  rcases h with h | h | h | h | h | h | h | h | h <;> (rw [h.1, h.2]; rfl)

theorem between_quotes (body : List Char) :
    (('\'' :: body ++ ['\'']).drop 1).dropLast = body := by
  simp

theorem value_escape (rest : List Char) :
    value ('\'' :: '\\' :: rest ++ ['\'']) = escaped rest := by
  simp only [value, between_quotes]

theorem value_plain {c : Char} (h : c ≠ '\\') : value ('\'' :: [c] ++ ['\'']) = .ok c.toNat := by
  unfold value
  rw [between_quotes]
  split
  · next heq => exact absurd (List.cons.inj heq).1 h
  · next heq =>
      cases heq
      rfl
  · next hne => exact absurd rfl (hne c)

theorem value_of_form {body : List Char} (h : Form body) :
    ∃ v : Nat, value ('\'' :: body ++ ['\'']) = .ok v := by
  cases h with
  | plain c quote backslash newline => exact ⟨c.toNat, value_plain backslash⟩
  | hex mark ds digits length =>
      have hne : ds ≠ [] := by
        rintro rfl
        simp at length
      rw [value_escape, escaped_hex length]
      exact exists_numberIn (.inr rfl) (fun _ hc => hc) (by decide +kernel) hne digits
  | octal ds digits length =>
      have hne : ds ≠ [] := List.ne_nil_of_length_pos (by omega)
      rw [value_escape, escaped_octal hne digits]
      exact exists_numberIn (.inl rfl) isHexDigit_of_isOctalDigit (by decide +kernel) hne digits
  | simple c letter =>
      obtain ⟨n, hn⟩ := isSimpleEscape_iff.1 letter
      exact ⟨n, (value_escape [c]).trans (escaped_letter hn)⟩

/-- The code point of a literal, or zero for a text that has none. -/
def code (literal : List Char) : Int := (value literal).toOption.getD 0

/-- Every rune literal has a code point. -/
theorem value_eq_code {cs : List Char} (h : runeWidth cs = some cs.length) :
    value cs = .ok (code cs) := by
  obtain ⟨body, rfl, hform⟩ := form_of_runeWidth h
  obtain ⟨v, hv⟩ := value_of_form hform
  rw [code, hv]
  rfl

end Rune
end EnumNames
