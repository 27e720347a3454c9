import EnumNames.Proofs.RuneValue
import EnumNames.Source.IntLiteral
import Mathlib.Data.List.Induction
import Mathlib.Data.Nat.Digits.Defs

/-!
Integers in generated code. An integer is written in decimal, unless it has more
digits than the limit. What is written is an integer literal, after a minus sign
when the integer is negative, and is read as the integer again.
-/

namespace EnumNames

open EnumNames.Grammar EnumNames.Text

namespace Numeral

/-! ## Writing -/

def Short (n : Int) : Prop := n.natAbs < Nat.pow 10 digitLimit

instance (n : Int) : Decidable (Short n) :=
  inferInstanceAs (Decidable (n.natAbs < Nat.pow 10 digitLimit))

variable {n : Int}

theorem write_of_short (h : Short n) : write n = .ok (decimal n) := by
  rw [write, if_neg (Nat.not_le.2 h)]

theorem write_of_long (h : ¬ Short n) : write n = .error .tooLongToWrite := by
  rw [write, if_pos (Nat.not_lt.1 h)]

theorem toList_decimal (n : Int) :
    (decimal n).toList =
      if n < 0 then '-' :: Nat.toDigits 10 n.natAbs else Nat.toDigits 10 n.natAbs := by
  unfold decimal
  dsimp only
  split
  · rw [String.toList_append]
    exact congrArg ('-' :: ·) String.toList_ofList
  · exact String.toList_ofList

/-! ## Decimal digits -/

theorem isPlainDigit_of_mem_toDigits {c : Char} {k : Nat} (h : c ∈ Nat.toDigits 10 k) :
    isPlainDigit c = true := by
  have hdigit := Nat.isDigit_of_mem_toDigits (by decide) (by decide) h
  simp only [Char.isDigit, Bool.and_eq_true, decide_eq_true_eq] at hdigit
  rw [isPlainDigit, Bool.and_eq_true, decide_eq_true_eq, decide_eq_true_eq]
  exact hdigit

theorem mem_decimal {c : Char} (h : c ∈ (decimal n).toList) :
    n < 0 ∧ c = '-' ∨ isPlainDigit c = true := by
  rw [toList_decimal] at h
  split at h
  · rename_i hneg
    rcases List.mem_cons.1 h with rfl | h
    · exact .inl ⟨hneg, rfl⟩
    · exact .inr (isPlainDigit_of_mem_toDigits h)
  · exact .inr (isPlainDigit_of_mem_toDigits h)

/-- No blank stands in an integer. -/
theorem stops_decimal (n : Int) {rest : List Char} (h : Stops (· == ' ') rest) :
    Stops (· == ' ') ((decimal n).toList ++ rest) := by
  cases hd : (decimal n).toList with
  | nil => exact h
  | cons c cs =>
      refine stops_cons.2 (beq_eq_false_iff_ne.2 ?_)
      rintro rfl
      have hblank : ' ' ∈ (decimal n).toList := hd ▸ List.mem_cons_self
      rcases mem_decimal hblank with ⟨_, hminus⟩ | hdigit
      · exact absurd hminus (by decide)
      · exact absurd hdigit (by decide)

/-- Only the numeral of zero starts with a zero. -/
theorem head?_toDigits {k : Nat} (hk : 0 < k) : (Nat.toDigits 10 k).head? ≠ some '0' := by
  induction k using Nat.strongRecOn with
  | ind k ih =>
      by_cases hlt : k < 10
      · rw [Nat.toDigits_of_lt_base hlt]
        have hall : ∀ d < 10, 0 < d → [Nat.digitChar d].head? ≠ some '0' := by decide
        exact hall k hlt hk
      · have hlead := ih (k / 10) (by omega) (by omega)
        rw [Nat.toDigits_of_base_le (by decide) (by omega), List.head?_append_of_ne_nil _
          Nat.toDigits_ne_nil]
        exact hlead

/-! ## Positional values -/

def digitOf (c : Char) : Nat := "0123456789abcdef".toList.idxOf c.toLower

def positional (base : Nat) (cs : List Char) : Nat := Nat.ofDigits base (cs.map digitOf).reverse

variable {base : Nat} {cs : List Char}

theorem positional_append_singleton (base : Nat) (cs : List Char) (c : Char) :
    positional base (cs ++ [c]) = digitOf c + base * positional base cs := by
  rw [positional, List.map_append, List.reverse_append]
  exact Nat.ofDigits_cons ..

theorem ofDigits_digitOf (base : Nat) (cs : List Char) :
    ofDigits base (cs.map digitOf) = positional base cs := by
  induction cs using List.reverseRecOn with
  | nil => rfl
  | append_singleton cs c ih =>
      rw [List.map_append, ofDigits, List.foldl_append, ← ofDigits, ih, positional_append_singleton,
        Nat.mul_comm base, Nat.add_comm]
      rfl

theorem positional_zeros_append (base zeros : Nat) (cs : List Char) :
    positional base (List.replicate zeros '0' ++ cs) = positional base cs := by
  have hzero : digitOf '0' = 0 := by decide
  rw [positional, List.map_append, List.map_replicate, hzero, List.reverse_append,
    List.reverse_replicate, Nat.ofDigits_append_replicate_zero]
  rfl

theorem digitOf_digitChar : ∀ d < 16, digitOf (Nat.digitChar d) = d := by decide

/-- The numeral of a number has the number for its positional value. -/
theorem positional_toDigits (hlow : 1 < base) (hhigh : base ≤ 16) (n : Nat) :
    positional base (Nat.toDigits base n) = n := by
  induction n using Nat.strongRecOn with
  | ind n ih =>
      by_cases hn : n < base
      · rw [Nat.toDigits_of_lt_base hn]
        exact (Nat.ofDigits_singleton ..).trans (digitOf_digitChar n (by omega))
      · have hdigit : n % base < 16 := Nat.lt_of_lt_of_le (Nat.mod_lt n (by omega)) hhigh
        rw [Nat.toDigits_of_base_le hlow (by omega), positional_append_singleton,
          digitOf_digitChar _ hdigit, ih _ (Nat.div_lt_self (by omega) hlow), Nat.mod_add_div]

theorem spells_digitOf (h : ∀ c ∈ cs, digitBelow? base c = some (digitOf c)) :
    Spells base cs (cs.map digitOf) := by
  rw [Spells, List.map_map]
  exact List.map_congr_left h

theorem digitBelow?_of_isPlainDigit {c : Char} (h : isPlainDigit c = true) :
    digitBelow? 10 c = some (digitOf c) := by
  have hpass := passes_of_isHexDigit
    (p := fun c => !isPlainDigit c || digitBelow? 10 c == some (digitOf c))
    (by decide +kernel) (isHexDigit_of_isPlainDigit c h)
  simpa [h] using hpass

/-- Zero is the only decimal digit without a value. -/
theorem eq_zero_of_digitOf {c : Char} (h : isPlainDigit c = true) (hzero : digitOf c = 0) :
    c = '0' := by
  have hpass := passes_of_isHexDigit (p := fun c => digitOf c != 0 || c == '0')
    (by decide +kernel) (isHexDigit_of_isPlainDigit c h)
  simpa [hzero] using hpass

theorem markedBase?_of_digits {cs : List Char} (h : cs.all isPlainDigit = true) :
    markedBase? cs = none := by
  unfold markedBase?
  split
  · next c rest =>
      simp only [List.all_cons, Bool.and_eq_true] at h
      have hpass := passes_of_isHexDigit (p := fun c => !isPlainDigit c || !(c == 'x' || c == 'X') &&
        !(c == 'o' || c == 'O') && !(c == 'b' || c == 'B')) (by decide +kernel)
        (isHexDigit_of_isPlainDigit c h.2.1)
      simp only [h.2.1, Bool.not_true, Bool.false_or, Bool.and_eq_true, Bool.not_eq_true'] at hpass
      rw [hpass.1.1, hpass.1.2, hpass.2]
      rfl
  · rfl

/-- Digits without a base mark are decimal, and only zero may start with a zero. -/
theorem readUnsigned_decimal (hall : cs.all isPlainDigit = true) (hne : cs ≠ [])
    (hlead : cs.head? = some '0' → cs = ['0']) :
    readUnsigned 0 cs =
      if digitLimit < cs.length then .error (some cs.length) else .ok (positional 10 cs) := by
  have hmark := markedBase?_of_digits hall
  have hafter : afterMark 10 cs = cs := by
    rw [afterMark, hmark]
    rfl
  have hspells : Spells 10 cs (cs.map digitOf) :=
    spells_digitOf fun c hc => digitBelow?_of_isPlainDigit (List.all_eq_true.1 hall c hc)
  have hdigits := leadingDigits_of_spells hspells true (.inl hne)
  have hzero : ((cs.map digitOf).head? == some 0 && positional 10 cs != 0) = false := by
    rw [Bool.and_eq_false_iff, beq_eq_false_iff_ne, bne_eq_false_iff_eq]
    by_cases hhead : (cs.map digitOf).head? = some 0
    · right
      rw [List.head?_map, Option.map_eq_some_iff] at hhead
      obtain ⟨c, hc, hvalue⟩ := hhead
      have hchar := eq_zero_of_digitOf (List.all_eq_true.1 hall c (List.mem_of_mem_head? hc)) hvalue
      rw [hlead (hchar ▸ hc)]
      decide
    · exact .inl hhead
  unfold readUnsigned
  simp only [beq_self_eq_true, if_true, hmark, Option.getD_none, hafter, hdigits, Bool.true_and,
    decide_eq_true_eq, List.length_map, ofDigits_digitOf, hzero, Bool.false_eq_true,
    if_false, List.all_nil]

end Numeral

namespace IntLiteral

open Numeral

/-- A literal of letters and digits is read in base eight if it is octal, and otherwise in the base
that it marks. -/
theorem value_of_alnum {text : String} {ds : List Char} {base : Nat}
    (hd : digits text.toList = ds) (hne : ds ≠ [])
    (halnum : ∀ c ∈ ds, (digitValue? c).isSome = true)
    (hbase : (if isOctal ds = true then 8 else 0) = base) :
    value text =
      match readUnsigned base ds with
      | .ok n => .ok (n : Int)
      | .error none => .error (.malformed base (String.ofList ds))
      | .error (some digits) => .error (.tooLongToRead digits) := by
  unfold value
  dsimp only
  rw [hd, hbase]
  exact read_of_alnum hne halnum

/-- The value of a literal of decimal digits. A zero before further digits would mark an octal
literal. -/
theorem value_decimal {text : String} {ds : List Char} (hd : digits text.toList = ds)
    (hall : ds.all isPlainDigit = true) (hne : ds ≠ []) (hlead : ds.head? = some '0' → ds = ['0']) :
    value text =
      if digitLimit < ds.length then .error (.tooLongToRead ds.length)
      else .ok (positional 10 ds : Nat) := by
  have hoctal : isOctal ds = false := by
    rw [isOctal]
    by_cases hhead : ds.head? = some '0'
    · rw [hlead hhead]
      rfl
    · rw [beq_eq_false_iff_ne.2 hhead, Bool.and_false, Bool.false_and]
  have halnum : ∀ c ∈ ds, (digitValue? c).isSome = true := fun c hc =>
    isSome_digitValue?_of_isHexDigit (isHexDigit_of_isPlainDigit c (List.all_eq_true.1 hall c hc))
  rw [value_of_alnum hd hne halnum (if_neg (Bool.eq_false_iff.1 hoctal)),
    readUnsigned_decimal hall hne hlead]
  by_cases hlong : digitLimit < ds.length
  · rw [if_pos hlong, if_pos hlong]
  · rw [if_neg hlong, if_neg hlong]

/-- A numeral with underscores that keeps to the limit is a literal of its number. -/
theorem value_of_toDigits {text : String} {k : Nat} (h : k < Nat.pow 10 digitLimit)
    (hd : digits text.toList = Nat.toDigits 10 k) : value text = .ok (k : Int) := by
  have hlead : (Nat.toDigits 10 k).head? = some '0' → Nat.toDigits 10 k = ['0'] := by
    intro hhead
    by_cases hk : k = 0
    · rw [hk, Nat.toDigits_zero]
    · exact absurd hhead (head?_toDigits (Nat.pos_of_ne_zero hk))
  have hshort : ∀ limit, 0 < limit → k < Nat.pow 10 limit → (Nat.toDigits 10 k).length ≤ limit :=
    fun limit hlimit => (Nat.length_toDigits_le_iff (by decide) hlimit).2
  rw [value_decimal hd (List.all_eq_true.2 fun c hc => isPlainDigit_of_mem_toDigits hc)
    Nat.toDigits_ne_nil hlead, if_neg (Nat.not_lt.2 (hshort digitLimit (by decide) h)),
    positional_toDigits (by decide) (by decide)]

theorem value_toDigits {k : Nat} (h : k < Nat.pow 10 digitLimit) :
    value (String.ofList (Nat.toDigits 10 k)) = .ok (k : Int) := by
  refine value_of_toDigits h ?_
  rw [digits, String.toList_ofList]
  refine List.filter_eq_self.2 fun c hc => bne_iff_ne.2 ?_
  rintro rfl
  exact Nat.underscore_not_in_toDigits hc

def decimal? (cs : List Char) : Option Int :=
  if cs.all isPlainDigit then (value (String.ofList cs)).toOption else none

/-- The integer that a literal of decimal digits denotes, or a minus sign with one. -/
def signed? : List Char → Option Int
  | '-' :: cs => (decimal? cs).map (-·)
  | cs => decimal? cs

theorem decimal?_toDigits {k : Nat} (h : k < Nat.pow 10 digitLimit) :
    decimal? (Nat.toDigits 10 k) = some (k : Int) := by
  have hdigits : (Nat.toDigits 10 k).all isPlainDigit = true :=
    List.all_eq_true.2 fun c hc => Numeral.isPlainDigit_of_mem_toDigits hc
  rw [decimal?, if_pos hdigits, value_toDigits h]
  rfl

/-- What is written for an integer denotes the integer. -/
theorem signed?_decimal {n : Int} (h : Short n) :
    signed? (Numeral.decimal n).toList = some n := by
  rw [Numeral.toList_decimal]
  split
  · next hneg =>
      rw [signed?, decimal?_toDigits h, Option.map_some, Int.ofNat_natAbs_of_nonpos (by omega),
        Int.neg_neg]
  · next hpos =>
      have hread := decimal?_toDigits h
      rw [Int.natAbs_of_nonneg (by omega)] at hread
      rw [← hread]
      unfold signed?
      split
      · next cs heq =>
          have hminus := Numeral.isPlainDigit_of_mem_toDigits (heq ▸ List.mem_cons_self ..)
          cases hminus
      · rfl

end IntLiteral
end EnumNames
