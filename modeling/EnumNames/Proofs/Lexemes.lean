import EnumNames.Proofs.DepthBound

/-!
Lexical forms before a given rest. Each form is said by its characters alone,
and its token takes just these characters when the rest cannot continue them.
-/

namespace EnumNames.Text

/-! ## Character classes -/

namespace Ranges

def disjoint (a b : Ranges) : Bool := a.all fun r => b.all fun s => r.2 < s.1 || s.2 < r.1

theorem has_eq_false_of_disjoint {a b : Ranges} (h : a.disjoint b = true) {c : Char}
    (ha : a.has c = true) : b.has c = false := by
  by_contra hb
  rw [Bool.not_eq_false] at hb
  obtain ⟨r, hr, hr₁, hr₂⟩ := (has_iff a c).1 ha
  obtain ⟨s, hs, hs₁, hs₂⟩ := (has_iff b c).1 hb
  have hd := List.all_eq_true.1 (List.all_eq_true.1 h r hr) s hs
  simp only [Bool.or_eq_true, decide_eq_true_eq] at hd
  omega

end Ranges

/-- A test that all ASCII characters pass. -/
theorem passes_of_ascii {p : Char → Bool}
    (h : ((List.range 128).all fun n => p (Char.ofNat n)) = true) {c : Char}
    (hc : c.toNat < 128) : p c = true := by
  have hn := List.all_eq_true.1 h c.toNat (List.mem_range.2 hc)
  simpa only [Char.ofNat_toNat] using hn

theorem isSpace_eq_false_of_isWord {c : Char} (h : isWord c = true) : isSpace c = false := by
  by_cases hc : c.toNat < 128
  · have hascii := passes_of_ascii (p := fun c => !isWord c || !isSpace c) (by decide +kernel) hc
    simpa [h] using hascii
  · have hd : wideWord.disjoint spaces = true := by decide +kernel
    exact Ranges.has_eq_false_of_disjoint hd (by simpa [isWord, hc] using h)

theorem isBlank_eq_false_of_isWord {c : Char} (h : isWord c = true) : isBlank c = false := by
  by_cases hc : c.toNat < 128
  · have hascii := passes_of_ascii (p := fun c => !isWord c || !isBlank c) (by decide +kernel) hc
    simpa [h] using hascii
  · have hs := isSpace_eq_false_of_isWord h
    simp only [isBlank, hs, Bool.false_or, Bool.and_eq_false_iff, decide_eq_false_iff_not]
    omega

theorem ne_of_isWord {c d : Char} (h : isWord c = true) (hd : isWord d = false) : c ≠ d := by
  rintro rfl
  rw [h] at hd
  cases hd

end EnumNames.Text

namespace EnumNames.Grammar

open EnumNames.Text

theorem isStructural_eq_false_of_isWord {c : Char} (h : isWord c = true) :
    isStructural c = false := by
  have hd : (['(', ')', '[', ']', '\x7b', '\x7d', '"', '\'', rawQuote, '/'].all
      (!isWord ·)) = true := by decide +kernel
  rw [isStructural, List.contains_eq_mem, decide_eq_false_iff_not]
  intro hmem
  have hc := List.all_eq_true.1 hd c hmem
  simp [h] at hc

theorem isBare_of_isWord {c : Char} (h : isWord c = true) : isBare c = true := by
  have hcomma : c ≠ ',' := ne_of_isWord h (by decide)
  have hsemicolon : c ≠ ';' := ne_of_isWord h (by decide)
  simp [isBare, isStructural_eq_false_of_isWord h, isSpace_eq_false_of_isWord h, hcomma,
    hsemicolon]

theorem isIndent_eq_false_of_isWord {c : Char} (h : isWord c = true) : isIndent c = false := by
  have hspace : c ≠ ' ' := ne_of_isWord h (by decide)
  have htab : c ≠ '\t' := ne_of_isWord h (by decide)
  simp [isIndent, hspace, htab]

theorem isSpace_of_isIndent {c : Char} (h : isIndent c = true) : isSpace c = true := by
  rcases Bool.or_eq_true_iff.1 h with hc | hc <;>
    · rw [beq_iff_eq] at hc
      subst hc
      decide

theorem isPlainDigit_eq_false {c : Char} (h : isSourceDecimal c = false) :
    isPlainDigit c = false := by
  by_cases hc : c.toNat < 128
  · have hascii := passes_of_ascii (p := fun c => isSourceDecimal c || !isPlainDigit c)
      (by decide +kernel) hc
    simpa [h] using hascii
  · simp only [isPlainDigit, Bool.and_eq_false_iff, decide_eq_false_iff_not, Char.not_le]
    right
    show '9'.val < c.val
    rw [UInt32.lt_iff_toNat_lt]
    show 57 < c.toNat
    omega

/-! ## Runs of characters -/

def Stops (p : Char → Bool) (rest : List Char) : Prop := ∀ c ∈ rest.head?, p c = false

theorem stops_nil (p : Char → Bool) : Stops p [] := by
  simp [Stops]

@[simp] theorem stops_cons {p : Char → Bool} {c : Char} {cs : List Char} :
    Stops p (c :: cs) ↔ p c = false := by
  simp [Stops]

theorem Stops.mono {p q : Char → Bool} {rest : List Char} (h : Stops p rest)
    (hq : ∀ c, q c = true → p c = true) : Stops q rest := by
  intro c hc
  by_contra hne
  rw [Bool.not_eq_false] at hne
  have := h c hc
  rw [hq c hne] at this
  cases this

theorem Stops.append {p : Char → Bool} {cs rest : List Char} (h : Stops p cs) (hr : Stops p rest) :
    Stops p (cs ++ rest) := by
  cases cs with
  | nil => exact hr
  | cons c cs => exact h

theorem Stops.of_append {p : Char → Bool} {cs rest : List Char} (h : Stops p (cs ++ rest)) :
    Stops p cs := by
  cases cs with
  | nil => exact stops_nil p
  | cons c cs => exact h

theorem takeWhile_append_stops {p : Char → Bool} {cs rest : List Char} (h : cs.all p = true)
    (hr : Stops p rest) : (cs ++ rest).takeWhile p = cs := by
  rw [List.takeWhile_append_of_pos (List.all_eq_true.1 h)]
  cases rest with
  | nil => simp
  | cons c rest => simp [stops_cons.1 hr]

theorem dropWhile_of_stops {p : Char → Bool} {cs : List Char} (h : Stops p cs) :
    cs.dropWhile p = cs := by
  cases cs with
  | nil => rfl
  | cons c cs => simp [stops_cons.1 h]

/-- Text that has no blank at either end is left as it is by trimming. -/
theorem trim_eq_self {cs : List Char} (hfirst : Stops isBlank cs)
    (hlast : Stops isBlank cs.reverse) : trim cs = cs := by
  rw [trim, dropWhile_of_stops hfirst, trimEnd, dropEndWhile, dropWhile_of_stops hlast,
    List.reverse_reverse]

/-- A text of words starts with no blank. -/
theorem stops_isBlank_append {cs : List Char} (h : cs.all isWord = true) (hne : cs ≠ [])
    (rest : List Char) : Stops isBlank (cs ++ rest) := by
  cases cs with
  | nil => exact absurd rfl hne
  | cons c cs =>
      simp only [List.all_cons, Bool.and_eq_true] at h
      exact stops_cons.2 (isBlank_eq_false_of_isWord h.1)

theorem runWidth_append {p : Char → Bool} {cs rest : List Char} (h : cs.all p = true)
    (hne : cs ≠ []) (hr : Stops p rest) : runWidth p (cs ++ rest) = some cs.length := by
  rw [runWidth, takeWhile_append_stops h hr]
  cases cs with
  | nil => exact absurd rfl hne
  | cons c cs => rfl

theorem takeWhile_append_of_stops {p : Char → Bool} (cs : List Char) {rest : List Char}
    (hr : Stops p rest) : (cs ++ rest).takeWhile p = cs.takeWhile p := by
  induction cs with
  | nil =>
      cases rest with
      | nil => rfl
      | cons c rest => simp [stops_cons.1 hr]
  | cons c cs ih =>
      by_cases hc : p c
      · simp [hc, ih]
      · simp [hc]

theorem runWidth_append_of_stops {p : Char → Bool} (cs : List Char) {rest : List Char}
    (hr : Stops p rest) : runWidth p (cs ++ rest) = runWidth p cs := by
  simp only [runWidth, takeWhile_append_of_stops cs hr]

theorem all_imp {p q : Char → Bool} {cs : List Char} (hq : ∀ c, p c = true → q c = true)
    (h : cs.all p = true) : cs.all q = true :=
  List.all_eq_true.2 fun c hc => hq c (List.all_eq_true.1 h c hc)

theorem take_length_takeWhile (p : Char → Bool) (cs : List Char) :
    cs.take (cs.takeWhile p).length = cs.takeWhile p :=
  (List.prefix_iff_eq_take.1 (List.takeWhile_prefix p)).symm

theorem all_of_runWidth {p : Char → Bool} {cs : List Char} {n : Nat} (h : runWidth p cs = some n) :
    (cs.take n).all p = true := by
  rw [(runWidth_eq_some h).1, take_length_takeWhile]
  exact List.all_takeWhile

theorem indentWidth_append {cs rest : List Char} (h : cs.all isIndent = true)
    (hr : Stops isIndent rest) : indentWidth (cs ++ rest) = cs.length := by
  rw [indentWidth, takeWhile_append_stops h hr]

theorem wordWidth_append (word rest : List Char) :
    wordWidth word (word ++ rest) = some word.length :=
  wordWidth_eq_some.2 ⟨rfl, List.prefix_append word rest⟩

theorem endsWord_iff {rest : List Char} : endsWord rest = true ↔ Stops isWord rest := by
  cases rest with
  | nil => simp [endsWord, Stops]
  | cons c rest => simp [endsWord]

/-- A keyword is found where the words before it in the list do not stand. -/
theorem keywordWidth_append (before after : List (List Char)) {word rest : List Char}
    (hb : ∀ w ∈ before, wordWidth w (word ++ rest) = none) (hr : Stops isWord rest) :
    keywordWidth (before ++ word :: after) (word ++ rest) = some word.length := by
  induction before with
  | nil =>
      simp [keywordWidth, wordWidth_append, endsWord_iff.2 hr]
  | cons w before ih =>
      have hw : wordWidth w (word ++ rest) = none := hb w (by simp)
      have ih := ih fun w hmem => hb w (by simp [hmem])
      simpa [keywordWidth, hw] using ih

theorem wordWidth_append_of_stops {word : List Char} (cs : List Char) {rest : List Char}
    (hr : Stops (word.contains ·) rest) : wordWidth word (cs ++ rest) = wordWidth word cs := by
  induction word generalizing cs with
  | nil => rfl
  | cons w word ih =>
      cases cs with
      | nil =>
          cases rest with
          | nil => rfl
          | cons c rest =>
              have hc : ¬ (c = w ∨ c ∈ word) := by simpa using stops_cons.1 hr
              simp [wordWidth, Ne.symm (not_or.1 hc).1]
      | cons c cs =>
          have hword : Stops (word.contains ·) rest := hr.mono fun c hc => by
            simp only [List.contains_eq_mem, decide_eq_true_eq, List.mem_cons] at hc ⊢
            exact .inr hc
          simp [wordWidth, ih cs hword]

theorem endsWord_drop_append {cs rest : List Char} {n : Nat} (hn : n ≤ cs.length)
    (hr : Stops isWord rest) : endsWord ((cs ++ rest).drop n) = endsWord (cs.drop n) := by
  rw [List.drop_append_of_le_length hn]
  cases cs.drop n with
  | nil =>
      rw [List.nil_append, endsWord_iff.2 hr]
      rfl
  | cons c cs => rfl

theorem keywordWidth_append_of_stops {words : List (List Char)} (cs : List Char) {rest : List Char}
    (hw : ∀ w ∈ words, Stops (w.contains ·) rest) (hr : Stops isWord rest) :
    keywordWidth words (cs ++ rest) = keywordWidth words cs := by
  induction words with
  | nil => rfl
  | cons w words ih =>
      have ih := ih fun w hmem => hw w (by simp [hmem])
      have hfirst := wordWidth_append_of_stops cs (hw w (by simp))
      unfold keywordWidth at ih ⊢
      rw [List.findSome?_cons, List.findSome?_cons, ih, hfirst]
      cases hn : wordWidth w cs with
      | none => rfl
      | some n =>
          have hle : n ≤ cs.length := by
            obtain ⟨rfl, hp⟩ := wordWidth_eq_some.1 hn
            exact hp.length_le
          simp only [Option.filter_some, endsWord_drop_append hle hr]

/-! ## Identifiers -/

def isIdentifier : List Char → Bool
  | [] => false
  | c :: cs => isWord c && !isSourceDecimal c && cs.all isWord

theorem isIdentifier_cons {cs : List Char} (h : isIdentifier cs = true) :
    ∃ c cs', cs = c :: cs' ∧ isWord c = true ∧ isSourceDecimal c = false ∧
      cs'.all isWord = true := by
  cases cs with
  | nil => cases h
  | cons c cs =>
      simp only [isIdentifier, Bool.and_eq_true, Bool.not_eq_true'] at h
      exact ⟨c, cs, rfl, h.1.1, h.1.2, h.2⟩

theorem all_isWord_of_isIdentifier {cs : List Char} (h : isIdentifier cs = true) :
    cs.all isWord = true := by
  obtain ⟨c, cs, rfl, hc, _, hcs⟩ := isIdentifier_cons h
  simp [hc, hcs]

theorem ne_nil_of_isIdentifier {cs : List Char} (h : isIdentifier cs = true) : cs ≠ [] := by
  rintro rfl
  cases h

theorem identifierWidth_append {cs rest : List Char} (h : isIdentifier cs = true)
    (hr : Stops isWord rest) : identifierWidth (cs ++ rest) = some cs.length := by
  obtain ⟨c, cs, rfl, hc, hd, hcs⟩ := isIdentifier_cons h
  simp [identifierWidth, hc, hd, takeWhile_append_stops hcs hr, Nat.add_comm]

theorem isIdentifier_take {cs : List Char} {n : Nat} (h : identifierWidth cs = some n) :
    isIdentifier (cs.take n) = true := by
  unfold identifierWidth at h
  split at h
  · cases h
  · next c cs =>
      split at h
      · next hc =>
          cases h
          rw [Nat.add_comm, List.take_succ_cons, take_length_takeWhile]
          simp only [isIdentifier, hc, Bool.true_and]
          exact List.all_takeWhile
      · cases h

theorem identifierWidth_eq_none {ahead : List Char}
    (h : Stops isWord ahead) : identifierWidth ahead = none := by
  cases ahead with
  | nil => rfl
  | cons c cs => simp [identifierWidth, stops_cons.1 h]

theorem identifierWidth_append_of_stops (cs : List Char) {rest : List Char}
    (hr : Stops isWord rest) : identifierWidth (cs ++ rest) = identifierWidth cs := by
  cases cs with
  | nil => exact identifierWidth_eq_none hr
  | cons c cs => simp only [List.cons_append, identifierWidth, takeWhile_append_of_stops cs hr]

/-! ## Literals -/

theorem isWord_of_spaced {digit : Char → Bool} (h : ∀ c, digit c = true → isWord c = true)
    (c : Char) (hc : spaced digit c = true) : isWord c = true := by
  rcases Bool.or_eq_true_iff.1 hc with hc | hc
  · exact h c hc
  · have : c = '_' := by simpa using hc
    subst this
    decide

theorem toNat_lt_of_isHexDigit {c : Char} (h : isHexDigit c = true) : c.toNat < 128 := by
  simp only [isHexDigit, Bool.or_eq_true, Bool.and_eq_true, decide_eq_true_eq, Char.le_def,
    UInt32.le_iff_toNat_le] at h
  have h9 : '9'.val.toNat = 57 := rfl
  have hf : 'f'.val.toNat = 102 := rfl
  have hF : 'F'.val.toNat = 70 := rfl
  show c.val.toNat < 128
  omega

/-- A test that all hexadecimal digits pass. -/
theorem passes_of_isHexDigit {p : Char → Bool}
    (h : ((List.range 128).all fun n => !isHexDigit (Char.ofNat n) || p (Char.ofNat n)) = true)
    {c : Char} (hc : isHexDigit c = true) : p c = true := by
  have hascii := passes_of_ascii (p := fun c => !isHexDigit c || p c) h (toNat_lt_of_isHexDigit hc)
  simpa [hc] using hascii

theorem isWord_of_isHexDigit (c : Char) (h : isHexDigit c = true) : isWord c = true :=
  passes_of_isHexDigit (by decide +kernel) h

theorem isHexDigit_of_isPlainDigit (c : Char) (h : isPlainDigit c = true) :
    isHexDigit c = true := by
  simp only [isPlainDigit] at h
  simp [isHexDigit, h]

theorem isPlainDigit_of_isOctalDigit (c : Char) (h : isOctalDigit c = true) :
    isPlainDigit c = true := by
  simp only [isOctalDigit, isPlainDigit, Bool.and_eq_true, decide_eq_true_eq] at h ⊢
  exact ⟨h.1, Char.le_trans h.2 (by decide)⟩

theorem isHexDigit_of_isOctalDigit (c : Char) (h : isOctalDigit c = true) :
    isHexDigit c = true :=
  isHexDigit_of_isPlainDigit c (isPlainDigit_of_isOctalDigit c h)

theorem isHexDigit_of_isBinaryDigit (c : Char) (h : isBinaryDigit c = true) :
    isHexDigit c = true := by
  rcases Bool.or_eq_true_iff.1 h with h | h
  · have : c = '0' := by simpa using h
    subst this
    decide
  · have : c = '1' := by simpa using h
    subst this
    decide

/-- What follows a leading zero is read alike, whatever comes after the word. -/
theorem basedWidth_append (cs : List Char) {rest : List Char} (hr : Stops isWord rest) :
    basedWidth (cs ++ rest) = basedWidth cs := by
  have hstop : ∀ digit : Char → Bool, (∀ c, digit c = true → isHexDigit c = true) →
      Stops (spaced digit) rest := fun digit h =>
    hr.mono (isWord_of_spaced fun c hc => isWord_of_isHexDigit c (h c hc))
  have hhex := hstop isHexDigit fun _ h => h
  have hbin := hstop isBinaryDigit isHexDigit_of_isBinaryDigit
  have hoct := hstop isOctalDigit isHexDigit_of_isOctalDigit
  cases cs with
  | nil =>
      cases rest with
      | nil => rfl
      | cons c rest =>
          have hc := stops_cons.1 hr
          have hne : ∀ d, isWord d = true → c ≠ d := fun d hd => (ne_of_isWord hd hc).symm
          simp [basedWidth, hne 'x' (by decide), hne 'X' (by decide), hne 'b' (by decide),
            hne 'B' (by decide), hne 'o' (by decide), hne 'O' (by decide)]
  | cons c cs =>
      simp only [List.cons_append, basedWidth, runWidth_append_of_stops cs hhex,
        runWidth_append_of_stops cs hbin, runWidth_append_of_stops cs hoct]

theorem integerWidth_eq_none {c : Char} {cs : List Char} (h : isPlainDigit c = false) :
    integerWidth (c :: cs) = none := by
  simp [integerWidth, h]

theorem integerWidth_append_of_stops (cs : List Char) {rest : List Char}
    (hr : Stops isWord rest) : integerWidth (cs ++ rest) = integerWidth cs := by
  have hdigit : ∀ c, isPlainDigit c = true → isWord c = true := fun c hc =>
    isWord_of_isHexDigit c (isHexDigit_of_isPlainDigit c hc)
  cases cs with
  | nil =>
      cases rest with
      | nil => rfl
      | cons c rest => exact integerWidth_eq_none (stops_cons.1 (hr.mono hdigit))
  | cons c cs =>
      simp only [List.cons_append, integerWidth, basedWidth_append cs hr,
        takeWhile_append_of_stops cs (hr.mono (isWord_of_spaced hdigit))]

theorem integerWidth_append {cs rest : List Char} (h : integerWidth cs = some cs.length)
    (hr : Stops isWord rest) : integerWidth (cs ++ rest) = some cs.length :=
  (integerWidth_append_of_stops cs hr).trans h

theorem all_isWord_of_spaced {digit : Char → Bool} {cs : List Char}
    (hd : ∀ c, digit c = true → isHexDigit c = true) (h : cs.all (spaced digit) = true) :
    cs.all isWord = true :=
  all_imp (isWord_of_spaced fun c hc => isWord_of_isHexDigit c (hd c hc)) h

theorem all_isWord_of_basedWidth {cs : List Char} {n : Nat} (h : basedWidth cs = some n) :
    (cs.take n).all isWord = true := by
  have hrun : ∀ {c : Char} {cs : List Char} {digit : Char → Bool} {n : Nat}, isWord c = true →
      (∀ c, digit c = true → isHexDigit c = true) →
      passed 1 (runWidth (spaced digit) cs) = some n → ((c :: cs).take n).all isWord = true := by
    intro c cs digit n hc hd h
    obtain ⟨k, hk, rfl⟩ := passed_eq_some.1 h
    rw [Nat.add_comm, List.take_succ_cons, List.all_cons, hc, Bool.true_and]
    exact all_isWord_of_spaced hd (all_of_runWidth hk)
  cases cs with
  | nil => cases h
  | cons c cs =>
      have hletter : ∀ {x y : Char}, isWord x = true → isWord y = true →
          (c == x || c == y) = true → isWord c = true := by
        intro x y hx hy hc
        rcases Bool.or_eq_true_iff.1 hc with hc | hc
        · rwa [beq_iff_eq.1 hc]
        · rwa [beq_iff_eq.1 hc]
      simp only [basedWidth] at h
      split at h
      · next hc => exact hrun (hletter (by decide) (by decide) hc) (fun _ h => h) h
      split at h
      · next hc => exact hrun (hletter (by decide) (by decide) hc) isHexDigit_of_isBinaryDigit h
      split at h
      · next hc => exact hrun (hletter (by decide) (by decide) hc) isHexDigit_of_isOctalDigit h
      · cases h

/-- All characters of an integer are word characters. -/
theorem all_isWord_of_integerWidth {cs : List Char} {n : Nat} (h : integerWidth cs = some n) :
    (cs.take n).all isWord = true := by
  cases cs with
  | nil => cases h
  | cons c cs =>
      simp only [integerWidth] at h
      split at h
      · next hc =>
          have hword : isWord c = true :=
            isWord_of_isHexDigit c (isHexDigit_of_isPlainDigit c hc)
          rcases Option.or_eq_some_iff.1 h with h | ⟨_, h⟩
          · split at h
            · obtain ⟨k, hk, rfl⟩ := passed_eq_some.1 h
              rw [Nat.add_comm, List.take_succ_cons, List.all_cons, hword, Bool.true_and]
              exact all_isWord_of_basedWidth hk
            · cases h
          · cases h
            rw [Nat.add_comm, List.take_succ_cons, List.all_cons, hword, Bool.true_and,
              take_length_takeWhile]
            exact all_isWord_of_spaced isHexDigit_of_isPlainDigit List.all_takeWhile
      · cases h

theorem exactWidth_append {p : Char → Bool} {k n : Nat} {cs : List Char}
    (h : exactWidth p k cs = some n) (rest : List Char) :
    exactWidth p k (cs ++ rest) = some n := by
  obtain ⟨_, hle⟩ := exactWidth_le h
  rw [← h]
  simp only [exactWidth, List.take_append_of_le_length hle]

theorem passed_mono {k n : Nat} {width width' : Option Nat}
    (h : ∀ m, width = some m → width' = some m) (hp : passed k width = some n) :
    passed k width' = some n := by
  obtain ⟨m, hm, rfl⟩ := passed_eq_some.1 hp
  exact passed_eq_some.2 ⟨m, h m hm, rfl⟩

theorem runeBodyWidth_plain {c : Char} (hc : c ≠ '\\') (cs : List Char) :
    runeBodyWidth (c :: cs) = if c = '\'' ∨ c = '\n' then none else some 1 := by
  unfold runeBodyWidth
  split
  · next heq => exact absurd (List.cons.inj heq).1 hc
  · next heq =>
      obtain ⟨rfl, rfl⟩ := List.cons.inj heq
      simp [hc]
  · next heq => cases heq

theorem runeBodyWidth_append {cs : List Char} {n : Nat} (h : runeBodyWidth cs = some n)
    (rest : List Char) : runeBodyWidth (cs ++ rest) = some n := by
  cases cs with
  | nil => cases h
  | cons c cs =>
      by_cases hc : c = '\\'
      · subst hc
        cases cs with
        | nil => simp [runeBodyWidth] at h
        | cons c cs =>
            simp only [List.cons_append, runeBodyWidth] at h ⊢
            split_ifs at h ⊢
            · exact passed_mono (fun m hm => exactWidth_append hm rest) h
            · exact passed_mono (fun m hm => exactWidth_append hm rest) h
            · exact passed_mono (fun m hm => exactWidth_append hm rest) h
            · exact passed_mono (fun m hm => exactWidth_append hm rest) h
            · exact h
      · rw [runeBodyWidth_plain hc] at h
        rw [List.cons_append, runeBodyWidth_plain hc]
        exact h

theorem runeWidth_append {cs : List Char} {n : Nat} (h : runeWidth cs = some n)
    (rest : List Char) : runeWidth (cs ++ rest) = some n := by
  have hlen := runeWidth_bounds h
  unfold runeWidth at h
  split at h
  · next cs =>
      obtain ⟨k, hk, hq⟩ := Option.bind_eq_some_iff.1 h
      split at hq
      · next hquote =>
          cases hq
          have hk' : k ≤ cs.length := by
            simp only [List.length_cons] at hlen
            omega
          have hlt : cs.drop k ≠ [] := by
            intro heq
            simp [heq] at hquote
          have hquote' : ((cs ++ rest).drop k).head? = some '\'' := by
            rw [List.drop_append_of_le_length hk', List.head?_append_of_ne_nil _ hlt]
            simpa using hquote
          simp only [List.cons_append, runeWidth, runeBodyWidth_append hk rest, Option.bind_some,
            hquote', beq_self_eq_true, if_true]
      · cases hq
  · cases h

theorem runeWidth_eq_none {c : Char} {cs : List Char} (h : c ≠ '\'') :
    runeWidth (c :: cs) = none := by
  unfold runeWidth
  split
  · next heq => exact absurd (List.cons.inj heq).1 h
  · rfl

/-! ## White space and comments -/

/-- A part of what may stand where a line may end: a white character, a comment up to the end of
its line, or a comment in a block. -/
inductive Filler where
  | space (c : Char) (white : isSpace c = true)
  | line (body : List Char) (oneLine : '\n' ∉ body)
  | block (body : List Char) (unclosed : ¬ ['*', '/'] <:+: body)

namespace Filler

def chars : Filler → List Char
  | .space c _ => [c]
  | .line body _ => '/' :: '/' :: body ++ ['\n']
  | .block body _ => '/' :: '*' :: body ++ ['*', '/']

def text (parts : List Filler) : List Char := parts.flatMap chars

def newline : Filler := .space '\n' (by decide)

@[simp] theorem chars_newline : newline.chars = ['\n'] := rfl

theorem chars_space (c : Char) (white : isSpace c = true) : (space c white).chars = [c] := rfl

@[simp] theorem text_nil : text [] = [] := rfl

@[simp] theorem text_cons (part : Filler) (parts : List Filler) :
    text (part :: parts) = part.chars ++ text parts := rfl

end Filler

theorem triviaFrom_append (cs ds : List Char) :
    triviaFrom cs.length (cs ++ ds) = cs.length + triviaFrom 0 ds := by
  induction cs with
  | nil => simp
  | cons c cs ih =>
      simp only [List.cons_append, List.length_cons, triviaFrom, ih]
      omega

/-- A comment is passed over as a whole. -/
theorem triviaWidth_slash {cs ds : List Char}
    (h : commentWidth ('/' :: cs ++ ds) = some (cs.length + 1)) :
    triviaWidth ('/' :: cs ++ ds) = cs.length + 1 + triviaWidth ds := by
  have hslash : isSpace '/' = false := by decide
  simp only [List.cons_append] at h
  simp only [triviaWidth, List.cons_append, triviaFrom, hslash, h, Nat.add_sub_cancel,
    triviaFrom_append, Bool.false_eq_true, if_false]
  omega

theorem lineCommentWidth_append {body rest : List Char} (h : '\n' ∉ body)
    (hr : Stops (· != '\n') rest) :
    lineCommentWidth ('/' :: '/' :: body ++ rest) = some (2 + body.length) := by
  have hall : body.all (· != '\n') = true := by
    simp only [List.all_eq_true, bne_iff_ne]
    rintro c hc rfl
    exact h hc
  simp [lineCommentWidth, takeWhile_append_stops hall hr]

/-- A block comment is closed by its first mark, and has a width if its characters are allowed. -/
theorem closeWidth_block {body : List Char} (p : Char → Bool) (h : ¬ ['*', '/'] <:+: body)
    (rest : List Char) : closeWidth p (body ++ '*' :: '/' :: rest) =
      if body.all p = true then some (body.length + 2) else none := by
  induction body with
  | nil => simp [closeWidth]
  | cons c body ih =>
      have hbody : ¬ ['*', '/'] <:+: body := fun hin =>
        h (hin.trans (List.suffix_cons c body).isInfix)
      have ih := ih hbody
      rw [List.cons_append]
      unfold closeWidth
      split
      · next tail heq =>
          -- The mark would have to begin inside the body, which has none.
          obtain ⟨rfl, htail⟩ := List.cons.inj heq
          cases body with
          | nil => simp at htail
          | cons d body =>
              obtain ⟨rfl, _⟩ := List.cons.inj htail
              exact absurd ⟨[], body, rfl⟩ h
      · next heq =>
          obtain ⟨rfl, rfl⟩ := List.cons.inj heq
          rw [ih]
          by_cases hc : p c = true
          · by_cases hall : body.all p = true
            · simp only [hc, if_true, hall, List.all_cons, Bool.and_self, passed, Option.map_some,
                List.length_cons]
              congr 1
              omega
            · simp [hc, hall, passed]
          · simp [hc]
      · next heq => cases heq

theorem closeWidth_append {p : Char → Bool} {body : List Char} (h : ¬ ['*', '/'] <:+: body)
    (hp : body.all p = true) (rest : List Char) :
    closeWidth p (body ++ '*' :: '/' :: rest) = some (body.length + 2) := by
  rw [closeWidth_block p h, if_pos hp]

theorem blockCommentWidth_append {p : Char → Bool} {body : List Char}
    (h : ¬ ['*', '/'] <:+: body) (hp : body.all p = true) (rest : List Char) :
    blockCommentWidth p ('/' :: '*' :: body ++ '*' :: '/' :: rest) = some (body.length + 4) := by
  simp only [List.cons_append, blockCommentWidth, closeWidth_append h hp rest, passed,
    Option.map_some]
  congr 1
  omega

/-- The rest begins neither with white space nor with a comment. -/
def Solid (rest : List Char) : Prop := triviaWidth rest = 0

theorem commentWidth_eq_none {c : Char} {cs : List Char} (hc : c ≠ '/') :
    commentWidth (c :: cs) = none := by
  have hline : lineCommentWidth (c :: cs) = none := by
    unfold lineCommentWidth
    split
    · next heq => exact absurd (List.cons.inj heq).1 hc
    · rfl
  have hblock : blockCommentWidth (fun _ => true) (c :: cs) = none := by
    unfold blockCommentWidth
    split
    · next heq => exact absurd (List.cons.inj heq).1 hc
    · rfl
  rw [commentWidth, hline, hblock, Option.none_or]

theorem solid_cons {c : Char} {cs : List Char} (hs : isSpace c = false) (hc : c ≠ '/') :
    Solid (c :: cs) := by
  simp [Solid, triviaWidth, triviaFrom, hs, commentWidth_eq_none hc]

theorem solid_of_isWord {c : Char} {cs : List Char} (h : isWord c = true) : Solid (c :: cs) :=
  solid_cons (isSpace_eq_false_of_isWord h) (ne_of_isWord h (by decide))

theorem triviaWidth_space {c : Char} (h : isSpace c = true) (cs : List Char) :
    triviaWidth (c :: cs) = 1 + triviaWidth cs := by
  simp [triviaWidth, triviaFrom, h]

theorem triviaWidth_indent {gap rest : List Char} (h : gap.all isIndent = true) (hr : Solid rest) :
    triviaWidth (gap ++ rest) = gap.length := by
  induction gap with
  | nil => exact hr
  | cons c gap ih =>
      simp only [List.all_cons, Bool.and_eq_true] at h
      rw [List.cons_append, triviaWidth_space (isSpace_of_isIndent h.1), ih h.2, List.length_cons,
        Nat.add_comm]

/-- Each part of white space and comments is passed over as a whole. -/
theorem triviaWidth_chars (part : Filler) (ds : List Char) :
    triviaWidth (part.chars ++ ds) = part.chars.length + triviaWidth ds := by
  cases part with
  | space c white => exact triviaWidth_space white ds
  | line body oneLine =>
      have hnewline : isSpace '\n' = true := by decide
      have hcomment : commentWidth ('/' :: ('/' :: body) ++ ('\n' :: ds)) =
          some (('/' :: body).length + 1) := by
        rw [commentWidth, lineCommentWidth_append oneLine (by simp), Option.some_or,
          List.length_cons]
        congr 1
        omega
      have hwidth := triviaWidth_slash hcomment
      rw [triviaWidth_space hnewline] at hwidth
      simp only [Filler.chars, List.cons_append, List.append_assoc, List.nil_append,
        List.length_cons, List.length_append, List.length_nil] at hwidth ⊢
      omega
  | block body unclosed =>
      have hcomment : commentWidth ('/' :: ('*' :: body ++ ['*', '/']) ++ ds) =
          some (('*' :: body ++ ['*', '/']).length + 1) := by
        have hblock := blockCommentWidth_append (p := fun _ => true) unclosed (by simp) ds
        simp only [List.cons_append] at hblock
        simp [commentWidth, lineCommentWidth, hblock]
      have hwidth := triviaWidth_slash hcomment
      simp only [Filler.chars, List.cons_append, List.append_assoc, List.length_cons,
        List.length_append, List.length_nil] at hwidth ⊢
      omega

theorem triviaWidth_text (parts : List Filler) (ds : List Char) :
    triviaWidth (Filler.text parts ++ ds) = (Filler.text parts).length + triviaWidth ds := by
  induction parts with
  | nil => simp
  | cons part parts ih =>
      rw [Filler.text_cons, List.append_assoc, triviaWidth_chars, ih, List.length_append]
      omega

/-- White space and comments are passed over up to what is neither. -/
theorem triviaWidth_append (parts : List Filler) {rest : List Char} (hr : Solid rest) :
    triviaWidth (Filler.text parts ++ rest) = (Filler.text parts).length := by
  rw [triviaWidth_text, hr, Nat.add_zero]

end EnumNames.Grammar
