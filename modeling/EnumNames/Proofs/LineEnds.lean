import EnumNames.Proofs.Boundary

/-!
Texts with carriage returns at their line ends, and tokens in them. A text and
the same text with a carriage return before each newline are read side by side.
The two readings stand at the same place, except behind a comment that goes up to
the end of its line: there the second one has passed the carriage return already.
-/

namespace EnumNames.Text

def crlf (cs : List Char) : List Char := cs.flatMap fun c => if c = '\n' then ['\r', '\n'] else [c]

@[simp] theorem crlf_nil : crlf [] = [] := rfl

@[simp] theorem crlf_newline (cs : List Char) : crlf ('\n' :: cs) = '\r' :: '\n' :: crlf cs := rfl

theorem crlf_cons {c : Char} (h : c ≠ '\n') (cs : List Char) : crlf (c :: cs) = c :: crlf cs := by
  simp [crlf, h]

@[simp] theorem crlf_append (cs ds : List Char) : crlf (cs ++ ds) = crlf cs ++ crlf ds :=
  List.flatMap_append

theorem crlf_eq_self {cs : List Char} (h : '\n' ∉ cs) : crlf cs = cs := by
  induction cs with
  | nil => rfl
  | cons c cs ih =>
      rw [List.mem_cons, not_or] at h
      rw [crlf_cons (Ne.symm h.1), ih h.2]

/-- The carriage return that has been passed within a line end. -/
def pend (half : Bool) : List Char := if half then ['\r'] else []

@[simp] theorem pend_false : pend false = [] := rfl

@[simp] theorem pend_true : pend true = ['\r'] := rfl

/-- While one reading takes `cs` the other takes `cs'`. The flags say whether it is within a line
end before and after that. -/
def Crosses (half half' : Bool) (cs cs' : List Char) : Prop :=
  pend half ++ cs' = crlf cs ++ pend half'

namespace Crosses

variable {h h₁ h₂ : Bool} {cs cs' ds ds' : List Char}

theorem nil (h : Bool) : Crosses h h [] [] := by simp [Crosses]

theorem line (h : '\n' ∉ cs) : Crosses false false cs cs := by
  simp [Crosses, crlf_eq_self h]

theorem all (cs : List Char) : Crosses false false cs (crlf cs) := by simp [Crosses]

theorem eq_crlf (h : Crosses false false cs cs') : cs' = crlf cs := by simpa [Crosses] using h

theorem append (hcs : Crosses h h₁ cs cs') (hds : Crosses h₁ h₂ ds ds') :
    Crosses h h₂ (cs ++ ds) (cs' ++ ds') := by
  rw [Crosses] at *
  rw [← List.append_assoc, hcs, List.append_assoc, hds, crlf_append, List.append_assoc]

/-- What is left crosses when a part and the whole do. -/
theorem rest (hcs : Crosses h h₁ cs cs') (hall : Crosses h h₂ (cs ++ ds) (cs' ++ ds')) :
    Crosses h₁ h₂ ds ds' := by
  rw [Crosses] at *
  rw [← List.append_assoc, hcs, crlf_append, List.append_assoc, List.append_assoc] at hall
  exact List.append_cancel_left hall

/-- Within a line end a newline comes next. -/
theorem newline_of_half (h : Crosses true false cs cs') (hcr : '\r' ∉ cs) :
    ∃ ds, cs = '\n' :: ds ∧ cs' = '\n' :: crlf ds := by
  rw [Crosses, pend_true, pend_false, List.append_nil, List.singleton_append] at h
  cases cs with
  | nil => cases h
  | cons c cs =>
      by_cases hc : c = '\n'
      · subst hc
        exact ⟨cs, rfl, (List.cons.inj h).2⟩
      · rw [crlf_cons hc] at h
        exact absurd (List.mem_cons.2 (.inl (List.cons.inj h).1)) hcr

end Crosses

def Breaks (rest : List Char) : Prop :=
  rest = [] ∨ (∃ more, rest = '\n' :: more) ∨ ∃ more, rest = '\r' :: '\n' :: more

/-- Both readings have the same line before them. -/
theorem Crosses.common_line {h : Bool} {cs cs' : List Char} (hcs : Crosses h false cs cs')
    (hcr : '\r' ∉ cs) :
    ∃ line rest rest', cs = line ++ rest ∧ cs' = line ++ rest' ∧ Breaks rest ∧ Breaks rest' ∧
      '\n' ∉ line ∧ (h = true → line = []) := by
  cases h with
  | true =>
      obtain ⟨ds, rfl, rfl⟩ := hcs.newline_of_half hcr
      exact ⟨[], _, _, rfl, rfl, .inr (.inl ⟨_, rfl⟩), .inr (.inl ⟨_, rfl⟩), by simp, fun _ => rfl⟩
  | false =>
      obtain rfl := hcs.eq_crlf
      clear hcs hcr
      induction cs with
      | nil => exact ⟨[], [], [], rfl, rfl, .inl rfl, .inl rfl, by simp, by simp⟩
      | cons c cs ih =>
          by_cases hc : c = '\n'
          · subst hc
            exact ⟨[], _, _, rfl, rfl, .inr (.inl ⟨_, rfl⟩), .inr (.inr ⟨_, rfl⟩), by simp, by simp⟩
          · obtain ⟨line, rest, rest', hrest, hrest', hb, hb', hline, _⟩ := ih
            refine ⟨c :: line, rest, rest', by rw [hrest]; rfl, ?_, hb, hb', ?_, by simp⟩
            · rw [crlf_cons hc, hrest']
              rfl
            · rw [List.mem_cons, not_or]
              exact ⟨Ne.symm hc, hline⟩

end EnumNames.Text

namespace EnumNames.Grammar

open EnumNames.Text

variable {h : Bool} {cs cs' rest : List Char} {n n' : Nat}

theorem stops_of_breaks {p : Char → Bool} (hn : p '\n' = false) (hr : p '\r' = false)
    (h : Breaks rest) : Stops p rest := by
  rcases h with rfl | ⟨more, rfl⟩ | ⟨more, rfl⟩
  · exact stops_nil p
  · exact stops_cons.2 hn
  · exact stops_cons.2 hr

/-! ## Tokens within a line -/

/-- Of a text only the first line counts. -/
def Lineal (width : List Char → Option Nat) : Prop :=
  ∀ line rest, '\r' ∉ line → Breaks rest → width (line ++ rest) = width line

theorem lineal_run {p : Char → Bool} (hn : p '\n' = false) (hr : p '\r' = false) :
    Lineal (runWidth p) :=
  fun line _ _ hb => runWidth_append_of_stops line (stops_of_breaks hn hr hb)

theorem lineal_word {text : List Char} (hn : '\n' ∉ text) (hr : '\r' ∉ text) :
    Lineal (wordWidth text) :=
  fun line _ _ hb => wordWidth_append_of_stops line
    (stops_of_breaks (by simpa using hn) (by simpa using hr) hb)

theorem lineal_keyword {words : List (List Char)}
    (h : ∀ word ∈ words, '\n' ∉ word ∧ '\r' ∉ word) : Lineal (keywordWidth words) :=
  fun line _ _ hb => keywordWidth_append_of_stops line
    (fun word hmem => stops_of_breaks (by simpa using (h word hmem).1)
      (by simpa using (h word hmem).2) hb)
    (stops_of_breaks (by decide +kernel) (by decide +kernel) hb)

theorem lineal_identifier : Lineal identifierWidth :=
  fun line _ _ hb => identifierWidth_append_of_stops line
    (stops_of_breaks (by decide +kernel) (by decide +kernel) hb)

theorem lineal_integer : Lineal integerWidth :=
  fun line _ _ hb => integerWidth_append_of_stops line
    (stops_of_breaks (by decide +kernel) (by decide +kernel) hb)

theorem lineal_indent : Lineal fun cs => some (indentWidth cs) := by
  intro line rest _ hb
  dsimp only
  rw [indentWidth, takeWhile_append_of_stops line (stops_of_breaks (by decide) (by decide) hb)]
  rfl

/-- What looks at the first character only, and not for a line end. -/
theorem lineal_head {f : Option Char → Option Nat} (hn : f (some '\n') = f none)
    (hr : f (some '\r') = f none) : Lineal fun cs => f cs.head? := by
  intro line rest _ hb
  cases line with
  | cons c line => rfl
  | nil =>
      rcases hb with rfl | ⟨more, rfl⟩ | ⟨more, rfl⟩
      · rfl
      · exact hn
      · exact hr

theorem stringTailWidth_of_breaks (h : Breaks rest) : stringTailWidth rest = none := by
  rcases h with rfl | ⟨more, rfl⟩ | ⟨more, rfl⟩ <;> simp [stringTailWidth, passed]

theorem stringTailWidth_append_of_breaks (line : List Char) (hb : Breaks rest) :
    stringTailWidth (line ++ rest) = stringTailWidth line := by
  fun_induction stringTailWidth line with
  | case1 => exact stringTailWidth_of_breaks hb
  | case2 line => rfl
  | case3 c line hc => simp_all [stringTailWidth]
  | case4 c line hc ih => simp_all [stringTailWidth]
  | case5 c line hquote hescape hc =>
      rcases Bool.or_eq_true_iff.1 hc with hc | hc
      · obtain rfl : c = '\\' := by simpa using hc
        cases line with
        | cons d line => exact absurd rfl (hescape d line rfl)
        | nil => rcases hb with rfl | ⟨more, rfl⟩ | ⟨more, rfl⟩ <;> simp [stringTailWidth, passed]
      · obtain rfl : c = '\n' := by simpa using hc
        simp [stringTailWidth]
  | case6 c line hquote hescape hc ih =>
      rw [List.cons_append, ← ih]
      simp_all [stringTailWidth]

theorem lineal_string : Lineal stringWidth := by
  intro line rest _ hb
  cases line with
  | nil => rcases hb with rfl | ⟨more, rfl⟩ | ⟨more, rfl⟩ <;> simp [stringWidth]
  | cons c line =>
      by_cases hc : c = '"'
      · subst hc
        simp [stringWidth, stringTailWidth_append_of_breaks line hb]
      · simp [stringWidth, hc]

theorem lineal_slash : Lineal slashWidth := by
  intro line rest _ hb
  cases line with
  | nil => rcases hb with rfl | ⟨more, rfl⟩ | ⟨more, rfl⟩ <;> simp [slashWidth]
  | cons c line =>
      by_cases hc : c = '/'
      · subst hc
        cases line with
        | cons d line => rfl
        | nil => rcases hb with rfl | ⟨more, rfl⟩ | ⟨more, rfl⟩ <;> simp [slashWidth]
      · simp [slashWidth, hc]

/-- After a star the mark is closed only by a slash. -/
theorem closeWidth_cons {p : Char → Bool} {c : Char} {cs : List Char}
    (h : ¬ (c = '*' ∧ cs.head? = some '/')) :
    closeWidth p (c :: cs) = if p c then passed 1 (closeWidth p cs) else none := by
  rw [closeWidth]
  rintro ds rfl rfl
  exact h ⟨rfl, rfl⟩

/-- A rest that neither closes a block comment nor completes its closing mark. -/
theorem closeWidth_append_of_none {p : Char → Bool} (hnone : closeWidth p rest = none)
    (hslash : rest.head? ≠ some '/') (line : List Char) :
    closeWidth p (line ++ rest) = closeWidth p line := by
  induction line with
  | nil => exact hnone
  | cons c line ih =>
      by_cases hc : c = '*' ∧ line.head? = some '/'
      · obtain ⟨rfl, hclose⟩ := hc
        obtain ⟨line, rfl⟩ := List.head?_eq_some_iff.1 hclose
        rfl
      · have hc' : ¬ (c = '*' ∧ (line ++ rest).head? = some '/') := by
          rintro ⟨rfl, hclose⟩
          cases line with
          | cons d line => exact hc ⟨rfl, hclose⟩
          | nil => exact hslash hclose
        rw [List.cons_append, closeWidth_cons hc, closeWidth_cons hc', ih]

def Opens (c : Char) (cs : List Char) : Prop := ∃ ds, cs = '/' :: c :: ds

theorem lineCommentWidth_of_not_opens (h : ¬ Opens '/' cs) : lineCommentWidth cs = none := by
  rw [lineCommentWidth]
  exact fun ds hds => h ⟨ds, hds⟩

theorem blockCommentWidth_of_not_opens (p : Char → Bool) (h : ¬ Opens '*' cs) :
    blockCommentWidth p cs = none := by
  rw [blockCommentWidth]
  exact fun ds hds => h ⟨ds, hds⟩

theorem not_opens_newline (c : Char) (cs : List Char) : ¬ Opens c ('\n' :: cs) := by
  rintro ⟨ds, hds⟩
  cases hds

theorem not_opens_append {c : Char} {line : List Char} (h : ¬ Opens c line)
    (hr : Stops (fun d => d == '/' || d == c) rest) : ¬ Opens c (line ++ rest) := by
  rintro ⟨ds, hds⟩
  match line with
  | [] =>
      obtain rfl : rest = '/' :: c :: ds := hds
      simpa using stops_cons.1 hr
  | [d] =>
      obtain rfl : rest = c :: ds := (List.cons.inj hds).2
      simpa using stops_cons.1 hr
  | d :: e :: line =>
      obtain ⟨rfl, htail⟩ := List.cons.inj hds
      obtain ⟨rfl, _⟩ := List.cons.inj htail
      exact h ⟨line, rfl⟩

theorem inlineCommentWidth_append (hnone : closeWidth (· != '\n') rest = none)
    (hr : Stops (fun d => d == '/' || d == '*') rest) (line : List Char) :
    inlineCommentWidth (line ++ rest) = inlineCommentWidth line := by
  rw [inlineCommentWidth, inlineCommentWidth]
  by_cases hopens : Opens '*' line
  · obtain ⟨ds, rfl⟩ := hopens
    have hslash : rest.head? ≠ some '/' := by
      intro hhead
      obtain ⟨more, rfl⟩ := List.head?_eq_some_iff.1 hhead
      simpa using stops_cons.1 hr
    simp only [List.cons_append, blockCommentWidth]
    rw [closeWidth_append_of_none hnone hslash ds]
  · rw [blockCommentWidth_of_not_opens _ hopens,
      blockCommentWidth_of_not_opens _ (not_opens_append hopens hr)]

theorem lineal_inlineComment : Lineal inlineCommentWidth := by
  intro line rest _ hb
  refine inlineCommentWidth_append ?_ (stops_of_breaks (by decide) (by decide) hb) line
  rcases hb with rfl | ⟨more, rfl⟩ | ⟨more, rfl⟩ <;> simp [closeWidth, passed]

theorem exactWidth_append_of_stops {p : Char → Bool} (k : Nat) (cs : List Char)
    (hr : Stops p rest) : exactWidth p k (cs ++ rest) = exactWidth p k cs := by
  by_cases hk : k ≤ cs.length
  · simp only [exactWidth, List.take_append_of_le_length hk]
  · cases rest with
    | nil => rw [List.append_nil]
    | cons c rest =>
        -- The characters of the text are too few, and the first of the rest is none of them.
        have hfirst : exactWidth p k cs = none := by
          have hshort : ((cs.take k).length == k) = false := by
            rw [List.length_take, beq_eq_false_iff_ne]
            omega
          simp only [exactWidth, hshort, Bool.false_and, Bool.false_eq_true, if_false]
        have hc : ((cs ++ c :: rest).take k).all p = false := by
          rw [List.all_eq_false]
          refine ⟨c, ?_, by simp [stops_cons.1 hr]⟩
          obtain ⟨m, hm⟩ : ∃ m, k - cs.length = m + 1 := ⟨k - cs.length - 1, by omega⟩
          simp [List.take_append, hm]
        rw [hfirst]
        simp only [exactWidth, hc, Bool.and_false, Bool.false_eq_true, if_false]

theorem runeBodyWidth_le (h : runeBodyWidth cs = some n) : n ≤ cs.length := by
  have hpassed : ∀ {p : Char → Bool} {k m : Nat} {ds : List Char},
      passed m (exactWidth p k ds) = some n → n ≤ m + ds.length := by
    intro p k m ds hn
    obtain ⟨j, hj, rfl⟩ := passed_eq_some.1 hn
    have := exactWidth_le hj
    omega
  unfold runeBodyWidth at h
  split at h
  · split_ifs at h
    · have := hpassed h
      simp only [List.length_cons]
      omega
    · have := hpassed h
      simp only [List.length_cons]
      omega
    · have := hpassed h
      simp only [List.length_cons]
      omega
    · have := hpassed h
      simp only [List.length_cons] at this ⊢
      omega
    · cases h
      simp
  · split_ifs at h
    cases h
    simp
  · cases h

theorem runeBodyWidth_append_of_breaks (hb : Breaks rest) (hne : cs ≠ []) (hescape : cs ≠ ['\\']) :
    runeBodyWidth (cs ++ rest) = runeBodyWidth cs := by
  have hhex : Stops isHexDigit rest := stops_of_breaks (by decide) (by decide) hb
  have hoct : Stops isOctalDigit rest := stops_of_breaks (by decide) (by decide) hb
  match cs with
  | [] => exact absurd rfl hne
  | c :: ds =>
      by_cases hc : c = '\\'
      · subst hc
        match ds with
        | [] => exact absurd rfl hescape
        | d :: ds =>
            have hoctal := exactWidth_append_of_stops 3 (d :: ds) hoct
            rw [List.cons_append] at hoctal
            simp only [List.cons_append, runeBodyWidth, exactWidth_append_of_stops _ ds hhex,
              hoctal]
      · rw [List.cons_append, runeBodyWidth_plain hc, runeBodyWidth_plain hc]

theorem runeWidth_quote (cs : List Char) :
    runeWidth ('\'' :: cs) = (runeBodyWidth cs).bind fun n =>
      if (cs.drop n).head? == some '\'' then some (n + 2) else none := rfl

theorem lineal_rune : Lineal runeWidth := by
  intro line rest _ hb
  match line with
  | [] => rcases hb with rfl | ⟨more, rfl⟩ | ⟨more, rfl⟩ <;> simp [runeWidth]
  | c :: cs =>
      by_cases hc : c = '\''
      · subst hc
        rw [List.cons_append, runeWidth_quote, runeWidth_quote]
        by_cases hne : cs = []
        · subst hne
          rcases hb with rfl | ⟨more, rfl⟩ | ⟨more, rfl⟩ <;> simp [runeBodyWidth]
        · by_cases hescape : cs = ['\\']
          · subst hescape
            rcases hb with rfl | ⟨more, rfl⟩ | ⟨more, rfl⟩ <;>
              simp [runeBodyWidth, isOctalDigit, isSimpleEscape]
          · rw [runeBodyWidth_append_of_breaks hb hne hescape]
            cases hn : runeBodyWidth cs with
            | none => rfl
            | some n =>
                have hle := runeBodyWidth_le hn
                simp only [Option.bind_some]
                rw [List.drop_append_of_le_length hle]
                cases cs.drop n with
                | cons d ds => rfl
                | nil => rcases hb with rfl | ⟨more, rfl⟩ | ⟨more, rfl⟩ <;> rfl
      · rw [List.cons_append, runeWidth_eq_none hc, runeWidth_eq_none hc]

theorem lineal_expressionEnd : Lineal fun cs => if expressionEnds cs then some 0 else none := by
  intro line rest hline hb
  dsimp only
  rw [expressionEnds_append line (stops_of_breaks (by decide) (by decide) hb), expressionEnds_eq]
  have hsub := (List.dropWhile_suffix isIndent (l := line)).subset
  match hdrop : line.dropWhile isIndent with
  | [] => rcases hb with rfl | ⟨more, rfl⟩ | ⟨more, rfl⟩ <;> simp [endsExpression]
  | [c] =>
      have hc : c ≠ '\r' := by
        rintro rfl
        exact hline (hsub (by simp [hdrop]))
      rcases hb with rfl | ⟨more, rfl⟩ | ⟨more, rfl⟩ <;> simp [endsExpression, hc]
  | c :: d :: ds => simp [endsExpression]

/-! ## What both readings take -/

/-- One reading takes `n` characters and the other `n'`, both or neither of them none. Afterwards
the second one is within a line end only if `half'` allows it. -/
def Taken (h half' : Bool) (cs cs' : List Char) (n n' : Nat) : Prop :=
  (n = 0 ↔ n' = 0) ∧
    ∃ h', (h' = true → half' = true) ∧ Crosses h h' (cs.take n) (cs'.take n')

theorem taken_of_crosses {h h' half' : Bool} {x x' : List Char} (y y' : List Char)
    (hx : Crosses h h' x x') (hempty : x = [] ↔ x' = []) (hh : h' = true → half' = true) :
    Taken h half' (x ++ y) (x' ++ y') x.length x'.length := by
  refine ⟨by simpa using hempty, h', hh, ?_⟩
  rwa [List.take_left, List.take_left]

/-- A token within a line has the same width in both texts, and does not leave a line end. -/
theorem taken_of_lineal {width : List Char → Option Nat} {half' : Bool} (hw : Lineal width)
    (hle : ∀ cs n, width cs = some n → n ≤ cs.length) (hcs : Crosses h false cs cs')
    (hcr : '\r' ∉ cs) (hh : ∀ n, h = true → width [] = some n → half' = true) :
    Option.Rel (Taken h half' cs cs') (width cs) (width cs') := by
  obtain ⟨line, rest, rest', rfl, rfl, hb, hb', hline, hempty⟩ := hcs.common_line hcr
  have hcr' : '\r' ∉ line := fun hmem => hcr (List.mem_append_left _ hmem)
  rw [hw line rest hcr' hb, hw line rest' hcr' hb']
  cases hn : width line with
  | none => exact .none
  | some n =>
      have hn' := hle line n hn
      refine .some ⟨Iff.rfl, h, fun ht => ?_, ?_⟩
      · rw [hempty ht] at hn
        exact hh n ht hn
      · rw [List.take_append_of_le_length hn', List.take_append_of_le_length hn']
        cases h with
        | false => exact .line fun hmem => hline (List.mem_of_mem_take hmem)
        | true =>
            rw [hempty rfl, List.take_nil]
            exact .nil true

/-! ## Tokens over several lines -/

theorem takeWhile_crlf {p : Char → Bool} (hn : p '\n' = true) (hr : p '\r' = true)
    (cs : List Char) : (crlf cs).takeWhile p = crlf (cs.takeWhile p) := by
  induction cs with
  | nil => rfl
  | cons c cs ih =>
      by_cases hc : c = '\n'
      · subst hc
        simp [hn, hr, ih]
      · rw [crlf_cons hc, List.takeWhile_cons, List.takeWhile_cons]
        split
        · rw [ih, crlf_cons hc]
        · rfl

/-- Apart from the carriage returns, a character comes from the text. -/
theorem cons_of_crlf {c : Char} {ds : List Char} (hc : c ≠ '\r') (h : crlf cs = c :: ds) :
    ∃ es, cs = c :: es ∧ ds = crlf es := by
  cases cs with
  | nil => cases h
  | cons d es =>
      by_cases hd : d = '\n'
      · subst hd
        exact absurd (List.cons.inj h).1.symm hc
      · rw [crlf_cons hd] at h
        obtain ⟨rfl, rfl⟩ := List.cons.inj h
        exact ⟨es, rfl, rfl⟩

theorem crlf_eq_nil {cs : List Char} : crlf cs = [] ↔ cs = [] := by
  constructor
  · intro h
    cases cs with
    | nil => rfl
    | cons c cs =>
        by_cases hc : c = '\n'
        · subst hc
          cases h
        · rw [crlf_cons hc] at h
          cases h
  · rintro rfl
    rfl

/-- A run of characters that line ends belong to. -/
theorem taken_run {p : Char → Bool} (hn : p '\n' = true) (hr : p '\r' = true)
    (hcs : Crosses h false cs cs') (hcr : '\r' ∉ cs) :
    Option.Rel (Taken h false cs cs') (runWidth p cs) (runWidth p cs') := by
  have htaken : ∀ x x', cs.takeWhile p = x → cs'.takeWhile p = x' → Crosses h false x x' →
      (x = [] ↔ x' = []) →
      Option.Rel (Taken h false cs cs') (runWidth p cs) (runWidth p cs') := by
    rintro _ _ rfl rfl hx hempty
    have hwidth : ∀ ds : List Char, runWidth p ds =
        if ds.takeWhile p = [] then none else some (ds.takeWhile p).length := by
      intro ds
      rw [runWidth]
      cases ds.takeWhile p <;> rfl
    rw [hwidth, hwidth]
    by_cases hnil : cs.takeWhile p = []
    · rw [if_pos hnil, if_pos (hempty.1 hnil)]
      exact .none
    · rw [if_neg hnil, if_neg fun h => hnil (hempty.2 h)]
      refine .some ?_
      have := taken_of_crosses (cs.dropWhile p) (cs'.dropWhile p) hx hempty
        (fun h => h : false = true → false = true)
      rwa [List.takeWhile_append_dropWhile, List.takeWhile_append_dropWhile] at this
  cases h with
  | false =>
      obtain rfl := hcs.eq_crlf
      exact htaken _ _ rfl (takeWhile_crlf hn hr cs) (.all _) crlf_eq_nil.symm
  | true =>
      obtain ⟨ds, rfl, rfl⟩ := hcs.newline_of_half hcr
      refine htaken ('\n' :: ds.takeWhile p) ('\n' :: crlf (ds.takeWhile p)) (by simp [hn])
        (by simp [hn, takeWhile_crlf hn hr]) ?_ (by simp)
      simp [Crosses]

/-- Whole line ends are taken when a token that may hold some takes as much in both texts. -/
theorem taken_crlf {half' : Bool} (hn : n ≤ cs.length) (hn' : n' = (crlf (cs.take n)).length) :
    Taken false half' cs (crlf cs) n n' := by
  subst hn'
  have hcs : crlf cs = crlf (cs.take n) ++ crlf (cs.drop n) := by
    rw [← crlf_append, List.take_append_drop]
  refine ⟨?_, false, by simp, ?_⟩
  · rw [List.length_eq_zero_iff, crlf_eq_nil, List.take_eq_nil_iff]
    constructor
    · exact .inl
    · rintro (h | rfl)
      · exact h
      · simpa using hn
  · rw [hcs, List.take_left]
    exact .all _

theorem rawStringWidth_quote (cs : List Char) :
    rawStringWidth (rawQuote :: cs) = if (cs.dropWhile (· != rawQuote)).isEmpty then none
      else some ((cs.takeWhile (· != rawQuote)).length + 2) := by
  have hdrop : cs.drop (cs.takeWhile (· != rawQuote)).length = cs.dropWhile (· != rawQuote) := by
    have hleft : (cs.takeWhile (· != rawQuote) ++ cs.dropWhile (· != rawQuote)).drop
        (cs.takeWhile (· != rawQuote)).length = cs.dropWhile (· != rawQuote) := List.drop_left
    rwa [List.takeWhile_append_dropWhile] at hleft
  simp only [rawStringWidth, beq_self_eq_true, if_true, hdrop]

theorem dropWhile_crlf {p : Char → Bool} (hn : p '\n' = true) (hr : p '\r' = true)
    (cs : List Char) : (crlf cs).dropWhile p = crlf (cs.dropWhile p) := by
  have hall := crlf_append (cs.takeWhile p) (cs.dropWhile p)
  rw [List.takeWhile_append_dropWhile, ← takeWhile_crlf hn hr] at hall
  exact List.append_cancel_left ((List.takeWhile_append_dropWhile).trans hall)

theorem taken_rawString (hcs : Crosses h false cs cs') (hcr : '\r' ∉ cs) :
    Option.Rel (Taken h false cs cs') (rawStringWidth cs) (rawStringWidth cs') := by
  have hnone : ∀ c ds, c ≠ rawQuote → rawStringWidth (c :: ds) = none := by
    intro c ds hc
    simp [rawStringWidth, hc]
  cases h with
  | true =>
      obtain ⟨ds, rfl, rfl⟩ := hcs.newline_of_half hcr
      rw [hnone _ _ (by decide), hnone _ _ (by decide)]
      exact .none
  | false =>
      obtain rfl := hcs.eq_crlf
      cases cs with
      | nil => exact .none
      | cons c cs =>
          by_cases hc : c = rawQuote
          · subst hc
            rw [crlf_cons (by decide), rawStringWidth_quote, rawStringWidth_quote,
              takeWhile_crlf (by decide) (by decide), dropWhile_crlf (by decide) (by decide)]
            cases hdrop : cs.dropWhile (· != rawQuote) with
            | nil => exact .none
            | cons q ds =>
                obtain rfl : q = rawQuote := by
                  simpa [hdrop] using List.head?_dropWhile_not (· != rawQuote) cs
                have htake : (rawQuote :: cs).take ((cs.takeWhile (· != rawQuote)).length + 2) =
                    rawQuote :: cs.takeWhile (· != rawQuote) ++ [rawQuote] := by
                  have hsplit := (List.takeWhile_append_dropWhile (p := (· != rawQuote)) (l := cs))
                  rw [hdrop] at hsplit
                  generalize cs.takeWhile (· != rawQuote) = x at hsplit
                  rw [← hsplit]
                  simp [List.take_append, List.take_of_length_le]
                rw [if_neg (by simp), if_neg (by rw [crlf_cons (by decide)]; simp),
                  ← crlf_cons (by decide)]
                refine .some (taken_crlf ?_ ?_)
                · have hlen := congrArg List.length htake
                  simp only [List.length_take, List.length_cons, List.length_append] at hlen ⊢
                  omega
                · rw [htake, crlf_append, crlf_cons (by decide), crlf_cons (by decide)]
                  simp
          · by_cases hnewline : c = '\n'
            · subst hnewline
              rw [crlf_newline, hnone _ _ (by decide), hnone _ _ (by decide)]
              exact .none
            · rw [crlf_cons hnewline, hnone _ _ hc, hnone _ _ hc]
              exact .none

/-- Block comments are closed at the same place. -/
theorem closeWidth_crlf (cs : List Char) : closeWidth (fun _ => true) (crlf cs) =
    (closeWidth (fun _ => true) cs).map fun n => (crlf (cs.take n)).length := by
  induction cs with
  | nil => rfl
  | cons c cs ih =>
      by_cases hclose : c = '*' ∧ cs.head? = some '/'
      · obtain ⟨rfl, hslash⟩ := hclose
        obtain ⟨ds, rfl⟩ := List.head?_eq_some_iff.1 hslash
        rw [crlf_cons (by decide), crlf_cons (by decide)]
        simp [closeWidth, crlf_cons]
      · rw [closeWidth_cons hclose]
        by_cases hc : c = '\n'
        · subst hc
          rw [crlf_newline, closeWidth_cons (by simp), closeWidth_cons (by simp), ih]
          cases closeWidth (fun _ => true) cs with
          | none => rfl
          | some n =>
              simp only [if_true, passed, Option.map_some, Nat.add_comm 1 n, List.take_succ_cons,
                crlf_newline, List.length_cons]
              congr 1
              omega
        · have hclose' : ¬ (c = '*' ∧ (crlf cs).head? = some '/') := by
            rintro ⟨rfl, hslash⟩
            obtain ⟨ds, hds⟩ := List.head?_eq_some_iff.1 hslash
            obtain ⟨es, rfl, _⟩ := cons_of_crlf (by decide) hds
            exact hclose ⟨rfl, rfl⟩
          rw [crlf_cons hc, closeWidth_cons hclose', ih]
          cases closeWidth (fun _ => true) cs with
          | none => rfl
          | some n =>
              simp only [if_true, passed, Option.map_some, Nat.add_comm 1, List.take_succ_cons,
                crlf_cons hc, List.length_cons]

theorem opens_crlf {c : Char} (hn : c ≠ '\n') (hr : c ≠ '\r') : Opens c (crlf cs) ↔ Opens c cs := by
  constructor
  · rintro ⟨ds, hds⟩
    obtain ⟨es, rfl, hes⟩ := cons_of_crlf (by decide) hds
    obtain ⟨es', rfl, _⟩ := cons_of_crlf hr hes.symm
    exact ⟨es', rfl⟩
  · rintro ⟨ds, rfl⟩
    exact ⟨crlf ds, by rw [crlf_cons (by decide), crlf_cons hn]⟩

theorem takeWhile_line_crlf (cs : List Char) : ∃ h', (crlf cs).takeWhile (· != '\n') =
    cs.takeWhile (· != '\n') ++ pend h' := by
  induction cs with
  | nil => exact ⟨false, rfl⟩
  | cons c cs ih =>
      by_cases hc : c = '\n'
      · subst hc
        exact ⟨true, rfl⟩
      · obtain ⟨h', hh'⟩ := ih
        exact ⟨h', by simp [crlf_cons hc, hc, hh']⟩

/-- A comment up to the end of its line ends within the line end, if there is one. -/
theorem taken_lineComment (hcs : Crosses h false cs cs') (hcr : '\r' ∉ cs) :
    Option.Rel (Taken h true cs cs') (lineCommentWidth cs) (lineCommentWidth cs') := by
  cases h with
  | true =>
      obtain ⟨ds, rfl, rfl⟩ := hcs.newline_of_half hcr
      rw [lineCommentWidth_of_not_opens (not_opens_newline _ _),
        lineCommentWidth_of_not_opens (not_opens_newline _ _)]
      exact .none
  | false =>
      obtain rfl := hcs.eq_crlf
      by_cases hopens : Opens '/' cs
      · obtain ⟨ds, rfl⟩ := hopens
        rw [crlf_cons (by decide), crlf_cons (by decide)]
        obtain ⟨h', hh'⟩ := takeWhile_line_crlf ds
        have hline : '\n' ∉ '/' :: '/' :: ds.takeWhile (· != '\n') := by
          simp only [List.mem_cons, not_or]
          exact ⟨by decide, by decide, fun hmem => by
            simpa using List.all_eq_true.1 List.all_takeWhile _ hmem⟩
        have hcross : Crosses false h' ('/' :: '/' :: ds.takeWhile (· != '\n'))
            ('/' :: '/' :: (crlf ds).takeWhile (· != '\n')) := by
          rw [Crosses, crlf_eq_self hline, hh']
          rfl
        have htaken := taken_of_crosses (ds.dropWhile (· != '\n'))
          ((crlf ds).dropWhile (· != '\n')) hcross (by simp) fun _ : h' = true => rfl
        simp only [List.cons_append, List.takeWhile_append_dropWhile, List.length_cons] at htaken
        simp only [lineCommentWidth, Nat.add_comm 2]
        exact .some htaken
      · rw [lineCommentWidth_of_not_opens hopens, lineCommentWidth_of_not_opens
          (mt (opens_crlf (by decide) (by decide)).1 hopens)]
        exact .none

theorem taken_blockComment (hcs : Crosses h false cs cs') (hcr : '\r' ∉ cs) :
    Option.Rel (Taken h true cs cs') (blockCommentWidth (fun _ => true) cs)
      (blockCommentWidth (fun _ => true) cs') := by
  cases h with
  | true =>
      obtain ⟨ds, rfl, rfl⟩ := hcs.newline_of_half hcr
      rw [blockCommentWidth_of_not_opens _ (not_opens_newline _ _),
        blockCommentWidth_of_not_opens _ (not_opens_newline _ _)]
      exact .none
  | false =>
      obtain rfl := hcs.eq_crlf
      by_cases hopens : Opens '*' cs
      · obtain ⟨ds, rfl⟩ := hopens
        have hcrlf : crlf ('/' :: '*' :: ds) = '/' :: '*' :: crlf ds := by
          rw [crlf_cons (by decide), crlf_cons (by decide)]
        cases hn : closeWidth (fun _ => true) ds with
        | none =>
            simp only [hcrlf, blockCommentWidth, closeWidth_crlf, hn]
            exact .none
        | some n =>
            have hle := (closeWidth_bounds hn).2
            have hwidth : blockCommentWidth (fun _ => true) ('/' :: '*' :: ds) = some (2 + n) := by
              simp [blockCommentWidth, hn, passed]
            have hwidth' : blockCommentWidth (fun _ => true) (crlf ('/' :: '*' :: ds)) =
                some (2 + (crlf (ds.take n)).length) := by
              simp [hcrlf, blockCommentWidth, closeWidth_crlf, hn, passed]
            rw [hwidth, hwidth']
            refine .some (taken_crlf ?_ ?_)
            · simp only [List.length_cons]
              omega
            · rw [Nat.add_comm 2 n, List.take_succ_cons, List.take_succ_cons, crlf_cons (by decide),
                crlf_cons (by decide)]
              simp only [List.length_cons]
              omega
      · rw [blockCommentWidth_of_not_opens _ hopens, blockCommentWidth_of_not_opens _
          (mt (opens_crlf (by decide) (by decide)).1 hopens)]
        exact .none

/-- The first that is there of two tokens of which both readings have the same. -/
theorem rel_or {α β : Type} {R : α → β → Prop} {x y : Option α} {x' y' : Option β}
    (hx : Option.Rel R x x') (hy : Option.Rel R y y') : Option.Rel R (x.or y) (x'.or y') := by
  cases hx with
  | none => exact hy
  | some h => exact .some h

theorem taken_comment (hcs : Crosses h false cs cs') (hcr : '\r' ∉ cs) :
    Option.Rel (Taken h true cs cs') (commentWidth cs) (commentWidth cs') :=
  rel_or (taken_lineComment hcs hcr) (taken_blockComment hcs hcr)

theorem taken_shortComment (hcs : Crosses h false cs cs') (hcr : '\r' ∉ cs) :
    Option.Rel (Taken h true cs cs') (shortCommentWidth cs) (shortCommentWidth cs') :=
  rel_or (taken_lineComment hcs hcr) (taken_of_lineal lineal_inlineComment
    (fun _ _ hn => (blockCommentWidth_bounds hn).2) hcs hcr fun _ _ _ => rfl)

/-! ## White space -/

theorem triviaWidth_comment (hn : commentWidth cs = some n) :
    triviaWidth cs = n + triviaWidth (cs.drop n) := by
  obtain ⟨hpos, hle⟩ := commentWidth_bounds hn
  cases cs with
  | nil => cases hn
  | cons c ds =>
      have hc : c = '/' := by
        by_contra hne
        rw [commentWidth_eq_none hne] at hn
        cases hn
      subst hc
      obtain ⟨m, rfl⟩ : ∃ m, n = m + 1 := ⟨n - 1, by omega⟩
      have hlen : (ds.take m).length = m := by
        rw [List.length_take]
        simp only [List.length_cons] at hle
        omega
      have hall : '/' :: ds.take m ++ ds.drop m = '/' :: ds := by
        rw [List.cons_append, List.take_append_drop]
      have hwidth : triviaWidth ('/' :: ds.take m ++ ds.drop m) =
          (ds.take m).length + 1 + triviaWidth (ds.drop m) :=
        triviaWidth_slash (by rw [hall, hlen, hn])
      rwa [hall, hlen] at hwidth

/-- Both readings pass over the same white space and comments, and leave no line end half read. -/
theorem crosses_trivia (hcs : Crosses h false cs cs') (hcr : '\r' ∉ cs) :
    (triviaWidth cs = 0 ↔ triviaWidth cs' = 0) ∧
      Crosses h false (cs.take (triviaWidth cs)) (cs'.take (triviaWidth cs')) := by
  induction hlen : cs.length using Nat.strongRecOn generalizing h cs cs' with
  | ind k ih =>
      subst hlen
      -- A first part that both readings pass over, and then less than before.
      have hstep : ∀ h₁ x y x' y', cs = x ++ y → cs' = x' ++ y' → x ≠ [] → x' ≠ [] →
          Crosses h h₁ x x' → triviaWidth cs = x.length + triviaWidth y →
          triviaWidth cs' = x'.length + triviaWidth y' →
          (triviaWidth cs = 0 ↔ triviaWidth cs' = 0) ∧
            Crosses h false (cs.take (triviaWidth cs)) (cs'.take (triviaWidth cs')) := by
        rintro h₁ x y x' y' rfl rfl hx hx' hcross hwidth hwidth'
        have hpos := List.length_pos_iff.2 hx
        have hpos' := List.length_pos_iff.2 hx'
        have hy : '\r' ∉ y := fun hmem => hcr (List.mem_append_right _ hmem)
        have hless : y.length < (x ++ y).length := by
          rw [List.length_append]
          omega
        obtain ⟨_, hrest⟩ := ih y.length hless (hcross.rest hcs) hy rfl
        refine ⟨by omega, ?_⟩
        rw [hwidth, hwidth', List.take_length_add_append, List.take_length_add_append]
        exact hcross.append hrest
      cases h with
      | true =>
          obtain ⟨ds, rfl, rfl⟩ := hcs.newline_of_half hcr
          refine hstep false ['\n'] ds ['\n'] (crlf ds) rfl rfl (by simp) (by simp) rfl ?_ ?_
          · exact triviaWidth_space (by decide) ds
          · exact triviaWidth_space (by decide) _
      | false =>
          obtain rfl := hcs.eq_crlf
          cases cs with
          | nil => exact ⟨Iff.rfl, .nil false⟩
          | cons c ds =>
              cases hspace : isSpace c with
              | true =>
                  by_cases hc : c = '\n'
                  · subst hc
                    refine hstep false ['\n'] ds ['\r', '\n'] (crlf ds) rfl (crlf_newline ds)
                      (by simp) (by simp) rfl (triviaWidth_space hspace ds) ?_
                    rw [crlf_newline, triviaWidth_space (by decide), triviaWidth_space hspace]
                    simp only [List.length_cons, List.length_nil]
                    omega
                  · refine hstep false [c] ds [c] (crlf ds) rfl (crlf_cons hc ds) (by simp)
                      (by simp) (.line (by simpa using Ne.symm hc)) (triviaWidth_space hspace ds) ?_
                    rw [crlf_cons hc, triviaWidth_space hspace]
                    rfl
              | false =>
                  have hrel := taken_comment hcs hcr
                  generalize hn : commentWidth (c :: ds) = w,
                    hn' : commentWidth (crlf (c :: ds)) = w' at hrel
                  have hc : c ≠ '\n' := by
                    rintro rfl
                    cases hspace
                  cases hrel with
                  | none =>
                      have hzero : triviaWidth (c :: ds) = 0 := by
                        simp [triviaWidth, triviaFrom, hspace, hn]
                      have hzero' : triviaWidth (crlf (c :: ds)) = 0 := by
                        rw [crlf_cons hc] at hn' ⊢
                        simp [triviaWidth, triviaFrom, hspace, hn']
                      rw [hzero, hzero']
                      exact ⟨Iff.rfl, .nil false⟩
                  | @some n n' htaken =>
                      obtain ⟨_, h₁, _, hcross⟩ := htaken
                      have hb := commentWidth_bounds hn
                      have hb' := commentWidth_bounds hn'
                      refine hstep h₁ _ _ _ _ (List.take_append_drop n _).symm
                        (List.take_append_drop n' _).symm ?_ ?_ hcross ?_ ?_
                      · rw [← List.length_pos_iff, List.length_take]
                        omega
                      · rw [← List.length_pos_iff, List.length_take]
                        omega
                      · rw [List.length_take_of_le hb.2]
                        exact triviaWidth_comment hn
                      · rw [List.length_take_of_le hb'.2]
                        exact triviaWidth_comment hn'

/-! ## All tokens -/

/-- What is behind the head, nearest first, is the same but for line ends. -/
theorem continues_crlf {behind behind' : List Char}
    (h : Crosses false false behind.reverse behind'.reverse) :
    continues behind' = continues behind := by
  obtain rfl : behind' = (crlf behind.reverse).reverse := by
    rw [← h.eq_crlf, List.reverse_reverse]
  have hhead : ∀ cs : List Char, (crlf cs.reverse).reverse.head? = cs.head? := by
    intro cs
    cases cs with
    | nil => rfl
    | cons c cs =>
        by_cases hc : c = '\n'
        · subst hc
          simp
        · simp [crlf_cons hc]
  have hcontinues : ∀ c cs, continues (c :: cs) =
      (!(c == '/' && cs.head? == some '*') && isOpenEnded c) := by
    intro c cs
    unfold continues
    split
    · next heq =>
        obtain ⟨rfl, rfl⟩ := List.cons.inj heq
        rfl
    · next hne heq =>
        obtain ⟨rfl, rfl⟩ := List.cons.inj heq
        have hno : (c == '/' && cs.head? == some '*') = false := by
          rw [Bool.and_eq_false_imp]
          intro hc
          obtain rfl : c = '/' := by simpa using hc
          cases cs with
          | nil => rfl
          | cons d ds =>
              have hd : d ≠ '*' := by
                rintro rfl
                exact hne ds rfl rfl
              simpa using hd
        rw [hno]
        rfl
    · next heq => cases heq
  cases behind with
  | nil => rfl
  | cons c cs =>
      rw [List.reverse_cons, crlf_append, List.reverse_append]
      by_cases hc : c = '\n'
      · subst hc
        simp [hcontinues, isOpenEnded]
      · simp only [crlf_cons hc, crlf_nil, List.reverse_cons, List.reverse_nil, List.nil_append,
          List.singleton_append, hcontinues, hhead]

/-- Whether a reading may be within a line end after a token, if it may be so before it. It has to
be outside of line ends where a gap is read. -/
def Token.halves (half : Bool) : Token → Option Bool
  | .literal text => if text.isEmpty || text.any (['\n', '\r'].contains ·) then none else some false
  | .keyword words =>
      if words.any fun w => w.isEmpty || w.any (['\n', '\r'].contains ·) then none else some false
  | .comment | .shortComment => some true
  | .semicolon | .indent | .expressionEnd => some half
  | .gap => if half then none else some false
  | .identifier | .integer | .rune | .string | .rawString | .slash | .inlineComment | .bareText
  | .groupText | .separator | .blanks | .trivia => some false

theorem Token.taken {t : Token} {half half' : Bool} {behind behind' : List Char}
    (ht : t.halves half = some half') (hh : h = true → half = true)
    (hb : Crosses false h behind.reverse behind'.reverse) (hcs : Crosses h false cs cs')
    (hcr : '\r' ∉ cs) :
    Option.Rel (Taken h half' cs cs') (t.width behind cs) (t.width behind' cs') := by
  have hlineal : ∀ {width : List Char → Option Nat}, Lineal width → t.width behind = width →
      t.width behind' = width → (t.mayBeEmpty = false ∨ half' = half) →
      Option.Rel (Taken h half' cs cs') (t.width behind cs) (t.width behind' cs') := by
    rintro _ hw rfl hsame hempty
    rw [congrFun hsame cs']
    refine taken_of_lineal hw (fun _ _ hn => (Token.width_bounds hn).1) hcs hcr
      fun n htrue hn => ?_
    rcases hempty with hempty | rfl
    · obtain ⟨hzero, hpos⟩ := Token.width_bounds hn
      exact absurd (hpos hempty) (by simpa using hzero)
    · exact hh htrue
  have htrivia : ∀ {half'}, Taken h half' cs cs' (triviaWidth cs) (triviaWidth cs') := by
    intro half'
    obtain ⟨hzero, hcross⟩ := crosses_trivia hcs hcr
    exact ⟨hzero, false, by simp, hcross⟩
  cases t with
  | literal text =>
      have hplain : ¬ (text.isEmpty || text.any (['\n', '\r'].contains ·)) = true := by
        intro htext
        simp only [halves, htext, if_true] at ht
        cases ht
      rw [Bool.not_eq_true, Bool.or_eq_false_iff, List.any_eq_false] at hplain
      refine hlineal (lineal_word ?_ ?_) rfl rfl (.inl hplain.1)
      · exact fun hmem => hplain.2 _ hmem (by decide)
      · exact fun hmem => hplain.2 _ hmem (by decide)
  | keyword words =>
      have hplain : ¬ (words.any fun w => w.isEmpty || w.any (['\n', '\r'].contains ·)) = true := by
        intro htext
        simp only [halves, htext, if_true] at ht
        cases ht
      rw [Bool.not_eq_true, List.any_eq_false] at hplain
      simp only [Bool.not_eq_true, Bool.or_eq_false_iff, List.any_eq_false] at hplain
      refine hlineal (lineal_keyword fun word hword => ⟨?_, ?_⟩) rfl rfl (.inl ?_)
      · exact fun hmem => absurd ((hplain word hword).2 _ hmem) (by decide)
      · exact fun hmem => absurd ((hplain word hword).2 _ hmem) (by decide)
      · exact List.any_eq_false.2 fun word hword => by simp [(hplain word hword).1]
  | identifier => exact hlineal lineal_identifier rfl rfl (.inl rfl)
  | integer => exact hlineal lineal_integer rfl rfl (.inl rfl)
  | rune => exact hlineal lineal_rune rfl rfl (.inl rfl)
  | string => exact hlineal lineal_string rfl rfl (.inl rfl)
  | slash => exact hlineal lineal_slash rfl rfl (.inl rfl)
  | inlineComment => exact hlineal lineal_inlineComment rfl rfl (.inl rfl)
  | bareText => exact hlineal (lineal_run (by decide) (by decide)) rfl rfl (.inl rfl)
  | blanks => exact hlineal (lineal_run (by decide) (by decide)) rfl rfl (.inl rfl)
  | separator =>
      exact hlineal (lineal_head (f := fun c => if c == some ',' || c == some ';' then some 1
        else none) rfl rfl) rfl rfl (.inl rfl)
  | semicolon =>
      exact hlineal (lineal_head (f := fun c => some (if c == some ';' then 1 else 0)) rfl rfl)
        rfl rfl (.inr (Option.some.inj ht).symm)
  | indent => exact hlineal lineal_indent rfl rfl (.inr (Option.some.inj ht).symm)
  | expressionEnd => exact hlineal lineal_expressionEnd rfl rfl (.inr (Option.some.inj ht).symm)
  | rawString =>
      cases ht
      exact taken_rawString hcs hcr
  | comment =>
      cases ht
      exact taken_comment hcs hcr
  | shortComment =>
      cases ht
      exact taken_shortComment hcs hcr
  | groupText =>
      cases ht
      exact taken_run (by decide) (by decide) hcs hcr
  | trivia => exact .some htrivia
  | gap =>
      have hhalf : half = false := by
        cases half with
        | false => rfl
        | true => cases ht
      obtain rfl : h = false := by
        rw [← Bool.not_eq_true]
        intro htrue
        rw [hh htrue] at hhalf
        cases hhalf
      simp only [Token.width, continues_crlf hb]
      split
      · exact .some htrivia
      · exact taken_of_lineal lineal_indent
          (fun _ _ hn => Option.some.inj hn ▸ length_takeWhile_le _ _) hcs hcr
          fun _ hfalse _ => by cases hfalse

end EnumNames.Grammar
