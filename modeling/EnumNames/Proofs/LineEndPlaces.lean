import EnumNames.Proofs.LineEndMatching
import EnumNames.Proofs.NodePlaces
import Mathlib.Data.List.Induction

/-!
Places with other line ends. The position of a place is found from the lines that
start before it, so it stays the same when carriage returns come before newlines,
unless the place is within a line end. The nodes of a tree correspond to those of
the tree for the other line ends, and most rules only match outside of them.
-/

namespace EnumNames.Text

/-! ## Positions -/

def lineStarts (cs : List Char) : List Nat := 0 :: afterNewlines 0 cs

theorem afterNewlines_append (offset : Nat) (cs ds : List Char) :
    afterNewlines offset (cs ++ ds) =
      afterNewlines offset cs ++ afterNewlines (offset + cs.length) ds := by
  induction cs generalizing offset with
  | nil => rfl
  | cons c cs ih =>
      have hoffset : offset + 1 + cs.length = offset + (c :: cs).length := by
        rw [List.length_cons]
        omega
      simp only [List.cons_append, afterNewlines, ih, hoffset]
      split <;> rfl

theorem lt_of_mem_afterNewlines {offset n : Nat} {cs : List Char}
    (h : n ∈ afterNewlines offset cs) : offset < n ∧ n ≤ offset + cs.length := by
  induction cs generalizing offset with
  | nil => cases h
  | cons c cs ih =>
      rw [afterNewlines] at h
      rw [List.length_cons]
      split at h
      · rcases List.mem_cons.1 h with rfl | h
        · omega
        · have := ih h
          omega
      · have := ih h
        omega

theorem lineStarts_append_singleton (cs : List Char) (c : Char) :
    lineStarts (cs ++ [c]) = lineStarts cs ++ if c = '\n' then [cs.length + 1] else [] := by
  rw [lineStarts, afterNewlines_append, lineStarts, List.cons_append, Nat.zero_add]
  by_cases hc : c = '\n' <;> simp [afterNewlines, hc]

theorem lineStarts_ne_nil (cs : List Char) : lineStarts cs ≠ [] := List.cons_ne_nil _ _

def lastStart (cs : List Char) : Nat := (lineStarts cs).getLast (lineStarts_ne_nil cs)

theorem lastStart_append_singleton (cs : List Char) (c : Char) :
    lastStart (cs ++ [c]) = if c = '\n' then cs.length + 1 else lastStart cs := by
  simp only [lastStart, lineStarts_append_singleton]
  by_cases hc : c = '\n' <;> simp [hc]

theorem lastStart_le (cs : List Char) : lastStart cs ≤ cs.length := by
  have hmem : lastStart cs ∈ lineStarts cs := List.getLast_mem _
  rcases List.mem_cons.1 hmem with h | h
  · omega
  · have := (lt_of_mem_afterNewlines h).2
    omega

namespace LineTable

/-- Where the lines up to the offset are told apart from the others, the search finds their
number. -/
theorem search_eq {table : LineTable} {offset : Nat} {upTo after : List Nat}
    (hstarts : table.starts.toList = upTo ++ after) (hupTo : ∀ n ∈ upTo, n ≤ offset)
    (hafter : ∀ n ∈ after, offset < n) (fuel lo hi : Nat) (hlo : lo ≤ upTo.length)
    (hhi : upTo.length ≤ hi) (hsize : hi ≤ table.starts.size) (hfuel : hi - lo ≤ fuel) :
    table.search offset fuel lo hi = upTo.length := by
  induction fuel generalizing lo hi with
  | zero =>
      rw [search]
      omega
  | succ fuel ih =>
      rw [search]
      split
      · next hlt =>
          have hmid : (lo + hi) / 2 < hi := by omega
          have hget : table.starts.getD ((lo + hi) / 2) 0 =
              (upTo ++ after).getD ((lo + hi) / 2) 0 := by
            rw [← hstarts]
            simp [Array.getD_eq_getD_getElem?, List.getD_eq_getElem?_getD]
          have hlength : (upTo ++ after).length = table.starts.size := by
            rw [← hstarts, Array.length_toList]
          dsimp only
          rw [hget]
          by_cases hside : (lo + hi) / 2 < upTo.length
          · have hle : (upTo ++ after).getD ((lo + hi) / 2) 0 ≤ offset := by
              rw [List.getD_eq_getElem?_getD, List.getElem?_append_left hside,
                List.getElem?_eq_getElem hside]
              exact hupTo _ (List.getElem_mem _)
            rw [if_neg (by omega)]
            exact ih _ _ (by omega) hhi hsize (by omega)
          · have hlt' : offset < (upTo ++ after).getD ((lo + hi) / 2) 0 := by
              have hbound : (lo + hi) / 2 - upTo.length < after.length := by
                rw [List.length_append] at hlength
                omega
              rw [List.getD_eq_getElem?_getD, List.getElem?_append_right (by omega),
                List.getElem?_eq_getElem hbound]
              exact hafter _ (List.getElem_mem _)
            rw [if_pos hlt']
            exact ih _ _ hlo (by omega) (by omega) (by omega)
      · omega

/-- A place is on the last line of the text before it. -/
theorem position_append (cs ds : List Char) :
    (ofText (cs ++ ds)).position cs.length =
      { line := (lineStarts cs).length, column := cs.length - lastStart cs + 1 } := by
  have hstarts : (ofText (cs ++ ds)).starts.toList =
      lineStarts cs ++ afterNewlines cs.length ds := by
    rw [ofText, lineStarts, afterNewlines_append, Nat.zero_add]
    rfl
  have hsize : (lineStarts cs).length ≤ (ofText (cs ++ ds)).starts.size := by
    rw [← Array.length_toList, hstarts, List.length_append]
    omega
  have hlines : (ofText (cs ++ ds)).linesUpTo cs.length = (lineStarts cs).length := by
    refine search_eq hstarts (fun n hn => ?_) (fun n hn => (lt_of_mem_afterNewlines hn).1) _ _ _
      (Nat.zero_le _) hsize (Nat.le_refl _) (by omega)
    rcases List.mem_cons.1 hn with rfl | hn
    · exact Nat.zero_le _
    · have := (lt_of_mem_afterNewlines hn).2
      omega
  have hpos : 0 < (lineStarts cs).length := Nat.succ_pos _
  have hlast : (ofText (cs ++ ds)).starts.getD ((lineStarts cs).length - 1) 0 = lastStart cs := by
    have hget : (ofText (cs ++ ds)).starts.getD ((lineStarts cs).length - 1) 0 =
        (lineStarts cs ++ afterNewlines cs.length ds).getD ((lineStarts cs).length - 1) 0 := by
      rw [← hstarts]
      simp [Array.getD_eq_getD_getElem?, List.getD_eq_getElem?_getD]
    rw [hget, List.getD_eq_getElem?_getD, List.getElem?_append_left (by omega), lastStart,
      List.getLast_eq_getElem, List.getElem?_eq_getElem (by omega)]
    rfl
  rw [position]
  simp only [hlines, hlast]
  rw [Nat.sub_add_cancel hpos]

end LineTable

/-- Carriage returns at line ends leave the number of lines and the way to the last one. -/
theorem lineStarts_crlf (cs : List Char) :
    (lineStarts (crlf cs)).length = (lineStarts cs).length ∧
      (crlf cs).length - lastStart (crlf cs) = cs.length - lastStart cs := by
  induction cs using List.reverseRecOn with
  | nil => exact ⟨rfl, rfl⟩
  | append_singleton cs c ih =>
      have hle := lastStart_le cs
      have hle' := lastStart_le (crlf cs)
      by_cases hc : c = '\n'
      · subst hc
        have hcrlf : crlf (cs ++ ['\n']) = crlf cs ++ ['\r'] ++ ['\n'] := by simp
        rw [hcrlf]
        simp only [lineStarts_append_singleton, lastStart_append_singleton, List.length_append,
          List.length_singleton, if_true]
        refine ⟨?_, by omega⟩
        simp [ih.1]
      · have hcrlf : crlf (cs ++ [c]) = crlf cs ++ [c] := by simp [crlf_cons hc]
        rw [hcrlf]
        simp only [lineStarts_append_singleton, lastStart_append_singleton, List.length_append,
          List.length_singleton, hc, if_false]
        refine ⟨?_, by omega⟩
        simp [ih.1]

theorem position_crlf (cs ds : List Char) :
    (LineTable.ofText (crlf (cs ++ ds))).position (crlf cs).length =
      (LineTable.ofText (cs ++ ds)).position cs.length := by
  rw [crlf_append, LineTable.position_append, LineTable.position_append, (lineStarts_crlf cs).1,
    (lineStarts_crlf cs).2]

end EnumNames.Text

namespace EnumNames.Grammar

open EnumNames.Text

variable {text : List Char} {b b' : Branch}

/-! ## Nodes that correspond -/

/-- The second node stands in the text with other line ends where the first one stands, and within
a line end if `h` says so. -/
structure PairedAt (text : List Char) (h h' : Bool) (b b' : Branch) : Prop where
  placed : Placed text b
  rule : b'.rule = b.rule
  start : b'.start = (crlf (text.take b.start) ++ pend h).length
  inside : Forest.Crossed h h' b.inside b'.inside
  flow : ∃ half half', b.rule.halves half = some half' ∧ (h = true → half = true) ∧
    (h' = true → half' = true)

def Paired (text : List Char) (b b' : Branch) : Prop := ∃ h h', PairedAt text h h' b b'

theorem Paired.placed (hb : Paired text b b') : Placed text b := by
  obtain ⟨h, h', hat⟩ := hb
  exact hat.placed

theorem Paired.rule (hb : Paired text b b') : b'.rule = b.rule := by
  obtain ⟨h, h', hat⟩ := hb
  exact hat.rule

theorem paired_branches {h h' : Bool} {f f' : Forest} {before after : List Char}
    (hf : Forest.Crossed h h' f f') (htext : text = before ++ f.text ++ after)
    (hplaced : ∀ b ∈ f.branches before.length, Placed text b) :
    List.Forall₂ (Paired text) (f.branches before.length)
      (f'.branches (crlf before ++ pend h).length) := by
  induction hf generalizing before with
  | nil => exact .nil
  | @leaf h h₁ h₂ t t' rest rest' hleaf hrest ih =>
      have hstart : (crlf before ++ pend h).length + t'.length =
          (crlf (before ++ t) ++ pend h₁).length := by
        rw [← List.length_append, List.append_assoc, hleaf, crlf_append, List.append_assoc]
      have hbefore : before.length + t.length = (before ++ t).length := List.length_append.symm
      simp only [Forest.branches, hstart, hbefore] at hplaced ⊢
      exact ih (by simpa [Forest.text] using htext) hplaced
  | @node h h₁ h₂ half half' r inside inside' rest rest' hr hh hh' hinside hrest _ ih =>
      have hstart : (crlf before ++ pend h).length + inside'.width =
          (crlf (before ++ inside.text) ++ pend h₁).length := by
        rw [← inside'.length_text, ← List.length_append, List.append_assoc, hinside.text,
          crlf_append, List.append_assoc]
      have hbefore : before.length + inside.width = (before ++ inside.text).length := by
        rw [List.length_append, inside.length_text]
      simp only [Forest.branches, hstart, hbefore] at hplaced ⊢
      refine .cons ⟨h, h₁, hplaced _ (by simp), rfl, ?_, hinside, half, half', hr, hh, hh'⟩
        (ih (by simpa [Forest.text] using htext) fun b hb => hplaced b (List.mem_cons_of_mem _ hb))
      rw [htext, List.append_assoc, List.take_left]

namespace Paired

theorem children (hb : Paired text b b') :
    List.Forall₂ (Paired text) b.children b'.children := by
  obtain ⟨h, h', hat⟩ := hb
  have hchildren := hat.placed.children
  obtain ⟨behind, rest, htext, hstart, _⟩ := hat.placed
  have htake : text.take b.start = behind.reverse := by
    rw [htext, hstart, List.append_assoc, ← List.length_reverse, List.take_left]
  rw [Branch.children, Branch.children, hat.start, htake]
  rw [Branch.children] at hchildren
  rw [hstart, ← List.length_reverse] at hchildren ⊢
  exact paired_branches hat.inside htext hchildren

theorem every (hb : Paired text b b') (r : Rule) :
    List.Forall₂ (fun c c' => Paired text c c' ∧ c.rule = r) (b.every r) (b'.every r) := by
  rw [Branch.every, Branch.every]
  have hchildren := hb.children
  generalize b.children = cs, b'.children = cs' at hchildren
  induction hchildren with
  | nil => exact .nil
  | @cons c c' cs cs' hc _ ih =>
      rw [List.filter_cons, List.filter_cons, hc.rule]
      split
      · next hr => exact .cons ⟨hc, by simpa using hr⟩ ih
      · exact ih

theorem first? (hb : Paired text b b') (r : Rule) :
    Option.Rel (fun c c' => Paired text c c' ∧ c.rule = r) (b.first? r) (b'.first? r) := by
  have hevery := hb.every r
  have hhead : ∀ b : Branch, b.first? r = (b.every r).head? := fun b => by
    rw [Branch.first?, Branch.every, List.head?_filter]
  rw [hhead, hhead]
  generalize b.every r = cs, b'.every r = cs' at hevery
  cases hevery with
  | nil => exact .none
  | cons hc _ => exact .some hc

theorem reach? (hb : Paired text b b') (path : List Rule) {r : Rule}
    (hr : path.getLast? = some r) :
    Option.Rel (fun c c' => Paired text c c' ∧ c.rule = r) (b.reach? path) (b'.reach? path) := by
  induction path generalizing b b' with
  | nil => cases hr
  | cons r' path ih =>
      have hfirst := hb.first? r'
      rw [Branch.reach?, Branch.reach?]
      generalize b.first? r' = x, b'.first? r' = y at hfirst
      cases hfirst with
      | none => exact .none
      | some hc =>
          cases path with
          | nil =>
              obtain rfl : r' = r := Option.some.inj hr
              exact .some hc
          | cons r'' path => exact ih hc.1 hr

/-! ## Nodes outside of line ends -/

/-- A rule that is not tried within a line end matches outside of one. -/
theorem level (hb : Paired text b b') (hr : b.rule.halves true = none) :
    ∃ h', PairedAt text false h' b b' ∧ (h' = true → b.rule.halves false = some true) := by
  obtain ⟨h, h', hat⟩ := hb
  obtain ⟨half, half', hhalf, hh, hh'⟩ := hat.flow
  cases half with
  | true =>
      rw [hr] at hhalf
      cases hhalf
  | false =>
      obtain rfl : h = false := by simpa using hh
      exact ⟨h', hat, fun htrue => by rw [hhalf, hh' htrue]⟩

/-- So does one whose text begins with a character that is in no line end. -/
theorem level_of_head (hb : Paired text b b') {c : Char} (hc : b.inside.text.head? = some c)
    (hn : c ≠ '\n') (hr : c ≠ '\r') :
    ∃ h', PairedAt text false h' b b' ∧
      (h' = true → ∃ half, b.rule.halves half = some true) := by
  obtain ⟨h, h', hat⟩ := hb
  obtain ⟨half, half', hhalf, hh, hh'⟩ := hat.flow
  obtain ⟨cs, hcs⟩ := List.head?_eq_some_iff.1 hc
  have htext := hat.inside.text
  rw [hcs, Crosses, crlf_cons hn] at htext
  cases h with
  | true => exact absurd (List.cons.inj htext).1.symm hr
  | false => exact ⟨h', hat, fun htrue => ⟨half, by rw [hhalf, hh' htrue]⟩⟩

end Paired

namespace PairedAt

variable {h' : Bool}

/-- Such nodes have the same position. -/
theorem loc (hb : PairedAt text false h' b b') (file : String) :
    (Reader.ofText file (crlf text)).loc b' = (Reader.ofText file text).loc b := by
  have hstart := hb.start
  rw [pend_false, List.append_nil] at hstart
  obtain ⟨behind, rest, htext, hlength, _⟩ := hb.placed
  have htake : text.take b.start = behind.reverse := by
    rw [htext, hlength, List.append_assoc, ← List.length_reverse, List.take_left]
  have hposition := position_crlf behind.reverse (b.inside.text ++ rest)
  rw [← List.append_assoc, ← htext, List.length_reverse, ← hlength, ← htake, ← hstart] at hposition
  simp only [Reader.loc, Reader.locAt, Reader.ofText, hposition]

/-- Within a line their texts differ at most by a carriage return at the end. -/
theorem text_eq (hb : PairedAt text false h' b b') (hn : '\n' ∉ b.inside.text) :
    b'.inside.text = b.inside.text ++ pend h' := by
  have htext := hb.inside.text
  rwa [Crosses, pend_false, List.nil_append, crlf_eq_self hn] at htext

end PairedAt

/-! ## Nodes within a line -/

def Token.oneLine : Token → Bool
  | .literal text => !text.contains '\n'
  | .keyword words => !words.any (·.contains '\n')
  | .identifier | .integer | .rune | .indent | .shortComment => true
  | _ => false

/-- An expression whose tokens take no newline, given which rules take none. -/
def Peg.oneLine (call : Rule → Bool) : Peg → Bool
  | .token t => t.oneLine
  | .rule r => call r
  | .seq first second | .choice first second => first.oneLine call && second.oneLine call
  | .many item => !item.mayBeEmpty && item.oneLine call
  | .optional item => item.oneLine call

/-- A rule that takes no newline, as seen from calls nested less than `depth` deep. -/
def Rule.oneLine : Nat → Rule → Bool
  | 0, _ => false
  | depth + 1, r => r.body.oneLine (Rule.oneLine depth)

theorem newline_not_mem_of_lineal {width : List Char → Option Nat} {cs : List Char} {n : Nat}
    (hw : Lineal width) (hle : ∀ cs n, width cs = some n → n ≤ cs.length) (hcr : '\r' ∉ cs)
    (hn : width cs = some n) : '\n' ∉ cs.take n := by
  obtain ⟨line, rest, _, rfl, _, hb, _, hline, _⟩ := (Crosses.all cs).common_line hcr
  rw [hw line rest (fun hmem => hcr (List.mem_append_left _ hmem)) hb] at hn
  rw [List.take_append_of_le_length (hle line n hn)]
  exact fun hmem => hline (List.mem_of_mem_take hmem)

theorem newline_not_mem_of_lineComment {cs : List Char} {n : Nat}
    (hn : lineCommentWidth cs = some n) : '\n' ∉ cs.take n := by
  unfold lineCommentWidth at hn
  split at hn
  · next ds =>
      cases hn
      rw [Nat.add_comm, List.take_succ_cons, List.take_succ_cons, take_length_takeWhile]
      simp only [List.mem_cons, not_or]
      exact ⟨by decide, by decide, fun hmem => by
        simpa using List.all_eq_true.1 List.all_takeWhile _ hmem⟩
  · cases hn

theorem Token.newline_not_mem {t : Token} {behind cs : List Char} {n : Nat}
    (ht : t.oneLine = true) (hcr : '\r' ∉ cs) (hn : t.width behind cs = some n) :
    '\n' ∉ cs.take n := by
  have hlineal : Lineal (t.width behind) → '\n' ∉ cs.take n := fun hw =>
    newline_not_mem_of_lineal hw (fun _ _ h => (Token.width_bounds h).1) hcr hn
  cases t with
  | literal text =>
      obtain ⟨rfl, hp⟩ := wordWidth_eq_some.1 hn
      rw [← List.prefix_iff_eq_take.1 hp]
      simpa [oneLine] using ht
  | keyword words =>
      obtain ⟨word, hmem, rfl, hp⟩ := keywordWidth_eq_some hn
      rw [← List.prefix_iff_eq_take.1 hp]
      simp only [oneLine, Bool.not_eq_true', List.any_eq_false] at ht
      simpa using ht word hmem
  | identifier => exact hlineal lineal_identifier
  | integer => exact hlineal lineal_integer
  | rune => exact hlineal lineal_rune
  | indent => exact hlineal lineal_indent
  | shortComment =>
      rcases Option.or_eq_some_iff.1 hn with hn | ⟨_, hn⟩
      · exact newline_not_mem_of_lineComment hn
      · exact newline_not_mem_of_lineal lineal_inlineComment
          (fun _ _ h => (blockCommentWidth_bounds h).2) hcr hn
  | string | rawString | slash | comment | inlineComment | bareText | groupText | separator
  | semicolon | blanks | trivia | gap | expressionEnd => cases ht

theorem Peg.Reads.newline_not_mem {call : Rule → Bool}
    (hcall : ∀ r behind cs rest f, call r = true → '\r' ∉ cs ++ rest →
      (Peg.rule r).Reads behind cs rest f → '\n' ∉ cs)
    {e : Peg} {behind cs rest : List Char} {f : Forest} (he : e.oneLine call = true)
    (hcr : '\r' ∉ cs ++ rest) (h : e.Reads behind cs rest f) : '\n' ∉ cs := by
  induction e generalizing behind cs rest f with
  | token t =>
      obtain ⟨hwidth, _⟩ := width_of_reads h
      simpa using Token.newline_not_mem he hcr hwidth
  | rule r => exact hcall r behind cs rest f he hcr h
  | seq e e' ih ih' =>
      obtain ⟨he, he'⟩ := Bool.and_eq_true_iff.1 he
      obtain ⟨a, b, g, g', rfl, ha, hb, _⟩ := parts_of_reads_seq h
      rw [List.append_assoc] at hcr
      rw [List.mem_append, not_or]
      exact ⟨ih he hcr ha, ih' he' (fun hmem => hcr (List.mem_append_right _ hmem)) hb⟩
  | choice e e' ih ih' =>
      obtain ⟨he, he'⟩ := Bool.and_eq_true_iff.1 he
      rcases parts_of_reads_choice h with h | ⟨_, h⟩
      · exact ih he hcr h
      · exact ih' he' hcr h
  | many e ih =>
      simp only [oneLine, Bool.and_eq_true, Bool.not_eq_true'] at he
      refine h.many_induction (P := fun _ cs _ => '\r' ∉ cs ++ rest → '\n' ∉ cs) he.1 ?_ ?_ hcr
      · exact fun _ _ _ => List.not_mem_nil
      · intro behind a b g g' ha _ hb hcr
        rw [List.append_assoc] at hcr
        rw [List.mem_append, not_or]
        exact ⟨ih he.2 hcr ha, hb fun hmem => hcr (List.mem_append_right _ hmem)⟩
  | optional e ih =>
      rcases parts_of_reads_optional h with h | ⟨rfl, _, _⟩
      · exact ih he hcr h
      · exact List.not_mem_nil

theorem Rule.newline_not_mem {depth : Nat} {r : Rule} {behind cs rest : List Char} {f : Forest}
    (hr : r.oneLine depth = true) (hcr : '\r' ∉ cs ++ rest)
    (h : (Peg.rule r).Reads behind cs rest f) : '\n' ∉ cs := by
  induction depth generalizing r behind cs rest f with
  | zero => cases hr
  | succ depth ih =>
      obtain ⟨g, _, hbody⟩ := body_of_reads h
      exact hbody.newline_not_mem (fun _ _ _ _ _ hr hcr h => ih hr hcr h) hr hcr

/-- A node of such a rule is within a line. -/
theorem Placed.newline_not_mem {depth : Nat} (hb : Placed text b) (hcr : '\r' ∉ text)
    (hr : b.rule.oneLine depth = true) : '\n' ∉ b.inside.text := by
  obtain ⟨behind, rest, htext, _, hreads⟩ := hb
  refine Rule.newline_not_mem hr (fun hmem => hcr ?_) (reads_rule hreads)
  rw [htext, List.append_assoc]
  exact List.mem_append_right _ hmem

/-- The rule takes part of a line, and it leaves no line end half read. -/
def Rule.plain (r : Rule) : Bool :=
  (r.halves true).isNone && r.halves false == some false && r.oneLine 3

theorem Rule.of_plain {r : Rule} (h : r.plain = true) :
    r.halves true = none ∧ r.halves false = some false ∧ r.oneLine 3 = true := by
  simp only [plain, Bool.and_eq_true, Option.isNone_iff_eq_none, beq_iff_eq] at h
  exact ⟨h.1.1, h.1.2, h.2⟩

/-- Nodes of such rules have the same text. -/
theorem Paired.text_eq (hb : Paired text b b') (hcr : '\r' ∉ text) (hr : b.rule.plain = true) :
    b'.inside.text = b.inside.text := by
  obtain ⟨htrue, hfalse, hline⟩ := Rule.of_plain hr
  obtain ⟨h', hat, hflow⟩ := hb.level htrue
  obtain rfl : h' = false := by
    rw [← Bool.not_eq_true]
    intro hh'
    rw [hflow hh'] at hfalse
    cases hfalse
  rw [hat.text_eq (hb.placed.newline_not_mem hcr hline), pend_false, List.append_nil]

end EnumNames.Grammar
