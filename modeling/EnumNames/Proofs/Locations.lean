import EnumNames.Proofs.AnalysisFailures
import EnumNames.Proofs.LineEndPlaces
import EnumNames.Text.Split

/-!
Locations of what is read. A position found in the table of line starts is the
one found by counting, and two offsets never share one. Names and literals stay
within a line, so each of them is found again in the text, on the line and from
the column that its location gives.
-/

namespace EnumNames.Text

/-! ## Counting and searching -/

theorem length_lineStarts (cs : List Char) : (lineStarts cs).length = cs.count '\n' + 1 := by
  induction cs using List.reverseRecOn with
  | nil => rfl
  | append_singleton cs c ih =>
      rw [lineStarts_append_singleton, List.length_append, ih, List.count_append]
      by_cases hc : c = '\n' <;> simp [hc]

/-- The last line starts after the last newline. -/
theorem lastStart_eq (cs : List Char) :
    lastStart cs = (cs.reverse.dropWhile (· != '\n')).length := by
  induction cs using List.reverseRecOn with
  | nil => rfl
  | append_singleton cs c ih =>
      rw [lastStart_append_singleton, List.reverse_append, List.reverse_singleton,
        List.singleton_append, List.dropWhile_cons]
      by_cases hc : c = '\n' <;> simp [hc, ih]

/-- The last line starts the text or follows a newline, and has no newline itself. -/
theorem lastStart_spec (cs : List Char) :
    (lastStart cs = 0 ∨ cs[lastStart cs - 1]? = some '\n') ∧ '\n' ∉ cs.drop (lastStart cs) := by
  induction cs using List.reverseRecOn with
  | nil => exact ⟨.inl rfl, by simp⟩
  | append_singleton cs c ih =>
      have hle := lastStart_le cs
      rw [lastStart_append_singleton]
      split
      · next hc => simp [hc]
      · next hc =>
          rw [List.drop_append_of_le_length hle]
          refine ⟨?_, by simpa [Ne.symm hc] using ih.2⟩
          cases ih.1 with
          | inl hzero => exact .inl hzero
          | inr hnewline =>
              refine .inr ?_
              rw [List.getElem?_append_left (List.getElem?_eq_some_iff.1 hnewline).1]
              exact hnewline

/-- Searching in the table and counting agree. -/
theorem LineTable.position_eq_of {text : List Char} {p : Nat} (hp : p ≤ text.length) :
    (ofText text).position p = Position.of text p := by
  have hposition := position_append (text.take p) (text.drop p)
  rw [List.take_append_drop, List.length_take_of_le hp] at hposition
  rw [hposition, length_lineStarts, lastStart_eq]
  rfl

/-- The number of a line tells where it starts. -/
theorem lastStart_of_append (cs ds : List Char) :
    (lineStarts (cs ++ ds))[cs.count '\n']? = some (lastStart cs) := by
  have hlength := length_lineStarts cs
  have hstarts : lineStarts (cs ++ ds) = lineStarts cs ++ afterNewlines cs.length ds := by
    rw [lineStarts, afterNewlines_append, Nat.zero_add]
    rfl
  rw [hstarts, List.getElem?_append_left (by omega), lastStart, List.getLast_eq_getElem,
    List.getElem?_eq_getElem (by omega)]
  simp [hlength]

/-- A position counts the newlines before it, and the characters of its line. -/
theorem Position.of_spec {text : List Char} {p : Nat} (hp : p ≤ text.length) :
    ∃ start ≤ p, (start = 0 ∨ text[start - 1]? = some '\n') ∧ '\n' ∉ (text.take p).drop start ∧
      Position.of text p = ⟨(text.take p).count '\n' + 1, p - start + 1⟩ := by
  have hle := lastStart_le (text.take p)
  rw [List.length_take_of_le hp] at hle
  obtain ⟨hstart, hline⟩ := lastStart_spec (text.take p)
  refine ⟨lastStart (text.take p), hle, ?_, hline, ?_⟩
  · cases hstart with
    | inl hzero => exact .inl hzero
    | inr hnewline =>
        obtain ⟨hlt, hget⟩ := List.getElem?_eq_some_iff.1 hnewline
        rw [List.getElem_take] at hget
        exact .inr (List.getElem?_eq_some_iff.2 ⟨_, hget⟩)
  · rw [Position.of, lineStart, ← lastStart_eq]

theorem Position.of_injective {text : List Char} {p q : Nat} (hp : p ≤ text.length)
    (hq : q ≤ text.length) (h : Position.of text p = Position.of text q) : p = q := by
  have hstart (n : Nat) : lineStart text n = lastStart (text.take n) := (lastStart_eq _).symm
  have hlineP := lastStart_of_append (text.take p) (text.drop p)
  have hlineQ := lastStart_of_append (text.take q) (text.drop q)
  have hleP := lastStart_le (text.take p)
  have hleQ := lastStart_le (text.take q)
  rw [List.take_append_drop] at hlineP hlineQ
  rw [List.length_take_of_le hp] at hleP
  rw [List.length_take_of_le hq] at hleQ
  injection h with hline hcolumn
  rw [Nat.add_right_cancel hline, hlineQ] at hlineP
  have hsame := Option.some.inj hlineP
  rw [hstart, hstart] at hcolumn
  omega

/-! ## Lines -/

theorem length_splitAt (sep : Char) (cs : List Char) :
    (splitAt sep cs).length = cs.count sep + 1 := by
  induction cs with
  | nil => rfl
  | cons c cs ih =>
      rw [splitAt, List.count_cons]
      split
      · next hc => simp [ih]
      · next hc =>
          cases hsplit : splitAt sep cs with
          | nil => exact absurd hsplit (splitAt_ne_nil sep cs)
          | cons part parts => simpa [hsplit] using ih

theorem head?_splitAt (sep : Char) (cs : List Char) :
    (splitAt sep cs)[0]? = some (cs.takeWhile (· != sep)) := by
  induction cs with
  | nil => rfl
  | cons c cs ih =>
      rw [splitAt, List.takeWhile_cons]
      by_cases hc : c = sep
      · simp [hc]
      · cases hsplit : splitAt sep cs with
        | nil => exact absurd hsplit (splitAt_ne_nil sep cs)
        | cons part parts =>
            rw [hsplit] at ih
            simpa [hc] using ih

/-- The line of a place: what its last line has before the place, and what follows up to the
next newline. -/
theorem line_of_append (cs ds : List Char) :
    (splitAt '\n' (cs ++ ds))[cs.count '\n']? =
      some (cs.drop (lastStart cs) ++ ds.takeWhile (· != '\n')) := by
  induction cs using List.reverseRecOn generalizing ds with
  | nil => exact head?_splitAt '\n' ds
  | append_singleton cs c ih =>
      have hle := lastStart_le cs
      rw [List.append_assoc, List.singleton_append, lastStart_append_singleton]
      by_cases hc : c = '\n'
      · subst hc
        rw [splitAt_append_sep, List.getElem?_append_right (by simp [length_splitAt])]
        simpa [length_splitAt] using head?_splitAt '\n' ds
      · have hcount : (cs ++ [c]).count '\n' = cs.count '\n' := by simp [hc]
        rw [hcount, ih, if_neg hc, List.drop_append_of_le_length hle]
        simp [hc]

theorem newline_not_mem_of_isWord {cs : List Char} (h : cs.all isWord = true) : '\n' ∉ cs := by
  intro hmem
  exact ne_of_isWord (List.all_eq_true.1 h _ hmem) (by decide) rfl

end EnumNames.Text

namespace EnumNames.Rune

open EnumNames.Grammar EnumNames.Text

theorem Form.newline_not_mem {cs : List Char} (h : Form cs) : '\n' ∉ cs := by
  have hdigits {ds : List Char} (hds : ds.all isHexDigit = true) : '\n' ∉ ds :=
    newline_not_mem_of_isWord (all_imp isWord_of_isHexDigit hds)
  cases h with
  | plain c _ _ newline => simpa using Ne.symm newline
  | hex mark ds digits length =>
      have hmark : mark ≠ '\n' := by
        rintro rfl
        simp at length
      simpa [Ne.symm hmark] using hdigits digits
  | octal ds digits _ => simpa using hdigits (all_imp isHexDigit_of_isOctalDigit digits)
  | simple c letter =>
      have hc : c ≠ '\n' := by
        rintro rfl
        exact absurd letter (by decide)
      simp [Ne.symm hc]

end EnumNames.Rune

namespace EnumNames.Grammar.Placed

open EnumNames.Text

variable {b : Branch} {r : Rule} {e : Peg} {text : List Char}

/-! ## First parts -/

/-- A node whose rule starts with another has that one's node first, at its own start. -/
theorem first_child (h : Placed text b) (hbody : b.rule.body = .seq (.rule r) e) :
    ∃ c others, b.children = c :: others ∧ c.rule = r ∧ c.start = b.start := by
  obtain ⟨_, _, _, _, hreads⟩ := h
  rw [hbody] at hreads
  obtain ⟨_, _, g, g', _, hfirst, _, hinside⟩ := parts_of_reads_seq hreads
  obtain ⟨f, rfl, _⟩ := body_of_reads hfirst
  rw [Branch.children, hinside]
  exact ⟨⟨r, b.start, f⟩, _, rfl, rfl, rfl⟩

theorem every_first (h : Placed text b) (hbody : b.rule.body = .seq (.rule r) e) :
    ∃ c others, b.every r = c :: others ∧ b.first? r = some c ∧ c.start = b.start := by
  obtain ⟨c, others, hchildren, hrule, hstart⟩ := h.first_child hbody
  refine ⟨c, others.filter (·.rule == r), ?_, ?_, hstart⟩
  · rw [Branch.every, hchildren, List.filter_cons_of_pos (by simp [hrule])]
  · rw [Branch.first?, hchildren, List.find?_cons_of_pos (by simp [hrule])]

/-- An operand is a single literal or name. -/
theorem operand_child (h : Placed text b) (hr : b.rule = .operand) :
    ∃ c, b.children = [c] ∧ c.start = b.start ∧ c.inside.text = b.inside.text ∧
      c.rule ∈ [Rule.intLit, .charLit, .identifier] := by
  obtain ⟨_, _, _, _, hreads⟩ := h
  rw [hr] at hreads
  have hone : ∃ q g, b.inside = .node q g .nil ∧ q ∈ [Rule.intLit, .charLit, .identifier] := by
    rcases parts_of_reads_choice hreads with hint | ⟨_, hreads⟩
    · obtain ⟨g, hg, _⟩ := body_of_reads hint
      exact ⟨_, g, hg, by simp⟩
    · rcases parts_of_reads_choice hreads with hrune | ⟨_, hname⟩
      · obtain ⟨g, hg, _⟩ := body_of_reads hrune
        exact ⟨_, g, hg, by simp⟩
      · obtain ⟨g, hg, _⟩ := body_of_reads hname
        exact ⟨_, g, hg, by simp⟩
  obtain ⟨q, g, hinside, hq⟩ := hone
  refine ⟨⟨q, b.start, g⟩, ?_, rfl, ?_, hq⟩
  · rw [Branch.children, hinside]
    rfl
  · rw [hinside, Forest.text, Forest.text, List.append_nil]

/-! ## Texts within a line -/

theorem newline_not_mem_literal (h : Placed text b)
    (hr : b.rule ∈ [Rule.intLit, .charLit, .identifier]) : '\n' ∉ b.inside.text := by
  obtain ⟨_, rest, _, _, hreads⟩ := h
  simp only [List.mem_cons, List.not_mem_nil, or_false] at hr
  rcases hr with hr | hr | hr <;> rw [hr] at hreads
  · have hword := all_isWord_of_integerWidth (width_of_reads (t := .integer) hreads).1
    rw [List.take_left] at hword
    exact newline_not_mem_of_isWord hword
  · obtain ⟨_, _, hwhole⟩ := quoted_rune (width_of_reads (t := .rune) hreads).1
    have hwidth := hwhole []
    rw [List.append_nil] at hwidth
    obtain ⟨body, htext, hform⟩ := Rune.form_of_runeWidth hwidth
    rw [htext]
    simpa using hform.newline_not_mem
  · have hname := isIdentifier_take (width_of_reads (t := .identifier) hreads).1
    rw [List.take_left] at hname
    exact newline_not_mem_of_isWord (all_isWord_of_isIdentifier hname)

theorem newline_not_mem_operand (h : Placed text b) (hr : b.rule = .operand) :
    '\n' ∉ b.inside.text := by
  obtain ⟨c, hchildren, _, htext, hrule⟩ := h.operand_child hr
  have hc : Placed text c := h.children c (by simp [hchildren])
  exact htext ▸ hc.newline_not_mem_literal hrule

end EnumNames.Grammar.Placed

namespace EnumNames

open EnumNames.Grammar EnumNames.Text

/-! ## Names and literals of declarations -/

/-- From the place on, its line in the text goes on with the characters. -/
def Loc.Shows (text : List Char) (l : Loc) (cs : List Char) : Prop :=
  ∃ line, 1 ≤ l.line ∧ (splitAt '\n' text)[(l.line - 1).toNat]? = some line ∧
    1 ≤ l.column ∧ cs <+: line.drop (l.column - 1).toNat

theorem Loc.shows_of_line {file : String} {text line cs : List Char} {n m : Nat}
    (hline : (splitAt '\n' text)[n]? = some line) (hcs : cs <+: line.drop m) :
    Loc.Shows text { file, line := (n : Int) + 1, column := (m : Int) + 1 } cs := by
  refine ⟨line, ?_, ?_, ?_, ?_⟩
  · show (1 : Int) ≤ n + 1
    omega
  · simpa using hline
  · show (1 : Int) ≤ m + 1
    omega
  · simpa using hcs

abbrev Leaf := String × Loc

def Leaf.Right (text : List Char) (l : Leaf) : Prop := l.2.Shows text l.1.toList

def Ident.leaf (id : Ident) : Leaf := (id.name, id.loc)

namespace Expr

def leaves : Expr → List Leaf
  | .int text loc | .rune text _ loc => [(text, loc)]
  | .ident id => [id.leaf]
  | .binary _ left right _ => left.leaves ++ right.leaves
  | .verbatim .. | .stray .. => []

/-- Every sum or difference is placed where its left side is. -/
def LeftPlaced : Expr → Prop
  | .binary _ left right loc => loc = left.loc ∧ left.LeftPlaced ∧ right.LeftPlaced
  | .int .. | .rune .. | .ident _ | .verbatim .. | .stray .. => True

end Expr

def TypeRef.leaves : TypeRef → List Leaf
  | .ident id => [id.leaf]
  | .verbatim .. => []

def ConstSpec.leaves (s : ConstSpec) : List Leaf :=
  s.names.map (·.leaf) ++ s.type.toList.flatMap (·.leaves) ++ s.values.flatMap (·.leaves)

/-- The specification is placed at its first name, and its values at their left sides. -/
def ConstSpec.WellPlaced (s : ConstSpec) : Prop :=
  (∃ id others, s.names = id :: others ∧ s.loc = id.loc) ∧ ∀ e ∈ s.values, e.LeftPlaced

def Decl.leaves : Decl → List Leaf
  | .types specs _ _ => specs.flatMap (·.type.leaves)
  | .consts specs _ _ => specs.flatMap (·.leaves)
  | .other .. => []

def Decl.WellPlaced : Decl → Prop
  | .consts specs _ _ => ∀ s ∈ specs, s.WellPlaced
  | .types .. | .other .. => True

namespace Reader

variable {file : String} {text : List Char} {b : Branch}

/-- A node that stays within a line is found where it is placed. -/
theorem right_of_placed (hb : Placed text b) (hline : '\n' ∉ b.inside.text) :
    Leaf.Right text (b.text, (ofText file text).loc b) := by
  obtain ⟨behind, rest, htext, hstart, _⟩ := hb
  have hposition := LineTable.position_append behind.reverse (b.inside.text ++ rest)
  have hlines := line_of_append behind.reverse (b.inside.text ++ rest)
  rw [← List.append_assoc, ← htext] at hposition hlines
  have hloc : (ofText file text).loc b =
      { file
        line := ((behind.reverse.count '\n' : Nat) : Int) + 1
        column := ((behind.reverse.drop (lastStart behind.reverse)).length : Int) + 1 } := by
    rw [length_lineStarts] at hposition
    rw [List.length_drop, loc, locAt, hstart, ← List.length_reverse, ofText]
    dsimp only
    rw [hposition]
    rfl
  have hstay : ∀ c ∈ b.inside.text, (c != '\n') = true := by
    intro c hc
    simp only [bne_iff_ne, ne_eq]
    rintro rfl
    exact hline hc
  rw [hloc]
  refine Loc.shows_of_line hlines ?_
  rw [List.drop_left, List.takeWhile_append_of_pos hstay, Branch.text, String.toList_ofList]
  exact List.prefix_append _ _

theorem operand_loc {x : Expr} (hb : Placed text b) (hr : b.rule = .operand)
    (h : (ofText file text).operand b = .ok x) : x.loc = (ofText file text).loc b := by
  obtain ⟨c, hchildren, hstart, _⟩ := hb.operand_child hr
  have hlit {q : Rule} {lit : Branch} (hlit : b.first? q = some lit) : lit.start = b.start := by
    have hmem := List.mem_of_find?_eq_some hlit
    rw [hchildren, List.mem_singleton] at hmem
    rw [hmem, hstart]
  unfold operand at h
  split at h
  · next lit _ hint =>
      cases h
      rw [Expr.loc, loc, hlit hint, loc]
  · next lit _ hrune =>
      obtain ⟨_, _, rfl⟩ := ok_of_map h
      rw [Expr.loc, loc, hlit hrune, loc]
  · cases h
    rfl

theorem operand_right {x : Expr} (hb : Placed text b) (hr : b.rule = .operand)
    (h : (ofText file text).operand b = .ok x) : ∀ l ∈ x.leaves, Leaf.Right text l := by
  unfold operand at h
  split at h
  · next lit _ hint =>
      cases h
      obtain ⟨hrule, hlit⟩ := hb.of_first? hint
      have hline := hlit.newline_not_mem_literal (by simp [hrule])
      simpa [Expr.leaves] using right_of_placed hlit hline
  · next lit _ hrune =>
      obtain ⟨_, _, rfl⟩ := ok_of_map h
      obtain ⟨hrule, hlit⟩ := hb.of_first? hrune
      have hline := hlit.newline_not_mem_literal (by simp [hrule])
      simpa [Expr.leaves] using right_of_placed hlit hline
  · cases h
    simpa [Expr.leaves, Ident.leaf, ident] using right_of_placed hb (hb.newline_not_mem_operand hr)

theorem operand_leftPlaced {r : Reader} {x : Expr} (h : r.operand b = .ok x) : x.LeftPlaced := by
  have hoperand := operand_isOperand h
  cases x with
  | int _ _ | rune _ _ _ | ident _ => trivial
  | binary _ _ _ _ | verbatim _ _ | stray _ _ _ => cases hoperand

theorem binary_right {x : Expr} (hb : Placed text b) (hr : b.rule = .binaryExpr)
    (h : (ofText file text).binary b = .ok x) :
    (∀ l ∈ x.leaves, Leaf.Right text l) ∧ x.LeftPlaced := by
  unfold binary at h
  split at h
  · next left right op hevery _ =>
      obtain ⟨y, hy, h⟩ := ok_of_bind h
      obtain ⟨z, hz, h⟩ := ok_of_bind h
      cases h
      obtain ⟨hleftRule, hleft⟩ := hb.of_mem_every (c := left) (r := .operand) (by simp [hevery])
      obtain ⟨hrightRule, hright⟩ := hb.of_mem_every (c := right) (r := .operand) (by simp [hevery])
      -- the left operand is the first part, so it starts where the whole does
      obtain ⟨c, others, hfirst, _, hstart⟩ := hb.every_first (r := .operand) (by rw [hr]; rfl)
      obtain rfl : left = c := (List.cons.inj (hevery.symm.trans hfirst)).1
      refine ⟨?_, ?_, operand_leftPlaced hy, operand_leftPlaced hz⟩
      · intro l hl
        rcases List.mem_append.1 hl with hl | hl
        · exact operand_right hleft hleftRule hy l hl
        · exact operand_right hright hrightRule hz l hl
      · rw [operand_loc hleft hleftRule hy, loc, loc, hstart]
  · cases h
    exact ⟨by simp [verbatim, Expr.leaves], trivial⟩

/-- The node at the end of a way has the way's last rule. -/
theorem rule_of_reach? (way : List Rule) {q : Rule} {c : Branch}
    (h : b.reach? (way ++ [q]) = some c) : c.rule = q := by
  induction way generalizing b with
  | nil =>
      obtain ⟨d, hd, hreach⟩ := Option.bind_eq_some_iff.1 h
      cases hreach
      simpa using List.find?_some hd
  | cons r way ih =>
      obtain ⟨d, _, hreach⟩ := Option.bind_eq_some_iff.1 h
      exact ih hreach

theorem value_right {x : Expr} (hb : Placed text b) (h : (ofText file text).value b = .ok x) :
    (∀ l ∈ x.leaves, Leaf.Right text l) ∧ x.LeftPlaced := by
  unfold value at h
  split at h
  · next e _ hreach =>
      exact binary_right (hb.of_reach? hreach)
        (rule_of_reach? [.simpleExpr, .simpleShape] hreach) h
  · next e _ hreach =>
      have hrule := rule_of_reach? [.simpleExpr, .simpleShape] hreach
      exact ⟨operand_right (hb.of_reach? hreach) hrule h, operand_leftPlaced h⟩
  · cases h
    exact ⟨by simp [verbatim, Expr.leaves], trivial⟩

theorem typeRef_right (way : List Rule) (hb : Placed text b) :
    ∀ l ∈ ((ofText file text).typeRef b (way ++ [.identifier])).leaves, Leaf.Right text l := by
  unfold typeRef
  split
  · next id hreach =>
      have hid := hb.of_reach? hreach
      have hrule := rule_of_reach? way hreach
      have hright : Leaf.Right text (id.text, (ofText file text).loc id) := right_of_placed hid
        (hid.newline_not_mem_literal (by simp [hrule]))
      simpa [TypeRef.leaves, Ident.leaf, ident] using hright
  · simp [TypeRef.leaves]

theorem constSpec_right {s : ConstSpec} (hb : Placed text b) (hr : b.rule = .constSpec)
    (h : (ofText file text).constSpec b = .ok s) :
    (∀ l ∈ s.leaves, Leaf.Right text l) ∧ s.WellPlaced := by
  obtain ⟨values, hvalues, hs⟩ := ok_of_bind h
  cases hs
  have hvalue : ∀ e ∈ values, (∀ l ∈ e.leaves, Leaf.Right text l) ∧ e.LeftPlaced := by
    intro e he
    obtain ⟨c, hc, hread⟩ := exists_of_mapM_ok hvalues he
    cases hlist : b.reach? [.constValues, .exprList] with
    | none => simp [hlist] at hc
    | some list =>
        rw [hlist] at hc
        exact value_right ((hb.of_reach? hlist).of_mem_every hc).2 hread
  obtain ⟨list, _, _, hlist, hlistStart⟩ := hb.every_first (r := .identifierList) (by rw [hr]; rfl)
  obtain ⟨hlistRule, hlistPlaced⟩ := hb.of_first? hlist
  obtain ⟨id, others, hnames, _, hidStart⟩ :=
    hlistPlaced.every_first (r := .identifier) (by rw [hlistRule]; rfl)
  refine ⟨?_, ⟨(ofText file text).ident id, others.map (ofText file text).ident, ?_, ?_⟩,
    fun e he => (hvalue e he).2⟩
  · intro l hl
    simp only [ConstSpec.leaves, List.mem_append, List.mem_map, List.mem_flatMap] at hl
    rcases hl with (⟨i, hi, rfl⟩ | ⟨t, ht, hl⟩) | ⟨e, he, hl⟩
    · simp only [hlist, Option.map_some, Option.getD_some] at hi
      obtain ⟨c, hc, rfl⟩ := hi
      obtain ⟨hrule, hplaced⟩ := hlistPlaced.of_mem_every hc
      exact right_of_placed hplaced (hplaced.newline_not_mem_literal (by simp [hrule]))
    · cases hname : b.reach? [.constType, .typeName] with
      | none => simp [hname] at ht
      | some name =>
          simp only [hname, Option.map_some, Option.toList_some, List.mem_singleton] at ht
          subst ht
          exact typeRef_right [] (hb.of_reach? hname) l hl
    · exact (hvalue e he).1 l hl
  · simp [hlist, hnames]
  · simp only [ident, loc, hidStart, hlistStart]

theorem typeSpec_right (hb : Placed text b) :
    ∀ l ∈ ((ofText file text).typeSpec b).type.leaves, Leaf.Right text l := by
  rw [typeSpec]
  cases htype : b.first? .typeExpr with
  | none => exact typeRef_right [.namedType] hb
  | some t => exact typeRef_right [.namedType] (hb.of_first? htype).2

theorem rule_of_mem_specs {bracketed item spec : Rule} {body : Option Branch} {c : Branch}
    (h : c ∈ (specs body bracketed item spec).1) : c.rule = spec := by
  cases body with
  | none => cases h
  | some b =>
      simp only [specs] at h
      split at h
      · obtain ⟨i, _, hc⟩ := List.mem_filterMap.1 h
        simpa using List.find?_some hc
      · simpa using (List.mem_filter.1 h).2

/-- The specifications of a declaration's body are placed. -/
theorem placed_of_mem_specs {bracketed item spec body : Rule} {c : Branch} (hb : Placed text b)
    (h : c ∈ (specs (b.first? body) bracketed item spec).1) : Placed text c := by
  cases hbody : b.first? body with
  | none =>
      rw [hbody] at h
      cases h
  | some d =>
      rw [hbody] at h
      exact placed_specs (hb.of_first? hbody).2 h

theorem decl_right {d : Decl} (hb : Placed text b) (h : (ofText file text).decl b = .ok d) :
    (∀ l ∈ d.leaves, Leaf.Right text l) ∧ d.WellPlaced := by
  unfold decl at h
  split at h
  · next t _ ht =>
      cases h
      refine ⟨?_, trivial⟩
      intro l hl
      obtain ⟨s, hs, hl⟩ := List.mem_flatMap.1 hl
      obtain ⟨c, hc, rfl⟩ := List.mem_map.1 hs
      exact typeSpec_right (placed_of_mem_specs (hb.of_first? ht).2 hc) l hl
  · next t _ ht =>
      obtain ⟨specs', hspecs, heq⟩ := ok_of_bind h
      cases heq
      have hspec : ∀ s ∈ specs', (∀ l ∈ s.leaves, Leaf.Right text l) ∧ s.WellPlaced := by
        intro s hs
        obtain ⟨c, hc, hread⟩ := exists_of_mapM_ok hspecs hs
        exact constSpec_right (placed_of_mem_specs (hb.of_first? ht).2 hc) (rule_of_mem_specs hc)
          hread
      refine ⟨?_, fun s hs => (hspec s hs).2⟩
      intro l hl
      obtain ⟨s, hs, hl⟩ := List.mem_flatMap.1 hl
      exact (hspec s hs).1 l hl
  · cases h
    exact ⟨by simp [Decl.leaves], trivial⟩

theorem locAt_eq {p : Nat} (hp : p ≤ text.length) :
    (ofText file text).locAt p =
      { file, line := (Position.of text p).line, column := (Position.of text p).column } := by
  rw [← LineTable.position_eq_of hp]
  rfl

theorem sourceFile_right {f : SourceFile} (hb : Placed text b)
    (h : (ofText file text).sourceFile b = .ok f) :
    ∀ d ∈ f.decls, (∀ l ∈ d.leaves, Leaf.Right text l) ∧ d.WellPlaced := by
  obtain ⟨decls, hdecls, heq⟩ := ok_of_bind h
  cases heq
  intro d hd
  obtain ⟨c, hc, hread⟩ := exists_of_mapM_ok hdecls hd
  obtain ⟨t, ht, htop⟩ := List.mem_filterMap.1 hc
  exact decl_right ((hb.of_mem_every ht).2.of_first? htop).2 hread

end Reader

namespace SourceFile

/-- Locations are right: searching and counting give the line and the column of every offset, no
two offsets share them, and the names and literals of a file are found at their locations. -/
theorem locations_right (file text : String) :
    (∀ p ≤ text.toList.length, ∃ start ≤ p,
      (start = 0 ∨ text.toList[start - 1]? = some '\n') ∧
      '\n' ∉ (text.toList.take p).drop start ∧
      (Reader.ofText file text.toList).locAt p =
        { file, line := 1 + (text.toList.take p).count '\n', column := (p : Int) - start + 1 } ∧
      (unreadable file text.toList p).span =
        some { file
               line := ((Reader.ofText file text.toList).locAt p).line
               column := ((Reader.ofText file text.toList).locAt p).column }) ∧
    (∀ p ≤ text.toList.length, ∀ q ≤ text.toList.length, p ≠ q →
      (((Reader.ofText file text.toList).locAt p).line,
        ((Reader.ofText file text.toList).locAt p).column) ≠
      (((Reader.ofText file text.toList).locAt q).line,
        ((Reader.ofText file text.toList).locAt q).column)) ∧
    ∀ f, parse file text = .ok f →
      ∀ d ∈ f.decls, (∀ l ∈ d.leaves, Leaf.Right text.toList l) ∧ d.WellPlaced := by
  refine ⟨?_, ?_, ?_⟩
  · intro p hp
    obtain ⟨start, hle, hstart, hline, hposition⟩ := Position.of_spec hp
    refine ⟨start, hle, hstart, hline, ?_, ?_⟩
    · rw [Reader.locAt_eq hp, hposition]
      simp only [Loc.mk.injEq, true_and]
      omega
    · rw [Reader.locAt_eq hp]
      rfl
  · intro p hp q hq hne hsame
    rw [Reader.locAt_eq hp, Reader.locAt_eq hq] at hsame
    simp only [Prod.mk.injEq, Nat.cast_inj] at hsame
    refine hne (Position.of_injective hp hq ?_)
    rw [Position.mk.injEq]
    exact hsame
  · intro f hf
    obtain ⟨tree, hmatch, hread⟩ := matchRest_of_parse hf
    exact Reader.sourceFile_right (placed_of_matchRest hmatch).2 hread

def sumSource : String := "package p\n\nconst A,\n\tB T = 1, 'x' + /* y\n */ C\n"

def sumDecl : Decl :=
  .consts
    [{ names := [⟨"A", ⟨"t.go", 3, 7⟩⟩, ⟨"B", ⟨"t.go", 4, 2⟩⟩]
       type := some (.ident ⟨"T", ⟨"t.go", 4, 4⟩⟩)
       values :=
        [.int "1" ⟨"t.go", 4, 8⟩,
         .binary "+" (.rune "'x'" 120 ⟨"t.go", 4, 11⟩) (.ident ⟨"C", ⟨"t.go", 5, 5⟩⟩)
          ⟨"t.go", 4, 11⟩]
       loc := ⟨"t.go", 3, 7⟩ }]
    false ⟨"t.go", 3, 1⟩

theorem sum_locations_right :
    (parse "t.go" sumSource).toOption = some ⟨"p", [sumDecl], "t.go"⟩ ∧
      (∀ l ∈ sumDecl.leaves, Leaf.Right sumSource.toList l) ∧ sumDecl.WellPlaced ∧
      (((Reader.ofText "t.go" sumSource.toList).locAt 10).line,
        ((Reader.ofText "t.go" sumSource.toList).locAt 10).column) ≠
      (((Reader.ofText "t.go" sumSource.toList).locAt 11).line,
        ((Reader.ofText "t.go" sumSource.toList).locAt 11).column) := by
  have hparse : (parse "t.go" sumSource).toOption = some ⟨"p", [sumDecl], "t.go"⟩ := by
    decide +kernel
  obtain ⟨_, hne, hfile⟩ := locations_right "t.go" sumSource
  cases h : parse "t.go" sumSource with
  | error e =>
      rw [h] at hparse
      cases hparse
  | ok f =>
      obtain rfl : f = ⟨"p", [sumDecl], "t.go"⟩ := by
        rw [h] at hparse
        exact Option.some.inj hparse
      obtain ⟨hleaves, hplaced⟩ := hfile _ h sumDecl (List.mem_singleton_self _)
      exact ⟨rfl, hleaves, hplaced, hne 10 (by decide +kernel) 11 (by decide +kernel) (by decide)⟩

end SourceFile
end EnumNames
