import EnumNames.Proofs.WrittenBlock

/-!
Written blocks are read as they are. Each part of a block is taken by its rule
of the grammar up to what may follow it there, and its tree stands for its
content. The lemmas go from operands up to the whole file.
-/

namespace EnumNames.Written

open EnumNames.Grammar EnumNames.Text

variable {behind after rest : List Char}

/-! ## What follows a part -/

theorem Blanks.stops {p : Char → Bool} (b : Blanks) (hp : p ' ' = false ∧ p '\t' = false)
    (h : Stops p rest) : Stops p (b.chars ++ rest) := by
  cases hb : b.chars with
  | nil => exact h
  | cons c cs =>
      have hc : c = ' ' ∨ c = '\t' := by
        simpa [isIndent] using List.all_eq_true.1 b.blank c (by simp [hb])
      rcases hc with rfl | rfl
      · exact stops_cons.2 hp.1
      · exact stops_cons.2 hp.2

theorem Blanks.reads (b : Blanks) (hr : Stops isIndent rest) :
    (Peg.rule .indent).Reads behind b.chars rest b.tree :=
  reads_indent b.blank hr

/-- What may follow a value after blanks. -/
inductive Ends : List Char → Prop where
  | comma (cs : List Char) : Ends (',' :: cs)
  | semicolon (cs : List Char) : Ends (';' :: cs)
  | newline (cs : List Char) : Ends ('\n' :: cs)
  | comment (cs : List Char) : Ends ('/' :: '/' :: cs)

theorem Ends.stops {p : Char → Bool} (h : Ends after)
    (hp : [',', ';', '\n', '/'].all (fun c => !p c) = true) : Stops p after := by
  simp only [List.all_cons, List.all_nil, Bool.and_eq_true, Bool.not_eq_true'] at hp
  cases h <;> simp [hp]

theorem Ends.expressionEnds (h : Ends after) (b : Blanks) :
    expressionEnds (b.chars ++ after) = true := by
  have hwidth := indentWidth_append b.blank (h.stops (p := isIndent) (by decide))
  rw [Grammar.expressionEnds, hwidth, List.drop_left]
  cases h <;> rfl

def ValueEnds (rest : List Char) : Prop := ∃ (b : Blanks) (after : List Char),
  rest = b.chars ++ after ∧ Ends after

theorem ValueEnds.stops_isWord (h : ValueEnds rest) : Stops isWord rest := by
  obtain ⟨b, after, rfl, hafter⟩ := h
  exact b.stops (by decide) (hafter.stops (by decide))

/-! ## Values -/

theorem Name.solid (n : Name) (rest : List Char) : Solid (n.chars ++ rest) := by
  obtain ⟨c, cs, hcs, hc, _, _⟩ := isIdentifier_cons n.whole
  rw [hcs]
  exact solid_of_isWord hc

theorem Name.reads (n : Name) (hr : Stops isWord rest) :
    (Peg.rule .identifier).Reads behind n.chars rest (.node .identifier n.inside .nil) :=
  reads_identifier n.whole hr

theorem Name.ident_inside (n : Name) : n.inside.ident = n.content := by
  simp [Forest.ident, Name.inside, Forest.text, Name.content]

namespace Operand

/-- An operand begins with a word character or with a quote. -/
theorem head (o : Operand) : ∃ c cs, o.chars = c :: cs ∧ (isWord c = true ∨ c = '\'') := by
  cases o with
  | int chars whole =>
      cases chars with
      | nil => cases whole
      | cons c cs =>
          refine ⟨c, cs, rfl, .inl (isWord_of_isHexDigit c (isHexDigit_of_isPlainDigit c ?_))⟩
          by_contra hc
          rw [integerWidth_eq_none (by simpa using hc)] at whole
          cases whole
  | rune chars whole =>
      obtain ⟨body, hbody, _⟩ := Rune.form_of_runeWidth whole
      exact ⟨'\'', body ++ ['\''], hbody, .inr rfl⟩
  | name n =>
      obtain ⟨c, cs, hcs, hc, _, _⟩ := isIdentifier_cons n.whole
      exact ⟨c, cs, hcs, .inl hc⟩

theorem solid (o : Operand) (rest : List Char) : Solid (o.chars ++ rest) := by
  obtain ⟨c, cs, hcs, hc⟩ := o.head
  rw [hcs]
  rcases hc with hc | rfl
  · exact solid_of_isWord hc
  · exact solid_cons (by decide) (by decide)

theorem reads (o : Operand) (hr : Stops isWord rest) :
    (Peg.rule .operand).Reads behind o.chars rest o.tree := by
  refine reads_rule ?_
  cases o with
  | int chars whole =>
      exact reads_choice_first (reads_lexeme rfl (integerWidth_append whole hr))
  | rune chars whole =>
      refine reads_choice_second (refuses_lexeme rfl ?_)
        (reads_choice_first (reads_lexeme rfl (runeWidth_append whole rest)))
      obtain ⟨body, rfl, _⟩ := Rune.form_of_runeWidth whole
      show integerWidth ('\'' :: (body ++ ['\''] ++ rest)) = none
      exact integerWidth_eq_none (by decide)
  | name n =>
      refine reads_choice_second (refuses_lexeme rfl ?_)
        (reads_choice_second (refuses_lexeme rfl ?_) (n.reads hr))
      · obtain ⟨c, cs, hcs, _, hd, _⟩ := isIdentifier_cons n.whole
        rw [chars, hcs]
        exact integerWidth_eq_none (isPlainDigit_eq_false hd)
      · obtain ⟨c, cs, hcs, hc, _, _⟩ := isIdentifier_cons n.whole
        rw [chars, hcs]
        exact runeWidth_eq_none (ne_of_isWord hc (by decide))

theorem operand_inside (o : Operand) : o.inside.operand = .ok o.content := by
  cases o with
  | int chars whole =>
      simp [inside, Forest.operand, Forest.lexeme, Forest.first?, Forest.text, content]
  | rune chars whole =>
      simp [inside, Forest.operand, Forest.lexeme, Forest.first?, Forest.text, content,
        Rune.value_eq_code whole, Except.map]
  | name n =>
      simp [inside, Forest.operand, Forest.lexeme, Forest.first?, Forest.text, content,
        Forest.ident, Name.content]

end Operand

theorem Sign.reads (s : Sign) :
    (Peg.rule .addOp).Reads behind [s.char] rest (.lexeme .addOp [s.char]) := by
  refine reads_rule ?_
  cases s with
  | plus => exact reads_choice_first (reads_lit '+')
  | minus => exact reads_choice_second (refuses_lit (by simp [Sign.char])) (reads_lit '-')

theorem refuses_addOp (hplus : Stops (· == '+') rest) (hminus : Stops (· == '-') rest) :
    (Peg.rule .addOp).Refuses behind rest :=
  refuses_rule (refuses_choice (refuses_lit hplus) (refuses_lit hminus))

namespace Value

theorem solid (v : Value) (rest : List Char) : Solid (v.chars ++ rest) := by
  cases v with
  | single o => exact o.solid rest
  | sum left before sign after right =>
      rw [chars, List.append_assoc]
      exact left.solid _

theorem reads_shape (v : Value) (b : Blanks) (h : Ends after) :
    (Peg.rule .simpleShape).Reads behind v.chars (b.chars ++ after)
      (.node .simpleShape v.shape .nil) := by
  have hword : Stops isWord (b.chars ++ after) := ValueEnds.stops_isWord ⟨b, after, rfl, h⟩
  refine reads_rule ?_
  cases v with
  | single o =>
      refine reads_choice_second (refuses_rule ?_) (o.reads hword)
      refine refuses_seq_second (o.reads hword) ?_
      refine refuses_seq_second (b.reads (h.stops (by decide))) ?_
      exact refuses_seq_first (refuses_addOp (h.stops (by decide)) (h.stops (by decide)))
  | sum left before sign gap right =>
      refine reads_choice_first (reads_rule ?_)
      have hsign : isWord sign.char = false ∧ isIndent sign.char = false := by
        cases sign <;> decide
      refine reads_seq (left.reads ?_) ?_
      · rw [List.append_assoc]
        exact before.stops (by decide) (stops_cons.2 hsign.1)
      refine reads_seq (before.reads (stops_cons.2 hsign.2)) ?_
      refine reads_seq sign.reads ?_
      exact reads_seq (reads_trivia gap (right.solid _)) (right.reads hword)

theorem reads (v : Value) (h : ValueEnds rest) :
    (Peg.rule .expr).Reads behind v.chars rest (.node .expr v.inside .nil) := by
  obtain ⟨b, after, rfl, hafter⟩ := h
  refine reads_rule (reads_choice_first (reads_rule ?_))
  have hend : (Peg.rule .exprEnd).Reads (v.chars.reverse ++ behind) [] (b.chars ++ after)
      (.lexeme .exprEnd []) := by
    refine reads_lexeme (t := .expressionEnd) rfl ?_
    simp [Token.width, hafter.expressionEnds b]
  have hshape : (Peg.rule .simpleShape).Reads behind v.chars ([] ++ (b.chars ++ after)) _ :=
    v.reads_shape b hafter
  have hseq := reads_seq hshape hend
  rwa [List.append_nil] at hseq

theorem value_inside (v : Value) : v.inside.value = .ok v.content := by
  cases v with
  | single o => exact o.operand_inside
  | sum left before sign after right =>
      simp [inside, shape, Forest.value, Forest.reach?, Forest.binary, Forest.every, Forest.first?,
        Operand.tree, Blanks.tree, Forest.lexeme, Forest.append, Forest.text, left.operand_inside,
        right.operand_inside, content, pure, Except.pure]

end Value
/-! ## Lists -/

/-- No comma follows after blanks. -/
theorem refuses_comma (b : Blanks) (hi : Stops isIndent after) (hc : Stops (· == ',') after)
    (r : Rule) : (Peg.all (.rule .indent) [Peg.lit ',', .rule .trivia, .rule r]).Refuses behind
      (b.chars ++ after) :=
  refuses_seq_second (b.reads hi) (refuses_seq_first (refuses_lit hc))

section Lists

variable {α : Type} {r : Rule} {chars : α → List Char} {inside : α → Forest}
  {ends : List Char → Prop}

theorem ends_tail (hcomma : ∀ (b : Blanks) rest, ends (b.chars ++ ',' :: rest))
    (tail : List (Blanks × List Filler × α)) (h : ends rest) :
    ends (Listed.tailText chars tail ++ rest) := by
  rcases tail with _ | ⟨⟨before, gap, a⟩, tail⟩
  · exact h
  · simp only [Listed.tailText, List.append_assoc]
    exact hcomma before _

/-- A list is read item by item, up to what is no comma. -/
theorem reads_listed (l : Listed α)
    (hitem : ∀ a behind rest, ends rest →
      (Peg.rule r).Reads behind (chars a) rest (.node r (inside a) .nil))
    (hsolid : ∀ a rest, Solid (chars a ++ rest))
    (hcomma : ∀ (b : Blanks) rest, ends (b.chars ++ ',' :: rest)) (hends : ends rest)
    (hlast : ∀ behind,
      (Peg.all (.rule .indent) [Peg.lit ',', .rule .trivia, .rule r]).Refuses behind rest) :
    (Peg.all (.rule r) [.many (Peg.all (.rule .indent)
      [Peg.lit ',', .rule .trivia, .rule r])]).Reads behind (l.text chars) rest
        (l.tree r inside) := by
  have htail : ∀ (tail : List (Blanks × List Filler × α)) behind,
      (Peg.many (Peg.all (.rule .indent) [Peg.lit ',', .rule .trivia, .rule r])).Reads behind
        (Listed.tailText chars tail) rest (Listed.tailTree r inside tail) := by
    intro tail
    induction tail with
    | nil => exact fun behind => reads_many_nil fun _ => hlast behind
    | cons step tail ih =>
        obtain ⟨before, gap, a⟩ := step
        intro behind
        refine reads_many_cons (by simp) ?_ (ih _)
        refine reads_seq (before.reads (by simp [isIndent])) ?_
        refine reads_seq (reads_lit ',') ?_
        exact reads_seq (reads_trivia gap (hsolid a _)) (hitem a _ _ (ends_tail hcomma tail hends))
  exact reads_seq (hitem _ _ _ (ends_tail hcomma l.tail hends)) (htail l.tail _)

theorem every_tree (l : Listed α) (hr : r ≠ .indent ∧ r ≠ .trivia) :
    (l.tree r inside).every r = l.items.map inside := by
  have htail : ∀ tail : List (Blanks × List Filler × α),
      (Listed.tailTree r inside tail).every r = (tail.map (·.2.2)).map inside := by
    intro tail
    induction tail with
    | nil => rfl
    | cons step tail ih =>
        obtain ⟨before, gap, a⟩ := step
        simp only [Forest.every] at ih
        simp [Listed.tailTree, Forest.every, Blanks.tree, Forest.lexeme, hr.1.symm, hr.2.symm, ih]
  have h := htail l.tail
  simp only [Forest.every] at h
  simp [Listed.tree, Listed.items, Forest.every, h]

end Lists

theorem reads_names (l : Listed Name) (hr : Stops isWord rest)
    (hlast : ∀ behind, (Peg.all (.rule .indent)
      [Peg.lit ',', .rule .trivia, .rule .identifier]).Refuses behind rest) :
    (Peg.rule .identifierList).Reads behind (l.text Name.chars) rest
      (.node .identifierList (l.tree .identifier Name.inside) .nil) :=
  reads_rule (reads_listed l (fun n _ rest (h : Stops isWord rest) => n.reads h) Name.solid
    (fun b _ => b.stops (by decide) (stops_cons.2 (by decide))) hr hlast)

theorem reads_values (l : Listed Value) (hr : ValueEnds rest)
    (hlast : ∀ behind, (Peg.all (.rule .indent)
      [Peg.lit ',', .rule .trivia, .rule .expr]).Refuses behind rest) :
    (Peg.rule .exprList).Reads behind (l.text Value.chars) rest
      (.node .exprList (l.tree .expr Value.inside) .nil) :=
  reads_rule (reads_listed l (fun v _ _ h => v.reads h) Value.solid
    (fun b rest => ⟨b, _, rfl, .comma rest⟩) hr hlast)

/-! ## Types -/

namespace TypeName

theorem head (t : TypeName) : ∃ c cs, t.chars = c :: cs ∧ isWord c = true := by
  cases t with
  | plain name =>
      obtain ⟨c, cs, hcs, hc, _, _⟩ := isIdentifier_cons name.whole
      exact ⟨c, cs, hcs, hc⟩
  | qualified scope name =>
      obtain ⟨c, cs, hcs, hc, _, _⟩ := isIdentifier_cons scope.whole
      exact ⟨c, cs ++ (['.'] ++ name.chars), by rw [chars, hcs]; rfl, hc⟩

theorem reads (t : TypeName) (hr : Stops isWord rest) (hpoint : Stops (· == '.') rest) :
    (Peg.rule .typeName).Reads behind t.chars rest (.node .typeName t.inside .nil) := by
  refine reads_rule ?_
  cases t with
  | plain name =>
      refine reads_choice_second (refuses_rule ?_) (name.reads hr)
      exact refuses_seq_second (name.reads hr) (refuses_seq_first (refuses_lit hpoint))
  | qualified scope name =>
      refine reads_choice_first (reads_rule (reads_seq (scope.reads ?_) ?_))
      · exact stops_cons.2 (by decide)
      · exact reads_seq (reads_lit '.') (name.reads hr)

theorem refuses (h : Stops isWord rest) : (Peg.rule .typeName).Refuses behind rest :=
  refuses_rule (refuses_choice (refuses_rule (refuses_seq_first (refuses_identifier h)))
    (refuses_identifier h))

theorem typeRef_inside (t : TypeName) : t.inside.typeRef [.identifier] = t.content := by
  cases t with
  | plain name =>
      simp [inside, Forest.typeRef, Forest.reach?, Forest.first?, Forest.lexeme, Forest.ident,
        Forest.text, content, Name.content]
  | qualified scope name =>
      have hfirst : Stops isBlank (scope.chars ++ '.' :: name.chars) :=
        stops_isBlank_append (all_isWord_of_isIdentifier scope.whole)
          (ne_nil_of_isIdentifier scope.whole) _
      have hlast : Stops isBlank (scope.chars ++ '.' :: name.chars).reverse := by
        rw [List.reverse_append, List.reverse_cons, List.append_assoc]
        exact stops_isBlank_append (by simpa using all_isWord_of_isIdentifier name.whole)
          (by simpa using ne_nil_of_isIdentifier name.whole) _
      simp [inside, Forest.typeRef, Forest.reach?, Forest.first?, Forest.lexeme, Forest.append,
        Forest.trimmed, Forest.text, content, trim_eq_self hfirst hlast]

end TypeName

/-! ## Specifications -/

namespace Close

/-- The comment of a close, which belongs to the specification. -/
def remark : Close → List Char
  | .line | .semicolon => []
  | .comment body _ => '/' :: '/' :: body

/-- The mark of a close, which does not. -/
def mark : Close → List Char
  | .line | .comment _ _ => []
  | .semicolon => [';']

def tree : Close → Forest
  | .line | .semicolon => .nil
  | .comment body _ =>
      .node .lineComment ((Forest.lexeme .commentText ('/' :: '/' :: body)).append .nil) .nil

theorem text_eq (c : Close) : c.text = c.remark ++ c.mark := by
  cases c <;> simp [text, remark, mark]

theorem ends (c : Close) (more : List Char) : Ends (c.remark ++ (c.mark ++ '\n' :: more)) := by
  cases c with
  | line => exact .newline more
  | semicolon => exact .semicolon _
  | comment body oneLine => exact .comment _

theorem stops {p : Char → Bool} (c : Close) (hp : [';', '\n', '/'].all (fun c => !p c) = true)
    (more : List Char) : Stops p (c.remark ++ (c.mark ++ '\n' :: more)) := by
  simp only [List.all_cons, List.all_nil, Bool.and_eq_true, Bool.not_eq_true'] at hp
  cases c <;> simp [remark, mark, hp]

theorem refuses_lineComment (h : shortCommentWidth rest = none) :
    (Peg.rule .lineComment).Refuses behind rest :=
  refuses_rule (refuses_seq_first (refuses_lexeme rfl h))

theorem reads (c : Close) (more : List Char) :
    (Peg.optional (.rule .lineComment)).Reads behind c.remark (c.mark ++ '\n' :: more) c.tree := by
  cases c with
  | line | semicolon => exact reads_optional_none fun _ => refuses_lineComment rfl
  | comment body oneLine =>
      refine reads_optional_some (by simp [remark]) (reads_rule ?_)
      have hbody : (Peg.rule .commentText).Reads behind ('/' :: '/' :: body)
          ([] ++ '\n' :: more) (.lexeme .commentText ('/' :: '/' :: body)) := by
        refine reads_lexeme (t := .shortComment) rfl ?_
        show shortCommentWidth _ = _
        rw [shortCommentWidth, lineCommentWidth_append oneLine (by simp), Option.some_or,
          Nat.add_comm]
        rfl
      have hseq := reads_seq hbody (reads_many_nil fun _ =>
        refuses_indented (by simp [isIndent]) (refuses_lexeme (r := .commentText) rfl rfl))
      rwa [List.append_nil] at hseq

theorem text_tree (c : Close) :
    ((c.tree.first? .lineComment).bind fun f => (Comment.text f.text).map String.ofList) =
      c.content := by
  cases c with
  | line | semicolon => rfl
  | comment body oneLine => simp [tree, Forest.first?, Forest.lexeme, Forest.text, content]

end Close

namespace Spec

def lead (s : Spec) : Blanks := s.values.elim s.before (·.before)

def last (s : Spec) : Blanks := s.values.elim .none fun _ => s.before

def first (s : Spec) : Blanks := s.type.elim s.lead (·.gap)

def typeChars (s : Spec) : List Char := s.type.elim [] fun t => t.name.chars ++ s.lead.chars

def valueChars (s : Spec) : List Char :=
  s.values.elim [] fun v => ['='] ++ (Filler.text v.after ++ v.list.text Value.chars)

def typeTree (s : Spec) : Forest :=
  s.type.elim .nil fun t =>
    .node .constType ((Forest.node .typeName t.name.inside .nil).append s.lead.tree) .nil

def valueTree (s : Spec) : Forest :=
  s.values.elim .nil fun v =>
    .node .constValues ((Forest.leaf ['='] .nil).append
      ((Forest.lexeme .trivia (Filler.text v.after)).append
        (.node .exprList (v.list.tree .expr Value.inside) .nil))) .nil

def chars (s : Spec) : List Char :=
  s.names.text Name.chars ++ (s.first.chars ++ (s.typeChars ++ (s.valueChars ++
    (s.last.chars ++ s.close.remark))))

def inside (s : Spec) : Forest :=
  (Forest.node .identifierList (s.names.tree .identifier Name.inside) .nil).append
    (s.first.tree.append (s.typeTree.append (s.valueTree.append
      (s.last.tree.append s.close.tree))))

theorem text_eq (s : Spec) :
    s.text = s.chars ++ (s.close.mark ++ Filler.text (.newline :: s.after)) := by
  rcases s with ⟨names, _ | type, _ | values, before, close, after⟩ <;>
    simp [text, chars, first, typeChars, lead, valueChars, last, TypePart.text, ValuePart.text,
      Close.text_eq, Blanks.none]

/-- What follows the type begins with an equals sign or closes the specification. -/
theorem stops_tail {p : Char → Bool} (s : Spec)
    (hp : ['=', ';', '\n', '/'].all (fun c => !p c) = true) (more : List Char) :
    Stops p ((s.valueChars ++ (s.last.chars ++ s.close.remark)) ++
      (s.close.mark ++ '\n' :: more)) := by
  simp only [List.all_cons, Bool.and_eq_true, Bool.not_eq_true'] at hp
  unfold valueChars last
  cases s.values with
  | none =>
      rw [List.append_assoc]
      exact s.close.stops (by simp [hp]) more
  | some v => exact stops_cons.2 hp.1

theorem reads_values (s : Spec) (more : List Char) :
    (Peg.optional (.rule .constValues)).Reads behind s.valueChars
      ((s.last.chars ++ s.close.remark) ++ (s.close.mark ++ '\n' :: more)) s.valueTree := by
  unfold valueChars last valueTree
  cases s.values with
  | none =>
      refine reads_optional_none fun _ => refuses_rule (refuses_seq_first (refuses_lit ?_))
      exact s.close.stops (by decide) more
  | some v =>
      refine reads_optional_some (by simp) (reads_rule ?_)
      refine reads_seq (reads_lit '=') (reads_seq (reads_trivia v.after ?_) ?_)
      · rw [Listed.text, List.append_assoc]
        exact v.list.head.solid _
      · rw [Option.elim_some, List.append_assoc]
        exact Written.reads_values v.list ⟨s.before, _, rfl, s.close.ends more⟩ fun _ =>
          refuses_comma s.before (s.close.stops (by decide) more) (s.close.stops (by decide) more) _

theorem reads_type (s : Spec) (more : List Char) :
    (Peg.optional (.rule .constType)).Reads behind s.typeChars
      ((s.valueChars ++ (s.last.chars ++ s.close.remark)) ++ (s.close.mark ++ '\n' :: more))
        s.typeTree := by
  have hword := s.stops_tail (p := isWord) (by decide) more
  unfold typeChars typeTree
  cases s.type with
  | none =>
      exact reads_optional_none fun _ => refuses_rule (refuses_seq_first (TypeName.refuses hword))
  | some t =>
      obtain ⟨c, cs, hcs, _⟩ := t.name.head
      refine reads_optional_some (by simp [hcs]) (reads_rule (reads_seq (t.name.reads ?_ ?_) ?_))
      · exact s.lead.stops (by decide) hword
      · exact s.lead.stops (by decide) (s.stops_tail (by decide) more)
      · exact s.lead.reads (s.stops_tail (by decide) more)

/-- What follows the blanks after the names is a type or the tail. -/
theorem stops_type {p : Char → Bool} (s : Spec) (hword : ∀ c, isWord c = true → p c = false)
    (hp : ['=', ';', '\n', '/'].all (fun c => !p c) = true) (more : List Char) :
    Stops p ((s.typeChars ++ (s.valueChars ++ (s.last.chars ++ s.close.remark))) ++
      (s.close.mark ++ '\n' :: more)) := by
  rw [List.append_assoc]
  unfold typeChars
  cases s.type with
  | none => exact s.stops_tail hp more
  | some t =>
      obtain ⟨c, cs, hcs, hc⟩ := t.name.head
      rw [Option.elim_some, hcs]
      exact stops_cons.2 (hword c hc)

/-- The names end before the blanks, which a type does not do without. -/
theorem stops_first (s : Spec) (more : List Char) :
    Stops isWord ((s.first.chars ++ (s.typeChars ++ (s.valueChars ++
      (s.last.chars ++ s.close.remark)))) ++ (s.close.mark ++ '\n' :: more)) := by
  rw [List.append_assoc]
  have hnone := s.stops_tail (p := isWord) (by decide) more
  unfold first typeChars
  cases s.type with
  | none => exact s.lead.stops (by decide) hnone
  | some t =>
      obtain ⟨c, cs, hcs⟩ := List.exists_cons_of_ne_nil t.apart
      have hgap := t.gap.stops (p := isWord) (by decide) (stops_nil _)
      rw [List.append_nil, hcs] at hgap
      rw [Option.elim_some, hcs]
      exact stops_cons.2 (stops_cons.1 hgap)

theorem reads (s : Spec) (more : List Char) :
    (Peg.rule .constSpec).Reads behind s.chars (s.close.mark ++ '\n' :: more)
      (.node .constSpec s.inside .nil) := by
  have hindent := s.stops_type (p := isIndent) (fun _ => isIndent_eq_false_of_isWord)
    (by decide) more
  have hcomma := s.stops_type (p := (· == ','))
    (fun _ hc => by simpa using ne_of_isWord hc (by decide)) (by decide) more
  refine reads_rule (reads_seq (reads_names s.names (s.stops_first more) ?_) ?_)
  · intro behind
    rw [List.append_assoc]
    exact refuses_comma s.first hindent hcomma _
  refine reads_seq (s.first.reads hindent) ?_
  refine reads_seq (s.reads_type more) (reads_seq (s.reads_values more) ?_)
  exact reads_seq (s.last.reads (s.close.stops (by decide) more)) (s.close.reads more)

theorem constSpec_inside (s : Spec) : s.inside.constSpec = .ok s.content := by
  have hnames : (s.inside.first? .identifierList).map (·.every .identifier) =
      some (s.names.items.map Name.inside) :=
    congrArg some (every_tree s.names (r := .identifier) (by decide))
  have htype : s.inside.reach? [.constType, .typeName] = s.type.map (·.name.inside) := by
    rcases s with ⟨names, _ | type, _ | values, before, _ | _ | _, after⟩ <;> rfl
  have hvalues : s.inside.reach? [.constValues, .exprList] =
      s.values.map (·.list.tree .expr Value.inside) := by
    rcases s with ⟨names, _ | type, _ | values, before, _ | _ | _, after⟩ <;> rfl
  have hclose : s.inside.first? .lineComment = s.close.tree.first? .lineComment := by
    rcases s with ⟨names, _ | type, _ | values, before, _ | _ | _, after⟩ <;> rfl
  have hitems : ((s.values.map (·.list.tree .expr Value.inside)).map (·.every .expr)).getD [] =
      (s.values.elim [] fun v => v.list.items).map Value.inside := by
    cases s.values with
    | none => rfl
    | some v => exact every_tree v.list (by decide)
  have hcontent : (s.values.elim [] fun v => v.list.items).map Value.content =
      s.values.elim [] fun v => v.list.items.map Value.content := by
    cases s.values <;> rfl
  unfold Forest.constSpec
  rw [hnames, htype, hvalues, hclose, s.close.text_tree, hitems, mapM_map_ok Value.value_inside,
    hcontent]
  simp [content, Name.ident_inside, TypeName.typeRef_inside, pure, Except.pure, Function.comp_def]

end Spec

/-! ## Blocks -/

theorem Close.reads_stmtEnd (c : Close) (more : List Char) :
    (Peg.rule .stmtEnd).Reads behind c.mark ('\n' :: more)
      (.node .stmtEnd ((Forest.lexeme .indent []).append (.leaf c.mark .nil)) .nil) := by
  cases c with
  | line | comment _ _ => exact reads_stmtEnd_bare (by simp [isIndent]) (by simp)
  | semicolon => exact reads_stmtEnd_semicolon

namespace Spec

def groupedInside (s : Spec) : Forest :=
  (Forest.node .constSpec s.inside .nil).append
    ((Forest.node .stmtEnd
      ((Forest.lexeme .indent []).append (.leaf s.close.mark .nil)) .nil).append
      (.lexeme .trivia (Filler.text (.newline :: s.after))))

theorem solid (s : Spec) (rest : List Char) : Solid (s.text ++ rest) := by
  rw [text_eq, chars, Listed.text]
  simp only [List.append_assoc]
  exact s.names.head.solid _

theorem text_ne_nil (s : Spec) : s.text ≠ [] := by
  simp [text]

theorem reads_grouped (s : Spec) (hr : Solid rest) :
    (Peg.rule .groupedConst).Reads behind s.text rest
      (.node .groupedConst s.groupedInside .nil) := by
  rw [text_eq]
  refine reads_rule (reads_seq ?_ (reads_seq ?_ (reads_trivia _ hr)))
  · rw [List.append_assoc]
    exact s.reads _
  · exact s.close.reads_stmtEnd _

end Spec

def specsTree : List Spec → Forest
  | [] => .nil
  | s :: specs => (Forest.node .groupedConst s.groupedInside .nil).append (specsTree specs)

theorem solid_specs (specs : List Spec) (more : List Char) :
    Solid (specs.flatMap Spec.text ++ ')' :: more) := by
  cases specs with
  | nil => exact solid_cons (by decide) (by decide)
  | cons s specs =>
      rw [List.flatMap_cons, List.append_assoc]
      exact s.solid _

theorem reads_specs (specs : List Spec) (behind more : List Char) :
    (Peg.many (.rule .groupedConst)).Reads behind (specs.flatMap Spec.text) (')' :: more)
      (specsTree specs) := by
  induction specs generalizing behind with
  | nil =>
      refine reads_many_nil fun _ => refuses_rule (refuses_seq_first (refuses_rule ?_))
      refine refuses_seq_first (refuses_rule (refuses_seq_first (refuses_identifier ?_)))
      exact stops_cons.2 (by decide)
  | cons s specs ih =>
      exact reads_many_cons s.text_ne_nil (s.reads_grouped (solid_specs specs more)) (ih _)

theorem every_specsTree (specs : List Spec) :
    (specsTree specs).every .groupedConst = specs.map Spec.groupedInside := by
  induction specs with
  | nil => rfl
  | cons s specs ih =>
      simp only [Forest.every] at ih
      simp [specsTree, Forest.every, ih]

namespace Block

def group (b : Block) : Forest :=
  (Forest.leaf ['('] .nil).append ((Forest.lexeme .trivia (Filler.text b.opening)).append
    ((specsTree b.specs).append (.leaf [')'] .nil)))

def constDecl (b : Block) : Forest :=
  (Forest.lexeme .constKw "const".toList).append (b.beforeGroup.tree.append
    (.node .constBody (.node .constGroup b.group .nil) .nil))

def groupText (b : Block) : List Char :=
  ['('] ++ (Filler.text b.opening ++ (b.specs.flatMap Spec.text ++ [')']))

def declText (b : Block) : List Char := "const".toList ++ (b.beforeGroup.chars ++ b.groupText)

theorem reads_decl (b : Block) :
    (Peg.rule .topDecl).Reads behind b.declText []
      (.node .topDecl (.node .constDecl b.constDecl .nil) .nil) := by
  refine reads_rule (reads_choice_second (refuses_rule (refuses_seq_first ?_))
    (reads_choice_first (reads_rule ?_)))
  · exact refuses_lexeme rfl rfl
  refine reads_seq (reads_lexeme (t := .keyword ["const".toList]) rfl ?_) ?_
  · refine keywordWidth_append [] [] (by simp) ?_
    rw [List.append_assoc]
    exact b.beforeGroup.stops (by decide) (stops_cons.2 (by decide))
  refine reads_seq (b.beforeGroup.reads (stops_cons.2 (by decide))) ?_
  refine reads_rule (reads_choice_first (reads_rule ?_))
  refine reads_seq (reads_lit '(') (reads_seq (reads_trivia _ ?_) ?_)
  · rw [List.append_assoc]
    exact solid_specs b.specs _
  · exact reads_seq (reads_specs b.specs _ _) (reads_lit ')')

theorem decl_constDecl (b : Block) :
    (Forest.node .constDecl b.constDecl .nil).decl =
      .ok (.consts (b.specs.map Spec.content) true {}) := by
  have hevery : b.group.every .groupedConst = b.specs.map Spec.groupedInside := by
    have h := every_specsTree b.specs
    simp only [Forest.every] at h
    simp [group, Forest.every, Forest.lexeme, h]
  have hspecs : Forest.specs (b.constDecl.first? .constBody) .constGroup .groupedConst .constSpec =
      (b.specs.map Spec.inside, true) := by
    show ((b.group.every .groupedConst).filterMap (·.first? .constSpec), true) = _
    rw [hevery, List.filterMap_map]
    have hfirst : ((fun f : Forest => f.first? .constSpec) ∘ Spec.groupedInside) =
        fun s : Spec => some s.inside := rfl
    rw [hfirst, List.filterMap_eq_map']
  have htype : (Forest.node .constDecl b.constDecl .nil).first? .typeDecl = none := rfl
  have hconst : (Forest.node .constDecl b.constDecl .nil).first? .constDecl =
    some b.constDecl := rfl
  simp only [Forest.decl, htype, hconst, hspecs, mapM_map_ok Spec.constSpec_inside, ok_bind]
  rfl

def topLevel (b : Block) : Forest :=
  (Forest.lexeme .trivia (Filler.text [.newline])).append
    ((Forest.node .topDecl (.node .constDecl b.constDecl .nil) .nil).append
      (.node .stmtEnd ((Forest.lexeme .indent []).append (.leaf [] .nil)) .nil))

def inside (b : Block) : Forest :=
  (Forest.lexeme .trivia []).append
    ((Forest.node .packageClause (.packageClause b.beforePackage.chars b.package.chars) .nil).append
      (((Forest.node .topLevel b.topLevel .nil).append .nil).append (.lexeme .trivia [])))

theorem text_eq (b : Block) :
    b.text = [] ++ (("package".toList ++ (b.beforePackage.chars ++ b.package.chars)) ++
      (((Filler.text [.newline] ++ (b.declText ++ [])) ++ []) ++ [])) := by
  unfold text declText groupText
  generalize "package".toList = package
  generalize "const".toList = const
  simp

theorem reads (b : Block) :
    (Peg.rule .sourceFile).Reads [] b.text [] (.node .sourceFile b.inside .nil) := by
  rw [text_eq]
  refine reads_rule (reads_seq (reads_trivia [] ?_) (reads_seq
    (reads_packageClause b.beforePackage.blank b.package.whole ?_) (reads_seq ?_ ?_)))
  · exact solid_cons (by decide) (by decide)
  · exact stops_cons.2 (by decide)
  · refine reads_many_cons (by simp) (reads_rule ?_) (reads_many_nil (absurd rfl))
    refine reads_seq (reads_trivia _ ?_) (reads_seq b.reads_decl ?_)
    · exact solid_cons (by decide) (by decide)
    · exact reads_stmtEnd_bare (stops_nil _) (stops_nil _)
  · exact reads_trivia [] rfl

theorem sourceFile_inside (b : Block) (path : String) :
    b.inside.sourceFile path = .ok (b.content path) := by
  have hdecls : (b.inside.every .topLevel).filterMap (·.first? .topDecl) =
      [.node .constDecl b.constDecl .nil] := rfl
  have hpackage : b.inside.reach? [.packageClause, .identifier] =
      some (.leaf b.package.chars .nil) := rfl
  simp [Forest.sourceFile, hdecls, hpackage, b.decl_constDecl, Forest.text, Block.content, pure,
    Except.pure]

end Block

/-- Every written block is read as what it declares. -/
theorem parse_written_block (b : Block) (path : String) :
    ∃ parsed, SourceFile.parse path (String.ofList b.text) = .ok parsed ∧
      parsed.unplaced = b.content path :=
  SourceFile.parse_of_reads path b.reads (b.sourceFile_inside path)

/-- The text of a block whose first value goes over the end of its line. -/
example : Block.text
    { beforePackage := ⟨[' '], rfl⟩
      package := ⟨['p'], by decide⟩
      beforeGroup := .none
      opening := [.line ['!'] (by decide), .space '\t' (by decide)]
      specs :=
        [{ names := ⟨⟨['A'], by decide⟩, [(.none, [], ⟨['B'], by decide⟩)]⟩
           type := some ⟨⟨[' '], rfl⟩, by decide, .qualified ⟨['t'], by decide⟩ ⟨['T'], by decide⟩⟩
           values := some ⟨⟨[' '], rfl⟩, [], ⟨.sum (.rune ['\'', 'x', '\''] rfl) .none .minus
             [.space '\n' (by decide)] (.int ['0', 'x', 'f'] rfl), []⟩⟩
           before := .none
           close := .semicolon
           after := [.block ['*'] (by decide)] },
         { names := ⟨⟨['C'], by decide⟩, []⟩
           type := none
           values := none
           before := ⟨[' '], rfl⟩
           close := .comment [' ', 'c'] (by decide)
           after := [] }] } =
    "package p\nconst(//!\n\tA,B t.T ='x'-\n0xf;\n/***/C // c\n)".toList := by
  decide +kernel

end EnumNames.Written
