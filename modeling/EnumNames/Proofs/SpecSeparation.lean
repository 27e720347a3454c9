import EnumNames.Proofs.NodePlaces

/-!
What separates the specifications of a group. No rule calls for a line end or a
semicolon between them. Where a specification ends in a value or a type, no name
can follow on the line, since it would belong to the value or the type; and a
comment within the line belongs to the specification. So the next one is behind a
line end or a semicolon, but for three ways out: a block comment at the end, a
type without a value, and white space other than blanks.
-/

namespace EnumNames.Grammar

open EnumNames.Text

variable {e e' : Peg} {r : Rule} {f g : Forest} {behind cs rest : List Char}

/-! ## Names that do not follow -/

def Named (cs : List Char) : Prop := ∃ n, identifierWidth cs = some n

theorem Named.cons (h : Named cs) : ∃ c more, cs = c :: more ∧ isWord c = true := by
  obtain ⟨n, hn⟩ := h
  cases cs with
  | nil => cases hn
  | cons c more =>
      refine ⟨c, more, rfl, ?_⟩
      by_contra hc
      rw [identifierWidth_eq_none (stops_cons.2 (by simpa using hc))] at hn
      cases hn

/-- On the line behind what the expression takes stands no name. -/
def Peg.Closed (e : Peg) : Prop :=
  ∀ behind cs rest f, e.Reads behind cs rest f →
    ∀ blanks more, rest = blanks ++ more → blanks.all isIndent = true → ¬ Named more

namespace Peg.Closed

theorem rule (h : r.body.Closed) : (Peg.rule r).Closed := by
  intro behind cs rest f hreads
  obtain ⟨g, _, hbody⟩ := body_of_reads hreads
  exact h behind cs rest g hbody

theorem seq (e : Peg) (h : e'.Closed) : (Peg.seq e e').Closed := by
  intro behind cs rest f hreads
  obtain ⟨a, b, _, g, _, _, hb, _⟩ := parts_of_reads_seq hreads
  exact h _ b rest g hb

theorem choice (h : e.Closed) (h' : e'.Closed) : (Peg.choice e e').Closed := by
  intro behind cs rest f hreads
  rcases parts_of_reads_choice hreads with hreads | ⟨_, hreads⟩
  · exact h behind cs rest f hreads
  · exact h' behind cs rest f hreads

/-- After a repetition the last item decides, or what stands before it. -/
theorem seq_many (h : e.Closed) (h' : e'.Closed) (he' : e'.mayBeEmpty = false) :
    (Peg.seq e (.many e')).Closed := by
  intro behind cs rest f hreads blanks more hrest hblanks
  obtain ⟨a, b, g, _, _, ha, hb, _⟩ := parts_of_reads_seq hreads
  have hlast : b = [] ∨ ¬ Named more := by
    refine hb.many_induction (P := fun _ b _ => b = [] ∨ ¬ Named more) he' ?_ ?_
    · exact fun _ _ => .inl rfl
    · rintro _ a b _ _ ha _ (rfl | hnone)
      · exact .inr (h' _ _ _ _ ha blanks more hrest hblanks)
      · exact .inr hnone
  rcases hlast with rfl | hnone
  · exact h behind a rest g ha blanks more hrest hblanks
  · exact hnone

end Peg.Closed

theorem endsExpression_of_isWord {c : Char} (h : isWord c = true) (cs : List Char) :
    endsExpression (c :: cs) = false := by
  have hne : ∀ d, isWord d = false → (c == d) = false := fun d hd => by
    simpa using ne_of_isWord h hd
  rw [endsExpression, hne '\n' (by decide), hne ',' (by decide), hne ';' (by decide),
    hne ')' (by decide), hne '\r' (by decide), hne '/' (by decide)]
  rfl

theorem closed_exprEnd : (Peg.rule .exprEnd).Closed := by
  refine .rule fun behind cs rest f hreads blanks more hrest hblanks hnamed => ?_
  obtain ⟨c, ds, rfl, hc⟩ := hnamed.cons
  have hwidth := (width_of_reads hreads).1
  simp only [Token.width] at hwidth
  split at hwidth
  · next hends =>
      obtain rfl : cs = [] := List.length_eq_zero_iff.1 (Option.some.inj hwidth).symm
      rw [List.nil_append, hrest, expressionEnds_eq,
        List.dropWhile_append_of_pos (List.all_eq_true.1 hblanks),
        dropWhile_of_stops (stops_cons.2 (isIndent_eq_false_of_isWord hc)),
        endsExpression_of_isWord hc] at hends
      cases hends
  · cases hwidth

/-- A repetition ends where its item is refused. -/
theorem refuses_of_reads_many (he : e.mayBeEmpty = false)
    (h : (Peg.many e).Reads behind cs rest f) (hne : rest ≠ []) :
    e.Refuses (cs.reverse ++ behind) rest := by
  refine h.many_induction (P := fun behind cs _ => e.Refuses (cs.reverse ++ behind) rest) he ?_ ?_
  · exact fun _ hno => hno hne
  · intro behind a b _ _ _ _ hb
    simpa using hb

/-- A name is a piece of an expression. -/
theorem not_refuses_exprPiece (h : Named cs) : ¬ (Peg.rule .exprPiece).Refuses behind cs := by
  intro hno
  obtain ⟨c, more, rfl, hc⟩ := h.cons
  have hno := (parts_of_refuses_choice (body_of_refuses hno)).2
  have hno := (parts_of_refuses_choice hno).2
  have hno := (parts_of_refuses_choice (parts_of_refuses_choice hno).2).2
  have hwidth := lexeme_of_refuses rfl (parts_of_refuses_choice hno).1
  simp [Token.width, runWidth, isBare_of_isWord hc] at hwidth

/-- Pieces go on for as long as they can. -/
theorem closed_pieces {gap : Rule}
    (he : (Peg.seq (.rule gap) (.rule .exprPiece)).mayBeEmpty = false)
    (hgap : ∀ behind blanks more, blanks.all isIndent = true → Named more →
      (Peg.rule gap).Reads behind blanks more (.lexeme gap blanks)) :
    (Peg.many (.seq (.rule gap) (.rule .exprPiece))).Closed := by
  intro behind cs rest f hreads blanks more hrest hblanks hnamed
  have hne : rest ≠ [] := by
    obtain ⟨c, ds, rfl, _⟩ := hnamed.cons
    simp [hrest]
  have hno := refuses_of_reads_many he hreads hne
  rw [hrest] at hno
  rcases parts_of_refuses_seq hno with hno | ⟨a, b, g, heq, ha, hno⟩
  · exact (hgap _ blanks more hblanks hnamed).not_refuses hno
  · obtain ⟨rfl, rfl, _⟩ := (hgap _ blanks more hblanks hnamed).unique ha heq
    exact not_refuses_exprPiece hnamed hno

theorem closed_expr : (Peg.rule .expr).Closed := by
  refine .rule (.choice (.rule (.seq _ closed_exprEnd)) (.rule (.seq _ (closed_pieces rfl ?_))))
  intro behind blanks more hblanks hnamed
  obtain ⟨c, ds, rfl, hc⟩ := hnamed.cons
  exact reads_gap hblanks (stops_cons.2 (isIndent_eq_false_of_isWord hc)) (solid_of_isWord hc)

theorem closed_constValues : (Peg.rule .constValues).Closed :=
  .rule (.seq _ (.seq _ (.rule (.seq_many closed_expr (.seq _ (.seq _ (.seq _ closed_expr))) rfl))))

theorem closed_typeExpr : (Peg.rule .typeExpr).Closed := by
  refine .rule (.choice (.rule (.seq _ closed_exprEnd)) (.rule (.seq _ (closed_pieces rfl ?_))))
  intro behind blanks more hblanks hnamed
  obtain ⟨c, ds, rfl, hc⟩ := hnamed.cons
  exact reads_indent hblanks (stops_cons.2 (isIndent_eq_false_of_isWord hc))

/-! ## Comments at the end -/

@[simp] theorem Forest.append_nil (f : Forest) : f.append .nil = f := by
  induction f with
  | nil => rfl
  | leaf _ _ ih | node _ _ _ _ ih => simp [append, ih]

@[simp] theorem Forest.every_append (f g : Forest) (r : Rule) :
    (f.append g).every r = f.every r ++ g.every r := by
  simp [every]

def Forest.ClosesBlock (f : Forest) : Prop :=
  ∃ t ∈ (f.every .commentText).getLast?, ['/', '*'] <+: t.text

theorem Forest.ClosesBlock.append (h : g.ClosesBlock) (f : Forest) : (f.append g).ClosesBlock := by
  obtain ⟨t, ht, hblock⟩ := h
  refine ⟨t, ?_, hblock⟩
  rw [every_append, List.getLast?_append, Option.mem_def.1 ht]
  rfl

/-- A comment to the end of its line is followed by the line end. -/
theorem closesBlock_commentText (h : (Peg.rule .commentText).Reads behind cs rest f) :
    f.ClosesBlock ∨ ∀ c ∈ rest.head?, c = '\n' := by
  obtain ⟨hwidth, rfl⟩ := lexeme_of_reads (t := .shortComment) rfl h
  rcases Option.or_eq_some_iff.1 hwidth with hline | ⟨_, hblock⟩
  · obtain ⟨_, _, _, hstop⟩ := form_of_lineCommentWidth hline
    exact .inr fun c hc => by simpa using hstop c hc
  · obtain ⟨body, rfl, _, _⟩ := form_of_blockCommentWidth hblock
    exact .inl ⟨_, rfl, by simp [Forest.text]⟩

theorem closesBlock_lineComment (h : (Peg.rule .lineComment).Reads behind cs rest f) :
    (∃ g, f = .node .lineComment g .nil ∧ g.ClosesBlock) ∨ ∀ c ∈ rest.head?, c = '\n' := by
  obtain ⟨g, rfl, hbody⟩ := body_of_reads h
  obtain ⟨a, b, g, g', _, ha, hb, rfl⟩ := parts_of_reads_seq hbody
  have hlast : (b = [] ∧ g' = .nil) ∨ g'.ClosesBlock ∨ ∀ c ∈ rest.head?, c = '\n' := by
    refine hb.many_induction (P := fun _ b g' =>
      (b = [] ∧ g' = .nil) ∨ g'.ClosesBlock ∨ ∀ c ∈ rest.head?, c = '\n') rfl ?_ ?_
    · exact fun _ _ => .inl ⟨rfl, rfl⟩
    · rintro _ a b g g' ha _ (⟨rfl, rfl⟩ | hblock | hline)
      · obtain ⟨_, _, g, g', _, _, htext, rfl⟩ := parts_of_reads_seq ha
        rcases closesBlock_commentText htext with hblock | hline
        · exact .inr (.inl (by simpa using hblock.append g))
        · exact .inr (.inr hline)
      · exact .inr (.inl (hblock.append g))
      · exact .inr (.inr hline)
  rcases hlast with ⟨rfl, rfl⟩ | hblock | hline
  · rcases closesBlock_commentText ha with hblock | hline
    · exact .inl ⟨_, rfl, by simpa using hblock⟩
    · exact .inr hline
  · exact .inl ⟨_, rfl, hblock.append g⟩
  · exact .inr hline

/-! ## Ends of specifications -/

def Forest.EndsInBlock (f : Forest) : Prop := ∃ c ∈ f.every .lineComment, c.ClosesBlock

/-- A constant has a type and no value. -/
def Forest.TypedOnly (f : Forest) : Prop :=
  (f.first? .constType).isSome = true ∧ f.first? .constValues = none

/-- How a specification ends: with nothing behind it that it could have taken, with its line, or
with a block comment. -/
inductive SpecEnd (f : Forest) (rest : List Char) : Prop where
  | apart (blanks : Stops isIndent rest) (comment : shortCommentWidth rest = none)
      (name : ¬ Named rest)
  | line (newline : ∀ c ∈ rest.head?, c = '\n')
  | block (comment : f.EndsInBlock)

theorem SpecEnd.append (h : SpecEnd g rest) (f : Forest) : SpecEnd (f.append g) rest := by
  cases h with
  | apart blanks comment name => exact .apart blanks comment name
  | line newline => exact .line newline
  | block comment =>
      obtain ⟨c, hc, hblock⟩ := comment
      exact .block ⟨c, by simp [hc], hblock⟩

theorem blanks_of_reads (h : (Peg.rule .indent).Reads behind cs rest f) :
    cs.all isIndent = true ∧ Stops isIndent rest :=
  run_of_takeWhile (Option.some.inj (lexeme_of_reads (t := .indent) rfl h).1)

theorem shortCommentWidth_of_refuses
    (h : rest ≠ [] → (Peg.rule .lineComment).Refuses behind rest) :
    shortCommentWidth rest = none := by
  by_cases hne : rest = []
  · rw [hne]
    rfl
  · rcases parts_of_refuses_seq (body_of_refuses (h hne)) with hno | ⟨a, b, g, _, _, hno⟩
    · exact lexeme_of_refuses rfl hno
    · exact absurd hno (Peg.not_refuses_many _ _ _)

/-- Behind its last part a specification has blanks and comments. -/
theorem specEnd_tail
    (h : (Peg.seq (.rule .indent) (.optional (.rule .lineComment))).Reads behind cs rest f)
    (hname : cs.all isIndent = true → Stops isIndent rest → ¬ Named rest) : SpecEnd f rest := by
  obtain ⟨a, b, g, g', rfl, ha, hb, rfl⟩ := parts_of_reads_seq h
  rcases parts_of_reads_optional hb with hcomment | ⟨rfl, rfl, hno⟩
  · rcases closesBlock_lineComment hcomment with ⟨c, rfl, hblock⟩ | hline
    · have hmem : c ∈ (Forest.node .lineComment c .nil).every .lineComment := by
        simp [Forest.every]
      exact .append (.block ⟨c, hmem, hblock⟩) g
    · exact .line hline
  · obtain ⟨hblanks, hstops⟩ := blanks_of_reads ha
    exact .apart hstops (shortCommentWidth_of_refuses hno) (hname (by simpa using hblanks) hstops)

def Peg.EndsSpec (e : Peg) : Prop :=
  ∀ behind cs rest f, e.Reads behind cs rest f → SpecEnd f rest

theorem Peg.EndsSpec.seq (e : Peg) (h : e'.EndsSpec) : (Peg.seq e e').EndsSpec := by
  intro behind cs rest f hreads
  obtain ⟨a, b, g, g', _, _, hb, rfl⟩ := parts_of_reads_seq hreads
  exact (h _ _ _ _ hb).append g

theorem Peg.Closed.endsSpec (he : e.Closed) :
    (Peg.seq e (.seq (.rule .indent) (.optional (.rule .lineComment)))).EndsSpec := by
  intro behind cs rest f hreads
  obtain ⟨a, b, g, g', rfl, ha, hb, rfl⟩ := parts_of_reads_seq hreads
  exact (specEnd_tail hb fun hblanks _ => he _ _ _ _ ha b rest rfl hblanks).append g

theorem endsSpec_typeSpec : Rule.typeSpec.body.EndsSpec :=
  .seq _ (.seq _ (.seq _ (.seq _ closed_typeExpr.endsSpec)))

/-- A name that follows blanks is a type. -/
theorem not_named_of_refuses_constType
    (h : rest ≠ [] → (Peg.rule .constType).Refuses behind rest) : ¬ Named rest := by
  rintro ⟨n, hn⟩
  have hne : rest ≠ [] := by
    rintro rfl
    cases hn
  rcases parts_of_refuses_seq (body_of_refuses (h hne)) with hno | ⟨a, b, g, _, _, hno⟩
  · have hname := lexeme_of_refuses rfl (parts_of_refuses_choice (body_of_refuses hno)).2
    rw [show identifierWidth rest = none from hname] at hn
    cases hn
  · cases lexeme_of_refuses (t := .indent) rfl hno

theorem specEnd_constSpec (h : Rule.constSpec.body.Reads behind cs rest f) :
    SpecEnd f rest ∨ f.TypedOnly := by
  obtain ⟨_, _, g₁, _, _, hnames, h₁, rfl⟩ := parts_of_reads_seq h
  obtain ⟨_, _, g₂, _, rfl, hindent, h₂, rfl⟩ := parts_of_reads_seq h₁
  obtain ⟨_, _, g₃, _, rfl, htype, h₃, rfl⟩ := parts_of_reads_seq h₂
  obtain ⟨_, b, g₄, g₅, rfl, hvalues, htail, rfl⟩ := parts_of_reads_seq h₃
  rcases parts_of_reads_optional hvalues with hvalues | ⟨rfl, rfl, _⟩
  · have hend := closed_constValues.endsSpec _ _ _ _ (reads_seq hvalues htail)
    exact .inl (((hend.append g₃).append g₂).append g₁)
  · rcases parts_of_reads_optional htype with htype | ⟨rfl, rfl, hno⟩
    · right
      obtain ⟨_, rfl, _⟩ := body_of_reads hnames
      obtain ⟨_, rfl, _⟩ := body_of_reads hindent
      obtain ⟨_, rfl, _⟩ := body_of_reads htype
      obtain ⟨_, _, _, _, _, hblanks, hcomment, rfl⟩ := parts_of_reads_seq htail
      obtain ⟨_, rfl, _⟩ := body_of_reads hblanks
      rcases parts_of_reads_optional hcomment with hcomment | ⟨_, rfl, _⟩
      · obtain ⟨_, rfl, _⟩ := body_of_reads hcomment
        exact ⟨rfl, rfl⟩
      · exact ⟨rfl, rfl⟩
    · -- All blanks before the rest belong to the names.
      have hstops := (blanks_of_reads hindent).2
      have hend : SpecEnd g₅ rest := specEnd_tail htail fun hblanks _ => by
        cases b with
        | nil => exact not_named_of_refuses_constType hno
        | cons c b =>
            have hc : isIndent c = true := (List.all_eq_true.1 hblanks) c (by simp)
            exact absurd hc (by simp [stops_cons.1 hstops])
      exact .inl ((((hend.append .nil).append .nil).append g₂).append g₁)

/-! ## Groups -/

/-- What is between two specifications has a line end or a semicolon in it. -/
def Separates (gap : List Char) : Prop := '\n' ∈ gap ∨ ';' ∈ gap

instance (gap : List Char) : Decidable (Separates gap) :=
  inferInstanceAs (Decidable ('\n' ∈ gap ∨ ';' ∈ gap))

/-- It begins with white space other than blanks. -/
def OddlySpaced (gap : List Char) : Prop := ∃ c ∈ gap.head?, isVertical c = true

/-- White space and comments that a specification could not take separate it from a name. -/
theorem separates_filler {parts : List Filler} (hrest : Named rest)
    (hblanks : Stops isIndent (Filler.text parts ++ rest))
    (hcomment : shortCommentWidth (Filler.text parts ++ rest) = none)
    (hname : ¬ Named (Filler.text parts ++ rest)) :
    Separates (Filler.text parts) ∨ OddlySpaced (Filler.text parts) := by
  cases parts with
  | nil => exact absurd hrest hname
  | cons part parts =>
      rw [Filler.text_cons, List.append_assoc] at hblanks hcomment
      rw [Filler.text_cons]
      cases part with
      | space c white =>
          have hc : isIndent c = false := stops_cons.1 hblanks
          exact .inr ⟨c, rfl, by simp [isVertical, white, hc]⟩
      | line body oneLine => exact .inl (.inl (by simp [Filler.chars]))
      | block body unclosed =>
          by_cases hline : '\n' ∈ body
          · exact .inl (.inl (by simp [Filler.chars, hline]))
          · have hall : body.all (· != '\n') = true := by
              refine List.all_eq_true.2 fun c hc => bne_iff_ne.2 ?_
              rintro rfl
              exact hline hc
            have hwidth : inlineCommentWidth (Filler.chars (.block body unclosed) ++
                (Filler.text parts ++ rest)) = some (body.length + 4) := by
              simpa [inlineCommentWidth, Filler.chars] using blockCommentWidth_append unclosed hall _
            simp [shortCommentWidth, hwidth] at hcomment

/-- After a specification of a group comes its end, and then another one. -/
theorem separates_of_specEnd {gap : List Char} (h : SpecEnd f (gap ++ rest)) (hrest : Named rest)
    (hgap : (Peg.seq (.rule .stmtEnd) (.rule .trivia)).Reads behind gap rest g) :
    Separates gap ∨ OddlySpaced gap ∨ f.EndsInBlock := by
  obtain ⟨c, more, hcons, hc⟩ := hrest.cons
  cases h with
  | block comment => exact .inr (.inr comment)
  | line newline =>
      left
      cases gap with
      | nil =>
          obtain rfl : c = '\n' := newline c (by simp [hcons])
          exact absurd hc (by decide)
      | cons d gap =>
          obtain rfl : d = '\n' := newline d (by simp)
          exact .inl (by simp)
  | apart blanks comment name =>
      obtain ⟨a, b, _, _, rfl, ha, hb, _⟩ := parts_of_reads_seq hgap
      obtain ⟨_, _, hbody⟩ := body_of_reads ha
      obtain ⟨i, s, _, _, rfl, hi, hs, _⟩ := parts_of_reads_seq hbody
      rcases form_of_semicolon (Option.some.inj (width_of_reads hs).1) with rfl | ⟨rfl, _⟩
      · exact .inl (.inr (by simp))
      · obtain ⟨hblanks, _⟩ := blanks_of_reads hi
        obtain rfl : i = [] := by
          cases i with
          | nil => rfl
          | cons d i =>
              have hd : isIndent d = true := List.all_eq_true.1 hblanks d (by simp)
              exact absurd hd (by simp [stops_cons.1 blanks])
        have hwidth := (lexeme_of_reads (t := .trivia) rfl hb).1
        obtain ⟨_, parts, rfl⟩ :=
          filler_of_triviaWidth (Option.some.inj hwidth) (by simp [hcons])
        exact (separates_filler hrest blanks comment name).imp id .inl

/-! ## Trees -/

def between (text : List Char) (a b : Branch) : List Char :=
  (text.drop a.stop).take (b.start - a.stop)

inductive SpecKind where
  | types
  | consts
  deriving DecidableEq, Repr

namespace SpecKind

def decl : SpecKind → Rule
  | .types => .typeDecl
  | .consts => .constDecl

def body : SpecKind → Rule
  | .types => .typeBody
  | .consts => .constBody

def bracketed : SpecKind → Rule
  | .types => .typeGroup
  | .consts => .constGroup

def item : SpecKind → Rule
  | .types => .groupedType
  | .consts => .groupedConst

def spec : SpecKind → Rule
  | .types => .typeSpec
  | .consts => .constSpec

def specs (k : SpecKind) (top : Branch) : List Branch × Bool :=
  Reader.specs ((top.first? k.decl).bind (·.first? k.body)) k.bracketed k.item k.spec

variable (k : SpecKind)

theorem bracketed_body : k.bracketed.body =
    .seq (.lit '(') (.seq (.rule .trivia) (.seq (.many (.rule k.item)) (.lit ')'))) := by
  cases k <;> rfl

theorem item_body : k.item.body = .seq (.rule k.spec) (.seq (.rule .stmtEnd) (.rule .trivia)) := by
  cases k <;> rfl

theorem item_mayBeEmpty : (Peg.rule k.item).mayBeEmpty = false := by
  cases k <;> rfl

/-- A specification begins with a name. -/
theorem named_spec (h : k.spec.body.Reads behind cs rest f) : Named (cs ++ rest) := by
  have hname : ∀ {a b : List Char} {g : Forest}, (Peg.rule .identifier).Reads behind a b g →
      Named (a ++ b) := fun h => ⟨_, (lexeme_of_reads (t := .identifier) rfl h).1⟩
  cases k with
  | types =>
      obtain ⟨a, b, _, _, rfl, ha, _, _⟩ := parts_of_reads_seq h
      simpa using hname ha
  | consts =>
      obtain ⟨a, b, _, _, rfl, ha, _, _⟩ := parts_of_reads_seq h
      obtain ⟨_, _, hlist⟩ := body_of_reads ha
      obtain ⟨a, b', _, _, rfl, ha, _, _⟩ := parts_of_reads_seq hlist
      simpa using hname ha

theorem specEnd (h : k.spec.body.Reads behind cs rest f) :
    SpecEnd f rest ∨ k = .consts ∧ f.TypedOnly := by
  cases k with
  | types => exact .inl (endsSpec_typeSpec _ _ _ _ h)
  | consts => exact (specEnd_constSpec h).imp id fun htyped => ⟨rfl, htyped⟩

end SpecKind

structure Row (r : Rule) (start : Nat) (bs : List Branch) : Prop where
  head : ∀ b ∈ bs.head?, b.start = start
  rules : ∀ b ∈ bs, b.rule = r
  adjacent : ∀ i a b, bs[i]? = some a → bs[i + 1]? = some b → a.stop = b.start

theorem row_of_reads_many (hr : (Peg.rule r).mayBeEmpty = false)
    (h : (Peg.many (.rule r)).Reads behind cs rest f) (start : Nat) :
    Row r start (f.branches start) := by
  refine h.many_induction (P := fun _ _ f => ∀ start, Row r start (f.branches start)) hr ?_ ?_ start
  · exact fun _ _ _ =>
      ⟨by simp [Forest.branches], by simp [Forest.branches], by simp [Forest.branches]⟩
  · intro behind a b g g' ha _ hb start
    obtain ⟨inside, rfl, _⟩ := body_of_reads ha
    have hrow := hb (start + inside.width)
    refine ⟨by simp [Forest.append, Forest.branches], ?_, ?_⟩
    · simpa [Forest.append, Forest.branches] using hrow.rules
    · intro i a b ha hb
      cases i with
      | zero =>
          obtain rfl : (⟨r, start, inside⟩ : Branch) = a := by
            simpa [Forest.append, Forest.branches] using ha
          refine (hrow.head b ?_).symm
          simpa [Forest.append, Forest.branches, List.head?_eq_getElem?] using hb
      | succ i =>
          simp only [Forest.append, Forest.branches, List.getElem?_cons_succ] at ha hb
          exact hrow.adjacent i a b ha hb

namespace SpecKind

variable (k : SpecKind) {text : List Char} {g x : Branch}

theorem row_items (hg : Placed text g) (hr : g.rule = k.bracketed) :
    ∃ start, Row k.item start (g.every k.item) := by
  obtain ⟨behind, rest, _, _, hreads⟩ := hg
  rw [hr, bracketed_body] at hreads
  obtain ⟨_, _, g₁, g₂, _, hopen, h₁, hinside⟩ := parts_of_reads_seq hreads
  obtain ⟨_, _, g₃, g₄, _, htrivia, h₂, rfl⟩ := parts_of_reads_seq h₁
  obtain ⟨_, _, g₅, g₆, _, hmany, hclose, rfl⟩ := parts_of_reads_seq h₂
  obtain ⟨_, rfl⟩ := lit_of_reads hopen
  obtain ⟨_, rfl⟩ := lit_of_reads hclose
  obtain ⟨inside, rfl, _⟩ := body_of_reads htrivia
  have hrow := row_of_reads_many k.item_mayBeEmpty hmany (g.start + 1 + inside.width)
  have hitem : Rule.trivia ≠ k.item := by cases k <;> decide
  have hevery : g.every k.item = g₅.branches (g.start + 1 + inside.width) := by
    rw [Branch.every, Branch.children, hinside]
    simp only [Forest.append, Forest.branches, Forest.branches_append, List.append_nil,
      List.filter_cons, beq_iff_eq, hitem, if_false, List.length_cons, List.length_nil]
    exact List.filter_eq_self.2 fun b hb => by simpa using hrow.rules b hb
  exact ⟨_, hevery ▸ hrow⟩

structure ItemAt (text : List Char) (x : Branch) (inside : Forest) (gap rest : List Char) : Prop where
  spec : x.first? k.spec = some ⟨k.spec, x.start, inside⟩
  text_eq : text.drop x.start = inside.text ++ (gap ++ rest)
  stop : x.stop = x.start + inside.width + gap.length
  reads : ∃ behind, k.spec.body.Reads behind inside.text (gap ++ rest) inside
  ends : ∃ behind g, (Peg.seq (.rule .stmtEnd) (.rule .trivia)).Reads behind gap rest g

theorem item_at (hx : Placed text x) (hr : x.rule = k.item) :
    ∃ inside gap rest, k.ItemAt text x inside gap rest := by
  obtain ⟨behind, rest, htext, hstart, hreads⟩ := hx
  rw [hr, item_body] at hreads
  obtain ⟨a, b, _, g, hab, hspec, hend, hinside⟩ := parts_of_reads_seq hreads
  obtain ⟨inside, rfl, hbody⟩ := body_of_reads hspec
  have ha : inside.text = a := hbody.text_eq
  subst ha
  refine ⟨inside, b, rest, ?_, ?_, ?_, ⟨_, hbody⟩, ⟨_, g, hend⟩⟩
  · rw [Branch.first?, Branch.children, hinside]
    simp [Forest.append, Forest.branches]
  · rw [htext, hstart, hab]
    simp
  · rw [Branch.stop, ← x.inside.length_text, hab, List.length_append, inside.length_text,
      Nat.add_assoc]

theorem ItemAt.between_eq {k : SpecKind} {y : Branch} {inside inside' : Forest}
    {gap rest : List Char} (hx : k.ItemAt text x inside gap rest) (hxy : x.stop = y.start) :
    between text ⟨k.spec, x.start, inside⟩ ⟨k.spec, y.start, inside'⟩ = gap := by
  show (text.drop (x.start + inside.width)).take (y.start - (x.start + inside.width)) = gap
  rw [← List.drop_drop, hx.text_eq, ← inside.length_text, List.drop_left, ← hxy, hx.stop,
    inside.length_text, Nat.add_sub_cancel_left, List.take_left]

theorem separates_items {y : Branch} {inside inside' : Forest} {gap gap' rest rest' : List Char}
    (hx : k.ItemAt text x inside gap rest) (hy : k.ItemAt text y inside' gap' rest')
    (hxy : x.stop = y.start) :
    Separates gap ∨ OddlySpaced gap ∨ inside.EndsInBlock ∨ k = .consts ∧ inside.TypedOnly := by
  have hrest : rest = inside'.text ++ (gap' ++ rest') := by
    rw [← hy.text_eq, ← hxy, hx.stop, Nat.add_assoc, ← List.drop_drop, hx.text_eq,
      ← inside.length_text, ← List.length_append, ← List.append_assoc, List.drop_left]
  -- Behind the gap stands the next specification, and every specification begins with a name.
  obtain ⟨_, hreads'⟩ := hy.reads
  have hnamed : Named rest := hrest ▸ k.named_spec hreads'
  obtain ⟨_, hreads⟩ := hx.reads
  obtain ⟨_, _, hends⟩ := hx.ends
  rcases k.specEnd hreads with hend | htyped
  · exact (separates_of_specEnd hend hnamed hends).imp id (Or.imp id .inl)
  · exact .inr (.inr (.inr htyped))

end SpecKind

theorem getElem?_filterMap {α β : Type} {p : α → Option β} {as : List α}
    (h : ∀ a ∈ as, (p a).isSome = true) (i : Nat) : (as.filterMap p)[i]? = as[i]?.bind p := by
  induction as generalizing i with
  | nil => simp
  | cons a as ih =>
      obtain ⟨b, hb⟩ := Option.isSome_iff_exists.1 (h a (by simp))
      have ih := ih fun a' ha' => h a' (by simp [ha'])
      cases i with
      | zero => simp [hb]
      | succ i => simpa [hb] using ih i

/-- Two specifications that follow each other in a group of a source file. -/
inductive SpecKind.Consecutive (k : SpecKind) (text : List Char) (a b : Branch) : Prop where
  | intro (tree top : Branch) (i : Nat) (matched : Rule.sourceFile.matchRest text 0 = .ok tree)
      (declared : top ∈ (tree.every .topLevel).filterMap (·.first? .topDecl))
      (grouped : (k.specs top).2 = true) (first : (k.specs top).1[i]? = some a)
      (second : (k.specs top).1[i + 1]? = some b)

/-- Two specifications that follow each other in a group are separated, unless the first one ends
in a block comment or has a type and no value, or white space other than blanks follows it. -/
theorem specs_separated {text : List Char} {a b : Branch} {k : SpecKind}
    (h : k.Consecutive text a b) :
    Separates (between text a b) ∨ OddlySpaced (between text a b) ∨ a.inside.EndsInBlock ∨
      k = .consts ∧ a.inside.TypedOnly := by
  obtain ⟨tree, top, i, hmatch, htop, hgroup, ha, hb⟩ := h
  obtain ⟨level, hlevel, htop⟩ := List.mem_filterMap.1 htop
  have hplaced := (((placed_of_matchRest hmatch).2.of_mem_every hlevel).2.of_first? htop).2
  unfold SpecKind.specs Reader.specs at hgroup ha hb
  split at hgroup
  · cases hgroup
  · next body hbody =>
      obtain ⟨decl, hdecl, hbody⟩ := Option.bind_eq_some_iff.1 hbody
      split at hgroup
      · next g hg =>
          obtain ⟨hrule, hplaced⟩ := ((hplaced.of_first? hdecl).2.of_first? hbody).2.of_first? hg
          simp only [hdecl, Option.bind_some, hbody, hg] at ha hb
          have hitem : ∀ x ∈ g.every k.item, ∃ inside gap rest, k.ItemAt text x inside gap rest :=
            fun x hx => k.item_at (hplaced.of_mem_every hx).2 (hplaced.of_mem_every hx).1
          have hsome : ∀ x ∈ g.every k.item, (x.first? k.spec).isSome = true := fun x hx => by
            obtain ⟨_, _, _, hat⟩ := hitem x hx
            rw [hat.spec]
            rfl
          rw [getElem?_filterMap hsome] at ha hb
          obtain ⟨x, hx, ha⟩ := Option.bind_eq_some_iff.1 ha
          obtain ⟨y, hy, hb⟩ := Option.bind_eq_some_iff.1 hb
          obtain ⟨inside, gap, rest, hxat⟩ := hitem x (List.mem_of_getElem? hx)
          obtain ⟨inside', gap', rest', hyat⟩ := hitem y (List.mem_of_getElem? hy)
          obtain ⟨_, hrow⟩ := k.row_items hplaced hrule
          have hxy := hrow.adjacent i x y hx hy
          obtain rfl := Option.some.inj (hxat.spec.symm.trans ha)
          obtain rfl := Option.some.inj (hyat.spec.symm.trans hb)
          exact hxat.between_eq hxy ▸ k.separates_items hxat hyat hxy
      · cases hgroup

namespace SpecKind

def firstPair? (k : SpecKind) (text : List Char) : Option (Branch × Branch) := do
  let tree ← (Rule.sourceFile.matchRest text 0).toOption
  let top ← ((tree.every .topLevel).filterMap (·.first? .topDecl))[0]?
  guard ((k.specs top).2 = true)
  let a ← (k.specs top).1[0]?
  let b ← (k.specs top).1[1]?
  pure (a, b)

theorem consecutive_of_firstPair? {k : SpecKind} {text : List Char} {a b : Branch}
    (h : k.firstPair? text = some (a, b)) : k.Consecutive text a b := by
  obtain ⟨tree, htree, h⟩ := Option.bind_eq_some_iff.1 h
  obtain ⟨top, htop, h⟩ := Option.bind_eq_some_iff.1 h
  obtain ⟨_, hgroup, h⟩ := Option.bind_eq_some_iff.1 h
  obtain ⟨a', ha, h⟩ := Option.bind_eq_some_iff.1 h
  obtain ⟨b', hb, h⟩ := Option.bind_eq_some_iff.1 h
  cases h
  have hgrouped : (k.specs top).2 = true := by
    by_contra hno
    simp [guard, hno] at hgroup
  exact ⟨tree, top, 0, ok_of_toOption htree, List.mem_of_getElem? htop, hgrouped, ha, hb⟩

end SpecKind

theorem specs_separated_after_call :
    ∃ a b : Branch,
      SpecKind.consts.Consecutive "package p\nconst (\n\tA = f(x) // one\n\tB = 2\n)\n".toList a b ∧
      (Separates (between "package p\nconst (\n\tA = f(x) // one\n\tB = 2\n)\n".toList a b) ∨
        OddlySpaced (between "package p\nconst (\n\tA = f(x) // one\n\tB = 2\n)\n".toList a b) ∨
        a.inside.EndsInBlock ∨ SpecKind.consts = .consts ∧ a.inside.TypedOnly) := by
  have hpair : (SpecKind.consts.firstPair?
      "package p\nconst (\n\tA = f(x) // one\n\tB = 2\n)\n".toList).isSome = true := by
    decide +kernel
  obtain ⟨⟨a, b⟩, hfirst⟩ := Option.isSome_iff_exists.1 hpair
  have hconsecutive := SpecKind.consecutive_of_firstPair? hfirst
  exact ⟨a, b, hconsecutive, specs_separated hconsecutive⟩

/-- The text is accepted with two constants of a group that nothing separates. -/
def Unseparated (text : String) : Prop :=
  (SourceFile.parse "t.go" text).isOk = true ∧
    ∃ a b : Branch, SpecKind.consts.Consecutive text.toList a b ∧
      ¬ Separates (between text.toList a b)

theorem unseparated_of_firstPair? {text : String}
    (hparse : (SourceFile.parse "t.go" text).isOk = true)
    (hpair : ((SpecKind.consts.firstPair? text.toList).any fun p =>
      !decide (Separates (between text.toList p.1 p.2))) = true) : Unseparated text := by
  obtain ⟨⟨a, b⟩, hfirst, hno⟩ := (Option.any_eq_true _ _).1 hpair
  exact ⟨hparse, a, b, SpecKind.consecutive_of_firstPair? hfirst, by simpa using hno⟩

/-- Without a separator two specifications stand on a line after a type without a value, after a
block comment, and on both sides of a carriage return. -/
theorem specs_unseparated :
    Unseparated "package p\nconst (A T B)\n" ∧
      Unseparated "package p\nconst (A = 1 /* c */ B = 2)\n" ∧
      Unseparated "package p\nconst (A = f(x)\rB = 2)\n" :=
  ⟨unseparated_of_firstPair? (by decide +kernel) (by decide +kernel),
    unseparated_of_firstPair? (by decide +kernel) (by decide +kernel),
    unseparated_of_firstPair? (by decide +kernel) (by decide +kernel)⟩

end EnumNames.Grammar
