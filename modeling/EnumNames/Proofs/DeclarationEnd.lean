import EnumNames.Proofs.NestedReading
import EnumNames.Proofs.Unplaced

/-!
Where declarations end. Every rule of a declaration takes nested text and
decides at each place before a boundary. So a declaration that a text is read as
is read in the same way where the text is followed by a line end.
-/

namespace EnumNames.Grammar

open EnumNames.Text

variable {e e' : Peg} {t : Token} {r : Rule} {f : Forest} {B : Boundary} {sealed : Bool}
  {behind cs rest : List Char}

/-- The expression decides before the boundary, and what it takes joins what follows. -/
structure Peg.Tidy (e : Peg) (B : Boundary) (sealed : Bool) : Prop where
  settles : B.Settles e
  nests : e.Nests sealed

namespace Peg.Tidy

theorem rule (h : r.body.Tidy B sealed) : (Peg.rule r).Tidy B sealed :=
  ⟨h.settles.rule, h.nests.rule⟩

theorem seq (h : e.Tidy B sealed) (h' : e'.Tidy B sealed) : (Peg.seq e e').Tidy B sealed :=
  ⟨h.settles.seq h'.settles, h.nests.seq h'.nests⟩

theorem choice (h : e.Tidy B sealed) (h' : e'.Tidy B sealed) : (Peg.choice e e').Tidy B sealed :=
  ⟨h.settles.choice h'.settles, h.nests.choice h'.nests⟩

theorem optional (hB : B.Lawful) (h : e.Tidy B sealed) (he : e.mayBeEmpty = false) :
    (Peg.optional e).Tidy B sealed :=
  ⟨h.settles.optional hB.follows he, h.nests.optional⟩

theorem many (hB : B.Lawful) (h : e.Tidy B sealed) (he : e.mayBeEmpty = false) :
    (Peg.many e).Tidy B sealed :=
  ⟨h.settles.many hB.follows he, h.nests.many he⟩

theorem plain (hB : B.Lawful) (ht : t.Plain) : (Peg.token t).Tidy B sealed :=
  ⟨Boundary.settles_plain hB ht, .plain ht⟩

theorem lit (hB : B.Lawful) {c : Char} (hc : isFlat c = true) (hm : c ∉ boundaryMarks) :
    (Peg.lit c).Tidy B sealed :=
  plain hB (plain_lit hc hm)

/-- After an operator a line may go on. -/
theorem continued (hB : B.Lawful) (h : e.Tidy B sealed)
    (hopen : ∀ behind a rest f, e.Reads behind a rest f → continues (a.reverse ++ behind) = true)
    (h' : e'.Tidy B sealed) (he' : e'.mayBeEmpty = false) :
    (Peg.seq e (.seq (.rule .trivia) e')).Tidy B sealed :=
  ⟨.open hB h.settles hopen h'.settles, h.nests.seq (.seq_solid (.rule .trivia) h'.nests he')⟩

theorem gap (hB : B.Lawful) (h : e.Tidy B sealed) (he : e.mayBeEmpty = false) :
    (Peg.seq (.rule .pieceGap) e).Tidy B sealed :=
  ⟨.seq (.rule (Boundary.settles_gap hB)) h.settles, .seq_solid (.rule .gap) h.nests he⟩

end Peg.Tidy

theorem continues_cons {c : Char} (h : isOpenEnded c = true) (hc : c ≠ '/') (behind : List Char) :
    continues (c :: behind) = true := by
  unfold continues
  split
  · next heq => exact absurd (List.cons.inj heq).1 hc
  · next heq =>
      obtain ⟨rfl, _⟩ := List.cons.inj heq
      exact h
  · next heq => cases heq

theorem continues_of_reads_lit {c : Char} (h : isOpenEnded c = true) (hc : c ≠ '/')
    (behind a rest : List Char)
    (f : Forest) (hreads : (Peg.lit c).Reads behind a rest f) :
    continues (a.reverse ++ behind) = true := by
  obtain ⟨rfl, _⟩ := lit_of_reads hreads
  exact continues_cons h hc behind

/-! ## Expressions -/

section

variable (hB : B.Lawful)
include hB

theorem tidy_identifier : (Peg.rule .identifier).Tidy B sealed := .rule (.plain hB plain_identifier)

theorem tidy_indent : (Peg.rule .indent).Tidy B sealed := .rule (.plain hB plain_indent)

theorem tidy_charLit : (Peg.rule .charLit).Tidy B sealed :=
  ⟨.rule (Boundary.settles_rune hB), .charLit⟩

theorem tidy_exprPiece : (Peg.rule .exprPiece).Tidy B sealed := by
  have hstring : (Peg.rule .stringLit).Tidy B sealed :=
    ⟨.rule (Boundary.settles_string hB), .stringLit⟩
  have hraw : (Peg.rule .rawString).Tidy B sealed :=
    ⟨.rule (Boundary.settles_rawString hB), .rawString⟩
  have hbare : (Peg.rule .bareText).Tidy B sealed := .rule (.plain hB plain_bareText)
  have hslash : (Peg.rule .loneSlash).Tidy B sealed := .rule ⟨Boundary.settles_slash hB, .slash⟩
  exact .rule (.choice ⟨Boundary.settles_group hB, .group⟩ (.choice hstring (.choice hraw
    (.choice (tidy_charLit hB) (.choice hbare hslash)))))

theorem tidy_exprEnd : (Peg.rule .exprEnd).Tidy B sealed := by
  refine .rule ⟨Boundary.settles_expressionEnd hB, .token fun _ cs rest hw => ?_⟩
  simp only [Token.width] at hw
  split at hw
  · obtain rfl := List.length_eq_zero_iff.1 (Option.some.inj hw).symm
    exact joins_nil
  · cases hw

theorem tidy_operand : (Peg.rule .operand).Tidy B sealed :=
  .rule (.choice (.rule (.plain hB plain_integer)) (.choice (tidy_charLit hB) (tidy_identifier hB)))

theorem tidy_binaryExpr : (Peg.rule .binaryExpr).Tidy B sealed := by
  have hop : (Peg.rule .addOp).Tidy B sealed :=
    .rule (.choice (.lit hB (by decide) (by decide)) (.lit hB (by decide) (by decide)))
  refine .rule (.seq (tidy_operand hB) (.seq (tidy_indent hB)
    (.continued hB hop ?_ (tidy_operand hB) rfl)))
  intro behind a rest f hreads
  obtain ⟨g, _, hreads⟩ := body_of_reads hreads
  rcases parts_of_reads_choice hreads with hreads | ⟨_, hreads⟩
  · exact continues_of_reads_lit (by decide) (by decide) behind a rest g hreads
  · exact continues_of_reads_lit (by decide) (by decide) behind a rest g hreads

theorem tidy_expr : (Peg.rule .expr).Tidy B sealed := by
  have hshape : (Peg.rule .simpleShape).Tidy B sealed :=
    .rule (.choice (tidy_binaryExpr hB) (tidy_operand hB))
  have hverbatim : (Peg.rule .verbatimExpr).Tidy B sealed :=
    .rule (.seq (tidy_exprPiece hB) (.many hB (.gap hB (tidy_exprPiece hB) rfl) rfl))
  exact .rule (.choice (.rule (.seq hshape (tidy_exprEnd hB))) hverbatim)

/-- Items with commas between them. -/
theorem tidy_commas (h : e.Tidy B sealed) (he : e.mayBeEmpty = false) :
    (Peg.all e [.many (.all (.rule .indent) [.lit ',', .rule .trivia, e])]).Tidy B sealed :=
  .seq h (.many hB (.seq (tidy_indent hB) (.continued hB (.lit hB (by decide) (by decide))
    (continues_of_reads_lit (by decide) (by decide)) h he)) rfl)

/-! ## Parts of specifications -/

theorem tidy_identifierList : (Peg.rule .identifierList).Tidy B sealed :=
  .rule (tidy_commas hB (tidy_identifier hB) rfl)

theorem tidy_constType : (Peg.rule .constType).Tidy B sealed := by
  have hqualified : (Peg.rule .qualifiedIdent).Tidy B sealed :=
    .rule (.seq (tidy_identifier hB) (.seq (.lit hB (by decide) (by decide)) (tidy_identifier hB)))
  exact .rule (.seq (.rule (.choice hqualified (tidy_identifier hB))) (tidy_indent hB))

theorem tidy_constValues : (Peg.rule .constValues).Tidy B sealed :=
  .rule (.continued hB (.lit hB (by decide) (by decide))
    (continues_of_reads_lit (by decide) (by decide))
    (.rule (tidy_commas hB (tidy_expr hB) rfl)) rfl)

theorem tidy_aliasMark : (Peg.rule .aliasMark).Tidy B sealed :=
  .rule (.seq (.lit hB (by decide) (by decide)) (tidy_indent hB))

theorem tidy_typeExpr : (Peg.rule .typeExpr).Tidy B sealed := by
  have hliteral : (Peg.rule .typeLiteral).Tidy B sealed :=
    .rule (.seq (tidy_exprPiece hB) (.many hB (.seq (tidy_indent hB) (tidy_exprPiece hB)) rfl))
  exact .rule (.choice (.rule (.seq (tidy_identifier hB) (tidy_exprEnd hB))) hliteral)

theorem tidy_lineComment : (Peg.rule .lineComment).Tidy B false := by
  have htext : (Peg.rule .commentText).Tidy B false :=
    .rule ⟨Boundary.settles_comment true hB fun _ _ => rfl, .shortComment⟩
  exact .rule (.seq htext (.many hB (.seq (tidy_indent hB) htext) rfl))

end

/-! ## Brackets -/

/-- Between brackets the expression takes nested text, up to the closing one and what it takes of
the text behind it. -/
structure Peg.Encloses (e : Peg) (B : Boundary) (q : Char) : Prop where
  closes : B.Closes q e
  nested : ∀ behind cs rest f, e.Reads behind cs rest f →
    ∃ inner tail, cs = inner ++ q :: tail ∧ Nested inner ∧ Joins true tail rest

namespace Peg.Encloses

variable {pair : Char × Char}

theorem lit (hp : pair ∈ brackets) : (Peg.lit pair.2).Encloses B pair.2 where
  closes := Boundary.closes_lit hp
  nested := by
    intro behind cs rest f hreads
    obtain ⟨rfl, _⟩ := lit_of_reads hreads
    exact ⟨[], [], rfl, .nil, joins_nil⟩

theorem lit_seq (hfollow : ∃ rest, B.follows rest) (hp : pair ∈ brackets) (h : e.Tidy B true) :
    (Peg.seq (.lit pair.2) e).Encloses B pair.2 where
  closes := Boundary.closes_lit_seq hfollow hp h.settles
  nested := by
    intro behind cs rest f hreads
    obtain ⟨a, b, _, _, rfl, ha, hb, _⟩ := parts_of_reads_seq hreads
    obtain ⟨rfl, _⟩ := lit_of_reads ha
    exact ⟨[], b, rfl, .nil, h.nests _ _ _ _ hb⟩

theorem seq (hp : pair ∈ brackets) (h : e.Tidy (.bracket pair.2) false)
    (h' : e'.Encloses B pair.2) : (Peg.seq e e').Encloses B pair.2 where
  closes := Boundary.closes_seq h.settles h'.closes
  nested := by
    intro behind cs rest f hreads
    have hclose : ∀ pair ∈ brackets, pair.2 ≠ '\n' := by decide
    obtain ⟨a, b, _, _, rfl, ha, hb, _⟩ := parts_of_reads_seq hreads
    obtain ⟨inner, tail, rfl, hinner, htail⟩ := h'.nested _ _ _ _ hb
    have hjoins : Joins false a (inner ++ pair.2 :: tail ++ rest) := h.nests _ _ _ _ ha
    have hfollows : Follows (pair.2 :: tail ++ rest) [] :=
      follows_nil (by simpa using hclose pair hp)
    refine ⟨a ++ inner, tail, by simp, hjoins.nested (.inr (by simp)) inner hinner ?_, htail⟩
    simpa using hfollows.append inner

theorem nests (hp : pair ∈ brackets) (h : e.Encloses B pair.2) :
    (Peg.seq (.lit pair.1) e).Nests sealed := by
  intro behind cs rest f hreads
  obtain ⟨a, b, _, _, rfl, ha, hb, _⟩ := parts_of_reads_seq hreads
  obtain ⟨rfl, _⟩ := lit_of_reads ha
  obtain ⟨inner, tail, rfl, hinner, htail⟩ := h.nested _ _ _ _ hb
  have hgroup : Joins true (pair.1 :: inner ++ [pair.2]) (tail ++ rest) := joins_group hp hinner
  have hjoins : Joins true ([pair.1] ++ (inner ++ pair.2 :: tail)) rest := by
    simpa using hgroup.append htail
  exact hjoins.weaken

end Peg.Encloses

theorem Peg.Tidy.bracketed {pair : Char × Char} (hB : B.Lawful) (hp : pair ∈ brackets)
    (h : e.Encloses B pair.2) : (Peg.seq (.lit pair.1) e).Tidy B sealed :=
  ⟨Boundary.settles_bracketed hB hp h.closes, h.nests hp⟩

theorem tidy_trivia {pair : Char × Char} (hp : pair ∈ brackets) :
    (Peg.rule .trivia).Tidy (.bracket pair.2) false :=
  ⟨Boundary.settles_trivia hp, .rule .trivia⟩

theorem tidy_groupBody {pair : Char × Char} (hp : pair ∈ brackets) :
    (Peg.rule .groupBody).Tidy (.bracket pair.2) false where
  settles := by
    intro behind cs hplace
    obtain ⟨f, hf⟩ := hplace.nested.reads
    refine .inl ⟨cs, [], .node .groupBody f .nil, by simp, .nil, ?_⟩
    rintro _ ⟨more, rfl⟩
    exact reads_rule (hf behind _ ⟨pair, hp, more, rfl⟩)
  nests := .groupBody

theorem encloses_typeParams (hfollow : ∃ rest, B.follows rest)
    (hindent : (Peg.rule .indent).Tidy B true) :
    (Peg.all (.rule .trivia)
      [.rule .identifier, .many (.all (.rule .trivia) [.lit ',', .rule .trivia, .rule .identifier]),
       .token .blanks, .rule .groupBody, .lit ']', .rule .indent]).Encloses B ']' := by
  have hp : ('[', ']') ∈ brackets := by decide
  have hin := Boundary.lawful_bracket hp
  have hname : (Peg.rule .identifier).Tidy (.bracket ']') false := tidy_identifier hin
  have htrivia := tidy_trivia hp
  have hcomma : (Peg.lit ',').Tidy (.bracket ']') false := .lit hin (by decide) (by decide)
  have hnames : (Peg.many (.all (.rule .trivia)
      [.lit ',', .rule .trivia, .rule .identifier])).Tidy (.bracket ']') false :=
    .many hin (.seq htrivia (.seq hcomma (.seq htrivia hname))) rfl
  have hclose : (Peg.seq (.lit ']') (.rule .indent)).Encloses B ']' := .lit_seq hfollow hp hindent
  exact .seq hp htrivia (.seq hp hname (.seq hp hnames
    (.seq hp (.plain hin plain_blanks) (.seq hp (tidy_groupBody hp) hclose))))

theorem tidy_typeParams (hB : B.Lawful) : (Peg.rule .typeParams).Tidy B sealed := by
  have hp : ('[', ']') ∈ brackets := by decide
  exact .rule (.bracketed hB hp (encloses_typeParams hB.follows (tidy_indent hB)))

/-! ## Specifications -/

theorem tidy_constSpec (hB : B.Lawful) : (Peg.rule .constSpec).Tidy B false :=
  .rule (.seq (tidy_identifierList hB) (.seq (tidy_indent hB)
    (.seq (.optional hB (tidy_constType hB) rfl) (.seq (.optional hB (tidy_constValues hB) rfl)
      (.seq (tidy_indent hB) (.optional hB (tidy_lineComment hB) rfl))))))

theorem tidy_typeSpec (hB : B.Lawful) : (Peg.rule .typeSpec).Tidy B false :=
  .rule (.seq (tidy_identifier hB) (.seq (tidy_indent hB)
    (.seq (.optional hB (tidy_typeParams hB) rfl) (.seq (.optional hB (tidy_aliasMark hB) rfl)
      (.seq (tidy_typeExpr hB) (.seq (tidy_indent hB)
        (.optional hB (tidy_lineComment hB) rfl)))))))

theorem tidy_stmtEnd : (Peg.rule .stmtEnd).Tidy (.bracket ')') false := by
  have hp : ('(', ')') ∈ brackets := by decide
  refine .rule (.seq (tidy_indent (Boundary.lawful_bracket hp)) ⟨?_, .token ?_⟩)
  · intro behind cs hplace
    refine Boundary.decides_token (.inl ?_)
    cases cs with
    | nil =>
        refine ⟨[], [], rfl, .nil, ?_⟩
        rintro _ ⟨more, rfl⟩
        rfl
    | cons c cs =>
        by_cases hc : c = ';'
        · subst hc
          exact ⟨[';'], cs, rfl, hplace.nested.tail (by decide), fun _ _ => rfl⟩
        · exact ⟨[], c :: cs, rfl, hplace.nested, fun _ _ => by simp [Token.width, hc]⟩
  · intro behind cs rest hw
    rcases form_of_semicolon (Option.some.inj hw) with rfl | ⟨rfl, _⟩
    · exact joins_plain (by decide)
    · exact joins_nil

/-- A group of specifications, each with its end. -/
theorem encloses_specGroup {item spec : Rule} (h : (Peg.rule spec).Tidy (.bracket ')') false)
    (hitem : item.body = .all (.rule spec) [.rule .stmtEnd, .rule .trivia])
    (hne : item.mayBeEmpty = false) :
    (Peg.all (.rule .trivia) [.many (.rule item), .lit ')']).Encloses B ')' := by
  have hp : ('(', ')') ∈ brackets := by decide
  have hspec : (Peg.rule item).Tidy (.bracket ')') false :=
    .rule (hitem ▸ .seq h (.seq tidy_stmtEnd (tidy_trivia hp)))
  exact .seq hp (tidy_trivia hp) (.seq hp
    (.many (Boundary.lawful_bracket hp) hspec hne) (.lit hp))

theorem encloses_types :
    (Peg.all (.rule .trivia) [.many (.rule .groupedType), .lit ')']).Encloses B ')' := by
  have hp : ('(', ')') ∈ brackets := by decide
  exact encloses_specGroup (tidy_typeSpec (Boundary.lawful_bracket hp)) rfl rfl

theorem encloses_consts :
    (Peg.all (.rule .trivia) [.many (.rule .groupedConst), .lit ')']).Encloses B ')' := by
  have hp : ('(', ')') ∈ brackets := by decide
  exact encloses_specGroup (tidy_constSpec (Boundary.lawful_bracket hp)) rfl rfl

/-! ## Declarations -/

section

variable (hB : B.Lawful)
include hB

theorem tidy_typeGroup : (Peg.rule .typeGroup).Tidy B sealed := by
  have hp : ('(', ')') ∈ brackets := by decide
  exact .rule (.bracketed hB hp encloses_types)

theorem tidy_constGroup : (Peg.rule .constGroup).Tidy B sealed := by
  have hp : ('(', ')') ∈ brackets := by decide
  exact .rule (.bracketed hB hp encloses_consts)

theorem tidy_typeDecl : (Peg.rule .typeDecl).Tidy B false :=
  .rule (.seq (.rule (.plain hB (plain_keyword (by decide)))) (.seq (tidy_indent hB)
    (.rule (.choice (tidy_typeGroup hB) (tidy_typeSpec hB)))))

theorem tidy_constDecl : (Peg.rule .constDecl).Tidy B false :=
  .rule (.seq (.rule (.plain hB (plain_keyword (by decide)))) (.seq (tidy_indent hB)
    (.rule (.choice (tidy_constGroup hB) (tidy_constSpec hB)))))

/-- Commas and semicolons are pieces of a line, so no semicolon may stand at the boundary. -/
theorem tidy_separator (hsemi : ∀ rest, B.follows rest → rest.head? ≠ some ';') :
    (Peg.token .separator).Tidy B sealed where
  settles := by
    intro behind cs hplace
    refine Boundary.decides_token ?_
    cases cs with
    | nil =>
        refine .inr fun rest hr => ?_
        have hcomma : rest.head? ≠ some ',' := fun h =>
          absurd (hB.atBoundary rest hr ',' h) (by decide)
        simp [Token.width, hcomma, hsemi rest hr]
    | cons c cs =>
        by_cases hc : c = ',' ∨ c = ';'
        · have hplain : isGroupText c = true := by rcases hc with rfl | rfl <;> decide
          exact .inl ⟨[c], cs, rfl, hplace.nested.tail hplain, fun _ _ => by simp [Token.width, hc]⟩
        · exact .inr fun _ _ => by simpa [Token.width] using hc
  nests := .token fun behind cs rest hw => by
    simp only [Token.width] at hw
    split at hw
    · next hc =>
        obtain ⟨c, rfl⟩ := List.length_eq_one_iff.1 (Option.some.inj hw).symm
        have hc : c = ',' ∨ c = ';' := by simpa using hc
        exact joins_plain (by rcases hc with rfl | rfl <;> decide)
    · cases hw

theorem tidy_linePieceRun (hsemi : ∀ rest, B.follows rest → rest.head? ≠ some ';') :
    (Peg.rule .linePieceRun).Tidy B sealed := by
  have hcomment : (Peg.rule .inlineComment).Tidy B sealed :=
    .rule ⟨Boundary.settles_comment false hB fun _ _ => rfl, .inlineComment⟩
  have hpiece : (Peg.rule .linePiece).Tidy B sealed :=
    .rule (.choice (tidy_exprPiece hB) (.choice hcomment (tidy_separator hB hsemi)))
  exact .rule (.many hB (.gap hB hpiece rfl) rfl)

theorem tidy_otherDecl (hsemi : ∀ rest, B.follows rest → rest.head? ≠ some ';') :
    (Peg.rule .otherDecl).Tidy B false :=
  .rule (.seq (.rule (.plain hB (plain_keyword (by decide)))) (.seq (tidy_linePieceRun hB hsemi)
    (.seq (tidy_indent hB) (.optional hB (tidy_lineComment hB) rfl))))

end

/-! ## Comments at the end -/

/-- What the expression takes is sealed unless the rules lead to a node of its tree. -/
def Peg.SealsUnless (e : Peg) (path : List Rule) : Prop :=
  ∀ behind cs rest f, e.Reads behind cs rest f → f.reach? path = none → Joins true cs rest

namespace Peg.SealsUnless

variable {path : List Rule}

theorem of_nests (h : e.Nests true) : e.SealsUnless path :=
  fun behind cs rest f hreads _ => h behind cs rest f hreads

theorem rule_self (r : Rule) : (Peg.rule r).SealsUnless [r] := by
  intro behind cs rest f hreads hnone
  obtain ⟨g, rfl, _⟩ := body_of_reads hreads
  simp [Forest.reach?, Forest.first?] at hnone

theorem rule (h : r.body.SealsUnless path) : (Peg.rule r).SealsUnless (r :: path) := by
  intro behind cs rest f hreads hnone
  obtain ⟨g, rfl, hbody⟩ := body_of_reads hreads
  exact h behind cs rest g hbody (by simpa [Forest.reach?, Forest.first?] using hnone)

theorem choice (h : e.SealsUnless path) (h' : e'.SealsUnless path) :
    (Peg.choice e e').SealsUnless path := by
  intro behind cs rest f hreads hnone
  rcases parts_of_reads_choice hreads with hreads | ⟨_, hreads⟩
  · exact h behind cs rest f hreads hnone
  · exact h' behind cs rest f hreads hnone

theorem optional (h : e.SealsUnless path) : (Peg.optional e).SealsUnless path := by
  intro behind cs rest f hreads hnone
  rcases parts_of_reads_optional hreads with hreads | ⟨rfl, _, _⟩
  · exact h behind cs rest f hreads hnone
  · exact joins_nil

theorem seq (h : e.Nests true) (h' : e'.SealsUnless [r]) : (Peg.seq e e').SealsUnless [r] := by
  intro behind cs rest f hreads hnone
  obtain ⟨a, b, g, g', rfl, ha, hb, rfl⟩ := parts_of_reads_seq hreads
  have hnone' : g'.reach? [r] = none := by
    simp only [Forest.reach?, Option.bind_fun_some, Forest.first?, Forest.nodes_append,
      Option.map_eq_none_iff, List.find?_append, Option.or_eq_none_iff] at hnone ⊢
    exact hnone.2
  exact (h _ _ _ _ ha).append (h' _ _ _ _ hb hnone')

theorem rule_seq {r' : Rule} (hr : r' ≠ r) (h : (Peg.rule r').Nests true)
    (h' : e'.SealsUnless (r :: path)) : (Peg.seq (.rule r') e').SealsUnless (r :: path) := by
  intro behind cs rest f hreads hnone
  obtain ⟨a, b, _, g', rfl, ha, hb, rfl⟩ := parts_of_reads_seq hreads
  obtain ⟨g, rfl, _⟩ := body_of_reads ha
  have hnone' : g'.reach? (r :: path) = none := by
    simpa [Forest.reach?, Forest.first?, hr] using hnone
  exact (h _ _ _ _ ha).append (h' _ _ _ _ hb hnone')

end Peg.SealsUnless

def trailingComments : List (List Rule) :=
  [[.typeDecl, .typeBody, .typeSpec, .lineComment],
   [.constDecl, .constBody, .constSpec, .lineComment], [.otherDecl, .lineComment]]

theorem Boundary.lawful_textEnd : (Boundary.lineEnd []).Lawful := lawful_lineEnd (by simp)

theorem seals_typeDecl :
    (Peg.rule .typeDecl).SealsUnless [.typeDecl, .typeBody, .typeSpec, .lineComment] := by
  have hB := Boundary.lawful_textEnd
  have hspec : (Peg.rule .typeSpec).SealsUnless [.typeSpec, .lineComment] :=
    .rule (.seq (tidy_identifier hB).nests (.seq (tidy_indent hB).nests
      (.seq (.optional (tidy_typeParams hB).nests) (.seq (.optional (tidy_aliasMark hB).nests)
        (.seq (tidy_typeExpr hB).nests (.seq (tidy_indent hB).nests
          (.optional (.rule_self .lineComment))))))))
  exact .rule (.rule_seq (by decide) (.rule (.plain (plain_keyword (by decide))))
    (.rule_seq (by decide) (tidy_indent hB).nests
      (.rule (.choice (.of_nests (tidy_typeGroup hB).nests) hspec))))

theorem seals_constDecl :
    (Peg.rule .constDecl).SealsUnless [.constDecl, .constBody, .constSpec, .lineComment] := by
  have hB := Boundary.lawful_textEnd
  have hspec : (Peg.rule .constSpec).SealsUnless [.constSpec, .lineComment] :=
    .rule (.seq (tidy_identifierList hB).nests (.seq (tidy_indent hB).nests
      (.seq (.optional (tidy_constType hB).nests) (.seq (.optional (tidy_constValues hB).nests)
        (.seq (tidy_indent hB).nests (.optional (.rule_self .lineComment)))))))
  exact .rule (.rule_seq (by decide) (.rule (.plain (plain_keyword (by decide))))
    (.rule_seq (by decide) (tidy_indent hB).nests
      (.rule (.choice (.of_nests (tidy_constGroup hB).nests) hspec))))

theorem seals_otherDecl : (Peg.rule .otherDecl).SealsUnless [.otherDecl, .lineComment] := by
  have hB := Boundary.lawful_textEnd
  exact .rule (.seq (.rule (.plain (plain_keyword (by decide))))
    (.seq (tidy_linePieceRun hB fun _ hr hsemi => absurd (hr ';' hsemi) (by simp)).nests
      (.seq (tidy_indent hB).nests (.optional (.rule_self .lineComment)))))

/-- A declaration without a comment at its end is sealed. -/
theorem joins_topDecl (h : (Peg.rule .topDecl).Reads behind cs rest (.node .topDecl f .nil))
    (hf : ∀ path ∈ trailingComments, f.reach? path = none) : Joins true cs rest := by
  obtain ⟨g, hg, hbody⟩ := body_of_reads h
  obtain rfl : f = g := (Forest.node.inj hg).2.1
  simp only [trailingComments, List.forall_mem_cons] at hf
  rcases parts_of_reads_choice hbody with hreads | ⟨_, hreads⟩
  · exact seals_typeDecl _ _ _ _ hreads hf.1
  · rcases parts_of_reads_choice hreads with hreads | ⟨_, hreads⟩
    · exact seals_constDecl _ _ _ _ hreads hf.2.1
    · exact seals_otherDecl _ _ _ _ hreads hf.2.2.1

/-! ## Ends of lines -/

/-- What is read up to the end of a text is read alike where the line ends there. -/
theorem Peg.Reads.before_lineEnd {marks : List Char} (h : e.Reads [] cs [] f)
    (he : (Boundary.lineEnd marks).Settles e) (hcs : Joins true cs [])
    (hindent : Stops isIndent cs.reverse) (hopen : Stops isOpenEnded cs.reverse)
    (hrest : ∀ c ∈ rest.head?, c ∈ marks) : e.Reads [] cs rest f := by
  have hnested : Nested cs := by
    simpa using hcs.nested (.inl rfl) [] .nil (follows_nil (by simp))
  have hspace : Stops isSpace cs.reverse := by
    intro c hc
    have hflat : isVertical c = false := hcs.flat rfl c hc
    simpa [isVertical, hindent c hc] using hflat
  have hplace : (Boundary.lineEnd marks).Place [] cs := ⟨hnested, by simpa using ⟨hspace, hopen⟩⟩
  have hend : (Boundary.lineEnd marks).follows [] := by simp [Boundary.lineEnd]
  rcases he [] cs hplace with ⟨a, b, g, hcs, _, hg⟩ | hno
  · obtain ⟨rfl, hb, rfl⟩ := h.unique (hg [] hend) (by simp [hcs])
    obtain rfl : b = [] := by simpa using hb.symm
    exact hg rest hrest
  · exact absurd (hno [] hend) h.not_refuses

end EnumNames.Grammar
