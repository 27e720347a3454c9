import EnumNames.Proofs.BlockReading
import EnumNames.Proofs.RejectedFile

/-!
Array types with a length that is computed. In `type T [N + 1]U` the bracket may
open a list of type parameters or the length of an array, and parameters are
tried first: a name, blanks, and any text up to the bracket that closes them. The
blanks between the name and the operator decide. Where there are none the type
is kept as it is written and is no integer type; where there are some it is `U`.
-/

namespace EnumNames

open EnumNames.Grammar EnumNames.Text

/-- Two expressions one after the other, with the rest of the first given in any form. -/
theorem Grammar.Peg.Reads.andThen {e e' : Peg} {f g : Forest}
    {behind cs ahead ds rest : List Char} (h : e.Reads behind cs ahead f)
    (h' : e'.Reads (cs.reverse ++ behind) ds rest g) (heq : ahead = ds ++ rest) :
    (Peg.seq e e').Reads behind (cs ++ ds) rest (f.append g) :=
  reads_seq (heq ▸ h) h'

/-! ## Array types as they are written -/

namespace Written

theorem Name.stops {p : Char → Bool} (n : Name) (h : ∀ c, isWord c = true → p c = false)
    (rest : List Char) : Stops p (n.chars ++ rest) := by
  obtain ⟨c, cs, hcs, hc, _, _⟩ := isIdentifier_cons n.whole
  rw [hcs]
  exact stops_cons.2 (h c hc)

/-- The declaration of an array type whose length is the value of a name, an operator and an
integer, with blanks around the operator. -/
structure ArrayType where
  name : Name
  length : Name
  before : Blanks
  operator : Char
  known : operator ∈ ['+', '-', '*', '/', '%']
  after : Blanks
  literal : List Char
  whole : integerWidth literal = some literal.length
  element : Name

namespace ArrayType

def operation (a : ArrayType) : List Char := a.operator :: (a.after.chars ++ a.literal)

def size (a : ArrayType) : List Char := a.length.chars ++ (a.before.chars ++ a.operation)

def array (a : ArrayType) : List Char := '[' :: a.size ++ [']']

def specText (a : ArrayType) : List Char :=
  a.name.chars ++ ([' '] ++ (a.array ++ a.element.chars))

def text (a : ArrayType) : List Char := ['t', 'y', 'p', 'e'] ++ ([' '] ++ a.specText)

/-- The type that is read: the array as written, or the type of its elements if blanks stand
before the operator. -/
def type (a : ArrayType) : TypeRef :=
  if a.before.chars = [] then .verbatim (String.ofList (a.array ++ a.element.chars)) {}
  else .ident a.element.content

def content (a : ArrayType) : TypeSpec := { name := String.ofList a.name.chars, type := a.type }

def fault? (a : ArrayType) : Option Cause :=
  if a.before.chars = [] then some (.typeNotInteger (String.ofList a.name.chars) "")
  else if integerTypes.contains (String.ofList a.element.chars) then none
  else some (.typeNotInteger (String.ofList a.name.chars) (String.ofList a.element.chars))

variable (a : ArrayType) {behind rest : List Char}

theorem operator_apart : isIndent a.operator = false ∧ isSpace a.operator = false ∧
    isWord a.operator = false ∧ a.operator ≠ ',' := by
  have hall : ['+', '-', '*', '/', '%'].all (fun c => !isIndent c && !isSpace c && !isWord c &&
      c != ',') = true := by decide +kernel
  have hop := List.all_eq_true.1 hall a.operator a.known
  simp only [Bool.and_eq_true, Bool.not_eq_true', bne_iff_ne] at hop
  obtain ⟨⟨⟨hindent, hspace⟩, hword⟩, hcomma⟩ := hop
  exact ⟨hindent, hspace, hword, hcomma⟩

theorem all_isWord_literal : a.literal.all isWord = true := by
  have hword := all_isWord_of_integerWidth a.whole
  rwa [List.take_length] at hword

theorem literal_ne_nil : a.literal ≠ [] := by
  intro h
  have hwhole := a.whole
  rw [h] at hwhole
  cases hwhole

/-- A slash for an operator begins no comment. -/
theorem stops_operand (rest : List Char) :
    Stops isCommentMark (a.after.chars ++ a.literal ++ rest) := by
  obtain ⟨c, cs, hcs⟩ := List.exists_cons_of_ne_nil a.literal_ne_nil
  have hc : isWord c = true := List.all_eq_true.1 a.all_isWord_literal c (by simp [hcs])
  have hmark : isCommentMark c = false := by
    rw [isCommentMark, Bool.or_eq_false_iff, beq_eq_false_iff_ne, beq_eq_false_iff_ne]
    exact ⟨ne_of_isWord hc (by decide), ne_of_isWord hc (by decide)⟩
  rw [List.append_assoc]
  refine a.after.stops (by decide) ?_
  rw [hcs]
  exact stops_cons.2 hmark

theorem solid_operation (rest : List Char) : Solid (a.operation ++ rest) := by
  obtain ⟨_, hspace, _, _⟩ := a.operator_apart
  by_cases hslash : a.operator = '/'
  · rw [operation, hslash, List.cons_append]
    have hcomment := commentWidth_slash_eq_none (a.stops_operand rest)
    have hwhite : isSpace '/' = false := by decide
    rw [Solid, triviaWidth, triviaFrom, hwhite, if_neg Bool.false_ne_true, hcomment]
  · exact solid_cons hspace hslash

theorem stops_operation {p : Char → Bool} (h : p a.operator = false) (rest : List Char) :
    Stops p (a.operation ++ rest) :=
  stops_cons.2 h

theorem nested_operation : Nested a.operation := by
  have hword : a.literal.all isGroupText = true :=
    all_imp (fun c hc => isGroupText_of_isFlat (isFlat_of_isWord hc)) a.all_isWord_literal
  have hblank : a.after.chars.all isGroupText = true :=
    all_imp (fun c hc => isGroupText_of_isFlat (isFlat_of_isIndent hc)) a.after.blank
  have hoperand : Nested (a.after.chars ++ a.literal) := by
    refine .plain_append hblank ?_
    rw [← List.append_nil a.literal]
    exact .plain_append hword .nil
  by_cases hslash : a.operator = '/'
  · rw [operation, hslash]
    have hstops := a.stops_operand []
    rw [List.append_nil] at hstops
    exact .slash _ hstops hoperand
  · have hplain : ['+', '-', '*', '/', '%'].all (fun c => c == '/' || isGroupText c) = true := by
      decide
    have hop := List.all_eq_true.1 hplain a.operator a.known
    rw [Bool.or_eq_true, beq_iff_eq] at hop
    exact .text _ _ (hop.resolve_left hslash) hoperand

theorem nested_size : Nested a.size := by
  have hword : a.length.chars.all isGroupText = true :=
    all_imp (fun c hc => isGroupText_of_isFlat (isFlat_of_isWord hc))
      (all_isWord_of_isIdentifier a.length.whole)
  have hblank : a.before.chars.all isGroupText = true :=
    all_imp (fun c hc => isGroupText_of_isFlat (isFlat_of_isIndent hc)) a.before.blank
  exact .plain_append hword (.plain_append hblank a.nested_operation)

/-! ## Type parameters -/

/-- No second parameter follows the name. -/
theorem refuses_moreParams (behind more : List Char) :
    (Peg.all (.rule .trivia) [.lit ',', .rule .trivia, .rule .identifier]).Refuses behind
      (a.before.chars ++ (a.operation ++ more)) := by
  obtain ⟨_, _, _, hcomma⟩ := a.operator_apart
  have htrivia : (Peg.rule .trivia).Reads behind a.before.chars (a.operation ++ more)
      (.lexeme .trivia a.before.chars) :=
    reads_lexeme rfl (congrArg some (triviaWidth_indent a.before.blank (a.solid_operation more)))
  exact refuses_seq_second htrivia (refuses_seq_first
    (refuses_lit (stops_cons.2 (beq_eq_false_iff_ne.2 hcomma))))

theorem reads_length (behind more : List Char) :
    (Peg.rule .identifier).Reads behind a.length.chars (a.before.chars ++ (a.operation ++ more))
      (.node .identifier a.length.inside .nil) := by
  obtain ⟨_, _, hword, _⟩ := a.operator_apart
  exact a.length.reads (a.before.stops (by decide) (a.stops_operation hword more))

/-- Without blanks before the operator the bracket opens no list of parameters. -/
theorem refuses_typeParams (h : a.before.chars = []) (more : List Char) :
    (Peg.rule .typeParams).Refuses behind (a.array ++ more) := by
  obtain ⟨hindent, _, _, _⟩ := a.operator_apart
  have htrivia : ∀ behind, (Peg.rule .trivia).Reads behind []
      (a.length.chars ++ ([] ++ (a.operation ++ (']' :: more)))) (.lexeme .trivia []) :=
    fun _ => reads_trivia [] (a.length.solid _)
  have hlength : ∀ behind, (Peg.rule .identifier).Reads behind a.length.chars
      ([] ++ (a.operation ++ (']' :: more))) (.node .identifier a.length.inside .nil) := by
    intro behind
    have hreads := a.reads_length behind (']' :: more)
    rwa [h] at hreads
  have hparams : ∀ behind, (Peg.many (.all (.rule .trivia)
      [.lit ',', .rule .trivia, .rule .identifier])).Reads behind []
        (a.operation ++ (']' :: more)) .nil := by
    intro behind
    refine reads_many_nil fun _ => ?_
    have hrefuses := a.refuses_moreParams behind (']' :: more)
    rwa [h] at hrefuses
  have hblanks : ∀ behind, (Peg.token .blanks).Refuses behind (a.operation ++ (']' :: more)) := by
    intro behind
    refine refuses_token ?_
    rw [operation, List.cons_append, Token.width, runWidth,
      List.takeWhile_cons_of_neg (by simp [hindent])]
    rfl
  have harray : a.array ++ more =
      ['['] ++ ([] ++ (a.length.chars ++ ([] ++ (a.operation ++ (']' :: more))))) := by
    simp [array, size, h]
  rw [harray]
  exact refuses_rule (refuses_seq_second (reads_lit '[') (refuses_seq_second (htrivia _)
    (refuses_seq_second (hlength _) (refuses_seq_second (hparams _)
      (refuses_seq_first (hblanks _))))))

/-- With blanks before the operator the whole length is taken for a list of parameters. -/
theorem reads_typeParams (h : a.before.chars ≠ []) (hr : Stops isIndent rest) :
    ∃ f, (Peg.rule .typeParams).Reads behind a.array rest (.node .typeParams f .nil) := by
  obtain ⟨hindent, _, _, _⟩ := a.operator_apart
  obtain ⟨g, hg⟩ := a.nested_operation.reads
  have htrivia : ∀ behind, (Peg.rule .trivia).Reads behind []
      (a.length.chars ++ (a.before.chars ++ (a.operation ++ (']' :: rest)))) (.lexeme .trivia []) :=
    fun _ => reads_trivia [] (a.length.solid _)
  have hparams : ∀ behind, (Peg.many (.all (.rule .trivia)
      [.lit ',', .rule .trivia, .rule .identifier])).Reads behind []
        (a.before.chars ++ (a.operation ++ (']' :: rest))) .nil := fun _ =>
    reads_many_nil fun _ => a.refuses_moreParams _ _
  have hblanks : ∀ behind, (Peg.token .blanks).Reads behind a.before.chars
      (a.operation ++ (']' :: rest)) (.leaf a.before.chars .nil) := fun _ =>
    reads_token (runWidth_append a.before.blank h (a.stops_operation hindent _))
  have hbody : ∀ behind, (Peg.rule .groupBody).Reads behind a.operation (']' :: rest)
      (.node .groupBody g .nil) := fun behind =>
    reads_rule (hg behind _ ⟨('[', ']'), by decide, rest, rfl⟩)
  have hindent : ∀ behind, (Peg.rule .indent).Reads behind [] rest (.lexeme .indent []) := fun _ =>
    reads_indent rfl hr
  have harray : a.array = ['['] ++ ([] ++ (a.length.chars ++ ([] ++ (a.before.chars ++
      (a.operation ++ ([']'] ++ [])))))) := by
    simp [array, size]
  rw [harray]
  have hlength := fun behind => a.reads_length behind (']' :: rest)
  exact ⟨_, reads_rule (reads_seq (reads_lit '[') ((htrivia _).andThen ((hlength _).andThen
    ((hparams _).andThen ((hblanks _).andThen ((hbody _).andThen
      (reads_seq (reads_lit ']') (hindent _)) rfl) (by simp)) (by simp)) (by simp)) (by simp)))⟩

/-! ## Specifications -/

/-- The elements alone are a type by its name. -/
theorem reads_namedType (behind : List Char) :
    (Peg.rule .typeExpr).Reads behind a.element.chars []
      (.node .typeExpr (.node .namedType ((Forest.node .identifier a.element.inside .nil).append
        (.lexeme .exprEnd [])) .nil) .nil) := by
  have hend : ∀ behind, (Peg.rule .exprEnd).Reads behind [] [] (.lexeme .exprEnd []) := fun _ =>
    reads_lexeme rfl rfl
  have helement : (Peg.rule .identifier).Reads behind a.element.chars ([] ++ [])
      (.node .identifier a.element.inside .nil) := a.element.reads (stops_nil _)
  have hnamed := reads_rule (r := .namedType) (reads_seq helement (hend _))
  rw [List.append_nil] at hnamed
  exact reads_rule (reads_choice_first hnamed)

theorem reads_elementPiece (behind : List Char) :
    ∃ f, (Peg.many (.all (.rule .indent) [.rule .exprPiece])).Reads behind a.element.chars []
      f := by
  have hne := ne_nil_of_isIdentifier a.element.whole
  have hbare : a.element.chars.all isBare = true :=
    all_imp (fun _ hc => isBare_of_isWord hc) (all_isWord_of_isIdentifier a.element.whole)
  have hindent : (Peg.rule .indent).Reads behind [] (a.element.chars ++ []) (.lexeme .indent []) :=
    reads_indent rfl (a.element.stops (fun _ hc => isIndent_eq_false_of_isWord hc) [])
  obtain ⟨f, hf⟩ : ∃ f, (Peg.rule .exprPiece).Reads behind a.element.chars [] f :=
    reads_word hbare hne (stops_nil _)
  have hitem : (Peg.all (.rule .indent) [.rule .exprPiece]).Reads behind a.element.chars ([] ++ [])
      ((Forest.lexeme .indent []).append f) := reads_seq hindent hf
  have hmany := reads_many_cons hne hitem (reads_many_nil fun h => absurd rfl h)
  rw [List.append_nil] at hmany
  exact ⟨_, hmany⟩

/-- The array and its elements are the pieces of a type that is kept as written. -/
theorem reads_typeLiteral (behind : List Char) :
    ∃ f, (Peg.rule .typeExpr).Reads behind (a.array ++ a.element.chars) []
      (.node .typeExpr (.node .typeLiteral f .nil) .nil) := by
  have hpair : ('[', ']') ∈ brackets := by decide
  obtain ⟨g, hg⟩ := reads_group hpair a.nested_size.reads
  obtain ⟨f, hf⟩ := a.reads_elementPiece (a.array.reverse ++ behind)
  have hpiece : (Peg.rule .exprPiece).Reads behind a.array (a.element.chars ++ [])
      (.node .exprPiece g .nil) := reads_rule (reads_choice_first (hg behind _))
  have hrefuses : (Peg.rule .namedType).Refuses behind (a.array ++ a.element.chars ++ []) :=
    refuses_rule (refuses_seq_first (refuses_identifier (stops_cons.2 (by decide))))
  exact ⟨_, reads_rule (reads_choice_second hrefuses (reads_rule (reads_seq hpiece hf)))⟩

theorem trim_pieces : trim (a.array ++ a.element.chars) = a.array ++ a.element.chars := by
  have hword := all_isWord_of_isIdentifier a.element.whole
  have hlast : Stops isBlank (a.element.chars.reverse ++ a.array.reverse) :=
    stops_isBlank_append (by rwa [List.all_reverse])
      (by simpa using ne_nil_of_isIdentifier a.element.whole) _
  refine trim_eq_self (stops_cons.2 (by decide)) ?_
  rwa [List.reverse_append]

def specInside (a : ArrayType) (params type : Forest) : Forest :=
  (Forest.node .identifier a.name.inside .nil).append ((Forest.lexeme .indent [' ']).append
    (params.append ((Forest.node .typeExpr type .nil).append (.lexeme .indent []))))

theorem reads_specInside {params type : List Char} {p t : Forest}
    (heq : params ++ type = a.array ++ a.element.chars)
    (hparams : (Peg.optional (.rule .typeParams)).Reads ([' '] ++ (a.name.chars.reverse ++ behind))
      params type p)
    (halias : Stops (· == '=') type)
    (htype : (Peg.rule .typeExpr).Reads
      (params.reverse ++ ([' '] ++ (a.name.chars.reverse ++ behind))) type []
      (.node .typeExpr t .nil)) :
    (Peg.rule .typeSpec).Reads behind a.specText [] (.node .typeSpec (a.specInside p t) .nil) := by
  have hname : ∀ behind, (Peg.rule .identifier).Reads behind a.name.chars
      ([' '] ++ (params ++ type)) (.node .identifier a.name.inside .nil) := fun _ =>
    a.name.reads (stops_cons.2 (by decide))
  have hblank : ∀ behind, (Peg.rule .indent).Reads behind [' '] (params ++ type)
      (.lexeme .indent [' ']) := by
    rw [heq]
    exact fun _ => reads_indent (by decide) (stops_cons.2 (by decide))
  have hmark : ∀ behind, (Peg.optional (.rule .aliasMark)).Reads behind [] type .nil := fun _ =>
    reads_optional_none fun _ => refuses_rule (refuses_seq_first (refuses_lit halias))
  have hindent : ∀ behind, (Peg.rule .indent).Reads behind [] [] (.lexeme .indent []) := fun _ =>
    reads_indent rfl (stops_nil _)
  have hcomment : ∀ behind, (Peg.optional (.rule .lineComment)).Reads behind [] [] .nil := fun _ =>
    reads_optional_none fun h => absurd rfl h
  have htext : a.specText =
      a.name.chars ++ ([' '] ++ (params ++ ([] ++ (type ++ ([] ++ []))))) := by
    simp [specText, heq]
  rw [htext]
  exact reads_rule ((hname _).andThen ((hblank _).andThen (hparams.andThen ((hmark _).andThen
    (htype.andThen ((hindent _).andThen (hcomment _) rfl) rfl) (by simp)) (by simp)) (by simp))
      (by simp))

/-- The specification is read as its content, without a comment. -/
theorem reads_typeSpec (behind : List Char) :
    ∃ f, (Peg.rule .typeSpec).Reads behind a.specText [] (.node .typeSpec f .nil) ∧
      f.typeSpec = a.content ∧ f.first? .lineComment = none := by
  have hname : String.ofList a.name.inside.text = String.ofList a.name.chars :=
    congrArg Ident.name a.name.ident_inside
  by_cases hbefore : a.before.chars = []
  · obtain ⟨t, ht⟩ := a.reads_typeLiteral ([' '] ++ (a.name.chars.reverse ++ behind))
    have hparams : ∀ behind, (Peg.optional (.rule .typeParams)).Reads behind []
        (a.array ++ a.element.chars) .nil := fun _ =>
      reads_optional_none fun _ => a.refuses_typeParams hbefore _
    have halias : Stops (· == '=') (a.array ++ a.element.chars) := stops_cons.2 (by decide)
    refine ⟨_, a.reads_specInside (List.nil_append _) (hparams _) halias ht, ?_, rfl⟩
    have hinside : (Forest.node .typeLiteral t .nil).text = a.array ++ a.element.chars := by
      simpa [Forest.text] using ht.text_eq
    show TypeSpec.mk (String.ofList a.name.inside.text)
      (.verbatim (String.ofList (trim (Forest.node .typeLiteral t .nil).text)) {}) false {} = _
    rw [hname, hinside, a.trim_pieces, content, type, if_pos hbefore]
  · have hstops : Stops isIndent a.element.chars := by
      simpa using a.element.stops (fun _ hc => isIndent_eq_false_of_isWord hc) []
    have halias : Stops (· == '=') a.element.chars := by
      simpa using a.element.stops (p := (· == '=')) (fun c hc =>
        beq_eq_false_iff_ne.2 (ne_of_isWord hc (by decide))) []
    obtain ⟨p, hp⟩ := a.reads_typeParams hbefore hstops
    have hparams := reads_optional_some (by simp [array]) hp
    refine ⟨_, a.reads_specInside rfl hparams halias (a.reads_namedType _), ?_, rfl⟩
    show TypeSpec.mk (String.ofList a.name.inside.text) (.ident a.element.inside.ident) false {} = _
    rw [hname, a.element.ident_inside, content, type, if_neg hbefore]

/-! ## Declarations -/

theorem reads_topDecl :
    ∃ f, (Peg.rule .topDecl).Reads [] a.text [] (.node .topDecl f .nil) ∧
      f.decl = .ok (.types [a.content] false {}) ∧
      ∀ path ∈ trailingComments, f.reach? path = none := by
  have hstops : ∀ {p : Char → Bool}, (∀ c, isWord c = true → p c = false) →
      Stops p (a.specText ++ []) := by
    intro p h
    rw [specText, List.append_assoc]
    exact a.name.stops h _
  have hkeyword : (Peg.rule .typeKw).Reads [] ['t', 'y', 'p', 'e'] ([' '] ++ a.specText ++ [])
      (.lexeme .typeKw ['t', 'y', 'p', 'e']) :=
    reads_lexeme rfl (keywordWidth_append [] [] (by simp) (stops_cons.2 (by decide)))
  have hblank : ∀ behind, (Peg.rule .indent).Reads behind [' '] (a.specText ++ [])
      (.lexeme .indent [' ']) := fun _ =>
    reads_indent (by decide) (hstops fun _ hc => isIndent_eq_false_of_isWord hc)
  obtain ⟨f, hf, hcontent, hcomment⟩ := a.reads_typeSpec ([' '] ++ ['t', 'y', 'p', 'e'].reverse)
  have hgroup : ∀ behind, (Peg.rule .typeGroup).Refuses behind (a.specText ++ []) := fun _ =>
    refuses_rule (refuses_seq_first (refuses_lit (hstops fun c hc =>
      beq_eq_false_iff_ne.2 (ne_of_isWord hc (by decide)))))
  have hbody := reads_rule (r := .typeBody) (reads_choice_second (hgroup _) hf)
  refine ⟨_, reads_rule (reads_choice_first (reads_rule (reads_seq hkeyword
    (reads_seq (hblank _) hbody)))), ?_, ?_⟩
  · show Except.ok (Decl.types [f.typeSpec] false {}) = _
    rw [hcontent]
  · simp only [trailingComments, List.forall_mem_cons]
    refine ⟨?_, rfl, rfl, fun _ h => absurd h List.not_mem_nil⟩
    show (f.first? .lineComment).bind some = none
    rw [hcomment]
    rfl

/-- The declaration by itself, with what it declares. -/
theorem exists_declaration :
    ∃ d : Declaration, d.text = a.text ∧
      d.tree.inside.decl = .ok (.types [a.content] false {}) := by
  obtain ⟨f, hf, hdecl, hcomments⟩ := a.reads_topDecl
  have hmatched := Rule.matchRest_of_reads hf
  rw [List.append_nil, if_pos rfl] at hmatched
  have hlast : ∀ c ∈ a.text.getLast?, isIndent c = false ∧ isOpenEnded c = false := by
    intro c hc
    have htext : a.text =
        (['t', 'y', 'p', 'e'] ++ ([' '] ++ (a.name.chars ++ ([' '] ++ a.array)))) ++
          a.element.chars := by
      simp [text, specText]
    rw [htext, List.getLast?_append_of_ne_nil _ (ne_nil_of_isIdentifier a.element.whole)] at hc
    have hword := List.all_eq_true.1 (all_isWord_of_isIdentifier a.element.whole) c
      (List.mem_of_getLast? hc)
    exact ⟨isIndent_eq_false_of_isWord hword, isOpenEnded_eq_false (by decide) hword⟩
  refine ⟨⟨a.text, ⟨.topDecl, 0, f⟩, hmatched, fun path hpath => ?_, hlast⟩, rfl, hdecl⟩
  have hreach := Branch.inside_reach? ⟨.topDecl, 0, f⟩ path
  rw [show (Branch.mk .topDecl 0 f).inside = f from rfl, hcomments path hpath,
    Option.map_eq_none_iff] at hreach
  exact hreach

/-! ## Verdicts -/

/-- The declaration is checked by the type that it is read as. -/
theorem result_checkTypeSpec {s : TypeSpec} (h : s.unplaced = a.content) :
    (checkTypeSpec (String.ofList a.name.chars) s).result =
      match a.fault? with
      | none => .ok ()
      | some cause => .error (.diagnostic { cause, span := some s.span }) := by
  have hname : s.name = String.ofList a.name.chars := congrArg TypeSpec.name h
  have htype : s.type.unplaced = a.type := congrArg TypeSpec.type h
  rw [checkTypeSpec, hname, beq_self_eq_true, if_pos rfl, TypeSpec.underlying]
  by_cases hbefore : a.before.chars = []
  · rw [type, if_pos hbefore] at htype
    rw [fault?, if_pos hbefore]
    cases hs : s.type with
    | ident id =>
        rw [hs] at htype
        cases htype
    | verbatim text loc => rfl
  · rw [type, if_neg hbefore] at htype
    rw [fault?, if_neg hbefore]
    cases hs : s.type with
    | ident id =>
        rw [hs] at htype
        have hid : id.name = String.ofList a.element.chars :=
          congrArg Ident.name (TypeRef.ident.inj htype)
        simp only [hid]
        by_cases hinteger : integerTypes.contains (String.ofList a.element.chars) = true
        · rw [if_pos hinteger, if_pos hinteger]
          rfl
        · rw [if_neg hinteger, if_neg hinteger]
          rfl
    | verbatim text loc =>
        rw [hs] at htype
        cases htype

end ArrayType
end Written

/-! ## Checks of several declarations -/

section

variable {type : String} {files : List SourceFile} {spec : TypeSpec}

theorem checkTypeSpec_of_ne {s : TypeSpec} (h : s.name ≠ type) :
    (checkTypeSpec type s).result = .ok () := by
  rw [checkTypeSpec, beq_eq_false_iff_ne.2 h]
  rfl

/-- One declaration that is refused has the type refused, whatever the others are. -/
theorem checkType_refused {f : Failure} (hspec : spec ∈ files.flatMap (·.typeSpecs))
    (h : (checkTypeSpec type spec).result = .error f) :
    ∃ g, (checkType type files).result = .error g ∧ g.kind? = some .typeNotInteger := by
  obtain ⟨_, _, g, _, hg⟩ := Logged.error_of_forM hspec h
  obtain ⟨k, hk, hkind⟩ := checkType_failsWithin type files g hg
  rw [List.mem_singleton.1 hk] at hkind
  exact ⟨g, hg, hkind⟩

/-- The only declaration of a type decides. -/
theorem checkType_only (hspec : spec ∈ files.flatMap (·.typeSpecs))
    (honly : ∀ s ∈ files.flatMap (·.typeSpecs), s.name = type → s = spec) :
    (checkType type files).result = (checkTypeSpec type spec).result := by
  cases h : (checkTypeSpec type spec).result with
  | ok u =>
      refine Logged.result_forM fun s hs => ?_
      by_cases hname : s.name = type
      · rw [honly s hs hname, h]
      · exact checkTypeSpec_of_ne hname
  | error f =>
      obtain ⟨s, hs, g, hfails, hg⟩ := Logged.error_of_forM hspec h
      have hname : s.name = type := by
        by_contra hne
        rw [checkTypeSpec_of_ne hne] at hfails
        cases hfails
      rw [honly s hs hname, h] at hfails
      rw [checkType, hg, Except.error.inj hfails]

end

/-! ## Files -/

/-- A file with the declaration on a line of its own has the specification that is read for it. -/
theorem Written.ArrayType.parse_among (a : Written.ArrayType) (path : String) {package : List Char}
    (hp : isIdentifier package = true) (before : List Filler) (earlier later : List Line) :
    ∃ file, SourceFile.parse path (packageFile package (Filler.text before ++
        (earlier.flatMap Line.text ++ (a.text ++ '\n' :: later.flatMap Line.text)))) = .ok file ∧
      ∃ spec ∈ file.typeSpecs, spec.unplaced = a.content := by
  obtain ⟨d, htext, hdecl⟩ := a.exists_declaration
  obtain ⟨file, hparse, _, hdecls⟩ := parse_parts path hp before
    ((earlier ++ Line.bare d :: later).map Line.part)
  have hlines : (earlier ++ Line.bare d :: later).flatMap Line.text =
      earlier.flatMap Line.text ++ (a.text ++ '\n' :: later.flatMap Line.text) := by
    simp [Line.text, Line.bare, htext]
  rw [Line.text_parts, hlines] at hparse
  have hmem : d.tree.inside ∈
      ((earlier ++ Line.bare d :: later).map Line.part).map (·.decl.tree.inside) := by
    refine List.mem_map.2 ⟨(Line.bare d).part, List.mem_map.2 ⟨Line.bare d, ?_, rfl⟩, rfl⟩
    exact List.mem_append_right earlier List.mem_cons_self
  obtain ⟨u, hu, hread⟩ := ok_of_mem_mapM hdecls hmem
  obtain ⟨decl, hd, rfl⟩ := List.mem_map.1 hu
  have hcontent : decl.unplaced = .types [a.content] false {} :=
    Except.ok.inj (hread.symm.trans hdecl)
  refine ⟨file, hparse, ?_⟩
  cases decl with
  | types specs grouped loc =>
      have hspecs : specs.map (·.unplaced) = [a.content] := (Decl.types.inj hcontent).1
      obtain ⟨spec, hspec⟩ := List.map_eq_singleton_iff.1 hspecs
      refine ⟨spec, List.mem_flatMap.2 ⟨_, hd, ?_⟩, hspec.2⟩
      rw [hspec.1]
      exact List.mem_cons_self
  | consts specs grouped loc => cases hcontent
  | other keyword text loc => cases hcontent

/-- A declaration of an array type is read as the array, and the type refused, when no blank
stands before the operator in its length. After a blank it is read as a declaration of the type of
the elements, and passes wherever that is an integer type. -/
theorem blank_decides_array_type (a : Written.ArrayType) (path : String) {package : List Char}
    (hp : isIdentifier package = true) (before : List Filler) (earlier later : List Line) :
    ∃ file, SourceFile.parse path (packageFile package (Filler.text before ++
        (earlier.flatMap Line.text ++ (a.text ++ '\n' :: later.flatMap Line.text)))) = .ok file ∧
      ∃ spec ∈ file.typeSpecs, spec.unplaced = a.content ∧
        ∀ files : List SourceFile, file ∈ files →
          (a.fault? ≠ none → ∃ f, (checkType (String.ofList a.name.chars) files).result = .error f ∧
            f.kind? = some .typeNotInteger) ∧
          ((∀ s ∈ files.flatMap (·.typeSpecs), s.name = String.ofList a.name.chars → s = spec) →
            (checkType (String.ofList a.name.chars) files).result =
              match a.fault? with
              | none => .ok ()
              | some cause => .error (.diagnostic { cause, span := some spec.span })) := by
  obtain ⟨file, hparse, spec, hspec, hcontent⟩ := a.parse_among path hp before earlier later
  have hresult := a.result_checkTypeSpec hcontent
  refine ⟨file, hparse, spec, hspec, hcontent,
    fun files hfile => ⟨fun hfault => ?_, fun honly => ?_⟩⟩
  · obtain ⟨cause, hcause⟩ := Option.ne_none_iff_exists'.1 hfault
    rw [hcause] at hresult
    exact checkType_refused (List.mem_flatMap.2 ⟨file, hfile, hspec⟩) hresult
  · rw [← hresult]
    exact checkType_only (List.mem_flatMap.2 ⟨file, hfile, hspec⟩) honly

/-- `type Buf [N+1]int`, with blanks before the operator. -/
def Written.ArrayType.plusOne (before : Written.Blanks) : Written.ArrayType where
  name := ⟨['B', 'u', 'f'], by decide⟩
  length := ⟨['N'], by decide⟩
  before := before
  operator := '+'
  known := by decide
  after := .none
  literal := ['1']
  whole := rfl
  element := ⟨['i', 'n', 't'], by decide⟩

theorem plusOne_refused_without_blank :
    isIdentifier ['p'] = true ∧
      (∃ file, SourceFile.parse "t.go"
          (packageFile ['p'] ((Written.ArrayType.plusOne .none).text ++ ['\n'])) = .ok file ∧
        ∃ f, (checkType "Buf" [file]).result = .error f ∧ f.kind? = some .typeNotInteger) ∧
      ∃ file, SourceFile.parse "t.go"
          (packageFile ['p'] ((Written.ArrayType.plusOne ⟨[' '], rfl⟩).text ++ ['\n'])) = .ok file ∧
        ∃ spec ∈ file.typeSpecs,
          spec.unplaced = { name := "Buf", type := .ident { name := "int" } } := by
  have hp : isIdentifier ['p'] = true := by decide
  obtain ⟨file, hparse, _, _, _, hfiles⟩ :=
    blank_decides_array_type (.plusOne .none) "t.go" hp [] [] []
  obtain ⟨file', hparse', spec, hspec, hcontent, _⟩ :=
    blank_decides_array_type (.plusOne ⟨[' '], rfl⟩) "t.go" hp [] [] []
  exact ⟨hp, ⟨file, hparse, (hfiles [file] List.mem_cons_self).1 nofun⟩, file', hparse', spec,
    hspec, hcontent⟩

/-- After a blank the array passes for an integer. -/
theorem plusOne_accepted_after_blank :
    ∃ file, SourceFile.parse "t.go" "package p\ntype Buf [N + 1]int\n" = .ok file ∧
      file.typeSpecs.map (·.type.unplaced) = [.ident { name := "int" }] ∧
      (checkType "Buf" [file]).result = .ok () := by
  have hparse : ((SourceFile.parse "t.go" "package p\ntype Buf [N + 1]int\n").toOption.map
      fun file => (file.typeSpecs.map (·.type.unplaced), (checkType "Buf" [file]).result.toOption)) =
        some ([.ident { name := "int" }], some ()) := by
    decide +kernel
  obtain ⟨file, hfile, hspecs⟩ := Option.map_eq_some_iff.1 hparse
  obtain ⟨htypes, hcheck⟩ := Prod.mk.inj hspecs
  exact ⟨file, ok_of_toOption hfile, htypes, ok_of_toOption hcheck⟩

end EnumNames
