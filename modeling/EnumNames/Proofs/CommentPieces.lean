import EnumNames.Proofs.Locations
import EnumNames.Proofs.SpecSeparation

/-!
Comments at the end of a line, split in two ways. The grammar reads them one after
the other, with blanks between them; the text of a comment is found by searching
for the next comment from where the last one ended. Both give the same pieces. What
a constant keeps of them is said here piece by piece, without reference to how it
is computed.
-/

namespace EnumNames.Comment

open EnumNames.Grammar EnumNames.Text

variable {piece more rest : List Char}

/-! ## Searching -/

/-- A comment to the end of the line, or a block within the line. -/
inductive IsPiece : List Char → Prop
  | line {body : List Char} (oneLine : '\n' ∉ body) : IsPiece ('/' :: '/' :: body)
  | block {body : List Char} (oneLine : '\n' ∉ body) (unclosed : ¬ ['*', '/'] <:+: body) :
      IsPiece ('/' :: '*' :: body ++ ['*', '/'])

theorem newline_not_mem_of_all {body : List Char} (h : body.all (· != '\n') = true) :
    '\n' ∉ body := by
  intro hmem
  simpa using List.all_eq_true.1 h '\n' hmem

/-- What a comment takes is a piece, and it stays the same when the text ends earlier. -/
theorem piece_of_width (h : shortCommentWidth (piece ++ (more ++ rest)) = some piece.length) :
    IsPiece piece ∧ shortCommentWidth (piece ++ more) = some piece.length := by
  rcases Option.or_eq_some_iff.1 h with hline | ⟨_, hblock⟩
  · obtain ⟨body, rfl, hbody, hstop⟩ := form_of_lineCommentWidth hline
    refine ⟨.line hbody, ?_⟩
    rw [shortCommentWidth, lineCommentWidth_append hbody hstop.of_append, Option.some_or,
      Nat.add_comm]
    rfl
  · obtain ⟨body, rfl, hunclosed, hall⟩ := form_of_blockCommentWidth hblock
    refine ⟨.block (newline_not_mem_of_all hall) hunclosed, ?_⟩
    have hwidth := blockCommentWidth_append hunclosed hall more
    simp only [List.cons_append, List.append_assoc, List.nil_append] at hwidth ⊢
    simp [shortCommentWidth, lineCommentWidth, inlineCommentWidth, hwidth]

theorem piecesFrom_passed (skipped rest : List Char) :
    piecesFrom skipped.length (skipped ++ rest) = piecesFrom 0 rest := by
  induction skipped with
  | nil => rfl
  | cons c skipped ih => exact ih

theorem pieces_piece (h : shortCommentWidth (piece ++ rest) = some piece.length) :
    pieces (piece ++ rest) = piece :: pieces rest := by
  cases piece with
  | nil =>
      have htoken : Token.shortComment.width [] rest = some 0 := h
      exact absurd ((Token.width_bounds htoken).2 rfl) (Nat.lt_irrefl 0)
  | cons c cs =>
      rw [List.cons_append] at h
      rw [pieces, List.cons_append, piecesFrom, h]
      simp only [List.length_cons, Nat.add_sub_cancel, piecesFrom_passed]
      rw [← List.cons_append, ← List.length_cons, List.take_left]
      rfl

theorem shortCommentWidth_indent {c : Char} (h : isIndent c = true) (cs : List Char) :
    shortCommentWidth (c :: cs) = none := by
  have hslash : c ≠ '/' := by
    rintro rfl
    cases h
  obtain ⟨hline, hblock⟩ := comment_eq_none (· != '\n') (stops_cons.2 (by simpa using hslash) :
    Stops (· == '/') (c :: cs))
  rw [shortCommentWidth, inlineCommentWidth, hline, hblock]
  rfl

/-- Nothing is found in blanks. -/
theorem pieces_indent {blanks : List Char} (h : blanks.all isIndent = true) (rest : List Char) :
    pieces (blanks ++ rest) = pieces rest := by
  induction blanks with
  | nil => rfl
  | cons c blanks ih =>
      rw [List.all_cons, Bool.and_eq_true] at h
      rw [pieces, List.cons_append, piecesFrom, shortCommentWidth_indent h.1]
      exact ih h.2

theorem isPiece_of_mem_piecesFrom {skip : Nat} {cs : List Char} (h : piece ∈ piecesFrom skip cs) :
    IsPiece piece := by
  induction cs generalizing skip with
  | nil => cases skip <;> cases h
  | cons c cs ih =>
      cases skip with
      | succ skip => exact ih h
      | zero =>
          rw [piecesFrom] at h
          split at h
          · next n hn =>
              rcases List.mem_cons.1 h with rfl | h
              · have htoken : Token.shortComment.width [] (c :: cs) = some n := hn
                have hlength : ((c :: cs).take n).length = n :=
                  List.length_take_of_le (Token.width_bounds htoken).1
                have htaken : shortCommentWidth ((c :: cs).take n ++ ([] ++ (c :: cs).drop n)) =
                    some ((c :: cs).take n).length := by
                  rw [List.nil_append, List.take_append_drop, hlength]
                  exact hn
                exact (piece_of_width htaken).1
              · exact ih h
          · exact ih h

/-! ## What pieces tell -/

/-- Comments that are addressed to tools: a known word and a blank, or a tool's name with a command
after a colon. -/
inductive Directive : List Char → Prop
  | word {body : List Char} (word : String) (known : word ∈ ["line ", "extern ", "export "]) :
      Directive ('/' :: '/' :: word.toList ++ body)
  | command {tool body : List Char} {c : Char} (some : tool ≠ [])
      (name : tool.all isDirectiveChar = true) (start : isDirectiveChar c = true) :
      Directive ('/' :: '/' :: tool ++ ':' :: c :: body)

structure Trimmed (cs trimmed : List Char) : Prop where
  split : ∃ blanks, blanks.all isBlank = true ∧ cs = trimmed ++ blanks
  last : ∀ c ∈ trimmed.getLast?, isBlank c = false

/-- What a piece says: its text without the marks, without one blank after the mark of a line, and
without blanks at the end. -/
inductive Says : List Char → List Char → Prop
  | spaced {inner body : List Char} (trimmed : Trimmed inner body) :
      Says ('/' :: '/' :: ' ' :: inner) body
  | line {inner body : List Char} (solid : inner.head? ≠ some ' ') (trimmed : Trimmed inner body) :
      Says ('/' :: '/' :: inner) body
  | block {inner body : List Char} (trimmed : Trimmed inner body) :
      Says ('/' :: '*' :: inner ++ ['*', '/']) body

inductive Gathers : List (List Char) → List (List Char) → Prop
  | nil : Gathers [] []
  | skip {p : List Char} {ps bodies : List (List Char)} (tool : Directive p)
      (rest : Gathers ps bodies) : Gathers (p :: ps) bodies
  | keep {p body : List Char} {ps bodies : List (List Char)} (text : ¬ Directive p)
      (told : Says p body) (rest : Gathers ps bodies) : Gathers (p :: ps) (body :: bodies)

structure Stripped (cs stripped : List Char) : Prop where
  split : ∃ m n, cs = List.replicate m '\n' ++ stripped ++ List.replicate n '\n'
  head : stripped.head? ≠ some '\n'
  last : stripped.getLast? ≠ some '\n'

/-- What is kept of pieces: nothing if they are all directives, and otherwise what the others say on
lines of their own. -/
structure Told (pieces : List (List Char)) (comment : Option (List Char)) : Prop where
  none_iff : comment = none ↔ ∀ p ∈ pieces, Directive p
  text : ∀ told, comment = some told → ∃ bodies, Gathers pieces bodies ∧
    Stripped (['\n'].intercalate bodies) told

theorem isToolCommand_iff (cs : List Char) :
    isToolCommand cs = true ↔ ∃ tool c body, tool ≠ [] ∧ tool.all isDirectiveChar = true ∧
      isDirectiveChar c = true ∧ cs = tool ++ ':' :: c :: body := by
  constructor
  · intro h
    unfold isToolCommand at h
    split at h
    · next c body hdrop =>
        obtain ⟨hhead, hc⟩ := Bool.and_eq_true_iff.1 h
        refine ⟨cs.takeWhile isDirectiveChar, c, body, ?_, List.all_takeWhile, hc, ?_⟩
        · cases cs with
          | nil => cases hhead
          | cons d cs =>
              have hd : isDirectiveChar d = true := hhead
              simp [hd]
        · rw [← hdrop, List.takeWhile_append_dropWhile]
    · cases h
  · rintro ⟨tool, c, body, hne, hall, hc, rfl⟩
    have hdrop : (tool ++ ':' :: c :: body).dropWhile isDirectiveChar = ':' :: c :: body := by
      rw [List.dropWhile_append_of_pos (List.all_eq_true.1 hall),
        dropWhile_of_stops (stops_cons.2 (by decide))]
    obtain ⟨d, tool, rfl⟩ := List.exists_cons_of_ne_nil hne
    have hd : isDirectiveChar d = true := List.all_eq_true.1 hall d List.mem_cons_self
    rw [isToolCommand, hdrop]
    simp [hd, hc]

theorem directive_iff (body : List Char) :
    Directive ('/' :: '/' :: body) ↔ isDirective body = true := by
  constructor
  · generalize hpiece : '/' :: '/' :: body = piece
    intro h
    cases h with
    | word word known =>
        obtain rfl := (List.cons.inj (List.cons.inj hpiece).2).2
        simp only [List.mem_cons, List.not_mem_nil, or_false] at known
        rcases known with rfl | rfl | rfl <;> rfl
    | command some name start =>
        have hbody := (List.cons.inj (List.cons.inj hpiece).2).2
        rw [isDirective, (isToolCommand_iff body).2 ⟨_, _, _, some, name, start, hbody⟩, Bool.or_true]
  · intro h
    simp only [isDirective, Bool.or_eq_true, List.isPrefixOf_iff_prefix] at h
    rcases h with ((⟨rest, rfl⟩ | ⟨rest, rfl⟩) | ⟨rest, rfl⟩) | htool
    · exact .word "line " (by simp)
    · exact .word "extern " (by simp)
    · exact .word "export " (by simp)
    · obtain ⟨tool, c, rest, hne, hall, hc, rfl⟩ := (isToolCommand_iff body).1 htool
      exact .command hne hall hc

theorem trimmed_trimEnd (cs : List Char) : Trimmed cs (trimEnd cs) :=
  ⟨(dropEndWhile_spec isBlank cs).1, (dropEndWhile_spec isBlank cs).2⟩

theorem eq_replicate_of_all {cs : List Char} (h : cs.all (· == '\n') = true) :
    cs = List.replicate cs.length '\n' := by
  refine List.eq_replicate_iff.2 ⟨rfl, fun c hc => ?_⟩
  simpa using List.all_eq_true.1 h c hc

theorem stripped_stripNewlines (cs : List Char) : Stripped cs (stripNewlines cs) := by
  obtain ⟨⟨dropped, hall, hsplit⟩, hlast⟩ :=
    dropEndWhile_spec (· == '\n') (cs.dropWhile (· == '\n'))
  have hbefore : (cs.takeWhile (· == '\n')).all (· == '\n') = true := List.all_takeWhile
  refine ⟨⟨(cs.takeWhile (· == '\n')).length, dropped.length, ?_⟩, ?_, ?_⟩
  · rw [← eq_replicate_of_all hall, ← eq_replicate_of_all hbefore, List.append_assoc, stripNewlines,
      ← hsplit, List.takeWhile_append_dropWhile]
  · intro hhead
    have hstop := List.head?_dropWhile_not (· == '\n') cs
    rw [hsplit, List.head?_append, ← stripNewlines, hhead] at hstop
    simp at hstop
  · intro hend
    have hfalse := hlast '\n' hend
    simp at hfalse

theorem bodyOf?_directive {body : List Char} (h : isDirective body = true) :
    bodyOf? ('/' :: '/' :: body) = none := by
  simp only [bodyOf?, h, if_true]

theorem bodyOf?_line {body : List Char} (h : isDirective body = false) :
    bodyOf? ('/' :: '/' :: body) =
      some (trimEnd (if body.head? = some ' ' then body.tail else body)) := by
  simp only [bodyOf?, h, Bool.false_eq_true, if_false]
  split
  · rfl
  · next hblank =>
      rw [if_neg fun hhead => ?_]
      obtain ⟨rest, rfl⟩ := List.head?_eq_some_iff.1 hhead
      exact hblank rest rfl

theorem bodyOf?_block (body : List Char) :
    bodyOf? ('/' :: '*' :: body ++ ['*', '/']) = some (trimEnd body) := by
  have hinner : ((('/' :: '*' :: body ++ ['*', '/']).drop 2).dropLast.dropLast) = body := by
    show (body ++ ['*', '/']).dropLast.dropLast = body
    rw [List.append_cons, List.dropLast_concat, List.dropLast_concat]
  rw [bodyOf?, hinner]
  simp

/-- A piece is a directive and has no body, or it has the body that it says. -/
theorem bodyOf?_spec {p : List Char} (h : IsPiece p) :
    (Directive p ∧ bodyOf? p = none) ∨
      (¬ Directive p ∧ ∃ body, Says p body ∧ bodyOf? p = some body) := by
  cases h with
  | @line body oneLine =>
      cases hd : isDirective body with
      | true => exact .inl ⟨(directive_iff body).2 hd, bodyOf?_directive hd⟩
      | false =>
          have hnot : ¬ Directive ('/' :: '/' :: body) := by
            rw [directive_iff, hd]
            exact Bool.false_ne_true
          refine .inr ⟨hnot, _, ?_, bodyOf?_line hd⟩
          by_cases hblank : body.head? = some ' '
          · obtain ⟨rest, rfl⟩ := List.head?_eq_some_iff.1 hblank
            exact .spaced (trimmed_trimEnd rest)
          · rw [if_neg hblank]
            exact .line hblank (trimmed_trimEnd body)
  | @block body oneLine unclosed =>
      refine .inr ⟨?_, trimEnd body, .block (trimmed_trimEnd body), bodyOf?_block body⟩
      generalize hpiece : '/' :: '*' :: body ++ ['*', '/'] = piece
      intro hd
      cases hd with
      | word _ _ | command _ _ _ => exact absurd (List.cons.inj (List.cons.inj hpiece).2).1 (by decide)

theorem gathers_filterMap {ps : List (List Char)} (h : ∀ p ∈ ps, IsPiece p) :
    Gathers ps (ps.filterMap bodyOf?) := by
  induction ps with
  | nil => exact .nil
  | cons p ps ih =>
      have hrest := ih fun q hq => h q (List.mem_cons_of_mem p hq)
      rcases bodyOf?_spec (h p List.mem_cons_self) with ⟨hd, hnone⟩ | ⟨hd, body, hsays, hsome⟩
      · rw [List.filterMap_cons_none hnone]
        exact .skip hd hrest
      · rw [List.filterMap_cons_some hsome]
        exact .keep hd hsays hrest

theorem Gathers.eq_nil_iff {ps bodies : List (List Char)} (h : Gathers ps bodies) :
    bodies = [] ↔ ∀ p ∈ ps, Directive p := by
  induction h with
  | nil => simp
  | skip tool _ ih => simp [ih, tool]
  | keep text _ _ _ => simp [text]

/-- The text of comments is what their pieces tell. -/
theorem told_text (raw : List Char) : Told (pieces raw) (text raw) := by
  have hgathers := gathers_filterMap fun p (hp : p ∈ pieces raw) => isPiece_of_mem_piecesFrom hp
  have hnil := hgathers.eq_nil_iff
  unfold text
  split
  · next hempty => exact ⟨by simpa using hnil.1 hempty, fun told h => nomatch h⟩
  · next bodies hne =>
      refine ⟨?_, fun told h => ?_⟩
      · rw [← hnil]
        exact ⟨fun h => (nomatch h), fun h => absurd h hne⟩
      · obtain rfl := Option.some.inj h
        exact ⟨_, hgathers, stripped_stripNewlines _⟩

end EnumNames.Comment

namespace EnumNames

open EnumNames.Grammar EnumNames.Text

variable {behind cs ds rest text : List Char} {f : Forest} {b : Branch}

/-! ## Reading -/

namespace Grammar

/-- One comment that the grammar reads is the first that searching finds. -/
theorem pieces_commentText (h : (Peg.rule .commentText).Reads behind cs (ds ++ rest) f) :
    Comment.pieces (cs ++ ds) = (f.every .commentText).map (·.text) ++ Comment.pieces ds := by
  obtain ⟨hwidth, rfl⟩ := lexeme_of_reads (t := .shortComment) rfl h
  rw [Comment.pieces_piece (Comment.piece_of_width hwidth).2]
  simp [Forest.every, Forest.nodes, Forest.lexeme, Forest.text]

theorem pieces_many
    (h : (Peg.many (.seq (.rule .indent) (.rule .commentText))).Reads behind cs rest f) :
    Comment.pieces cs = (f.every .commentText).map (·.text) := by
  refine h.many_induction (P := fun _ cs f =>
    Comment.pieces cs = (f.every .commentText).map (·.text)) rfl ?_ ?_
  · exact fun _ _ => rfl
  · intro _ a b g g' ha _ ih
    obtain ⟨blanks, piece, _, t, rfl, hindent, htext, rfl⟩ := parts_of_reads_seq ha
    obtain ⟨hwidth, rfl⟩ := lexeme_of_reads (t := .indent) rfl hindent
    have hblanks := (run_of_takeWhile (Option.some.inj hwidth)).1
    have hnone : (Forest.lexeme .indent blanks).every .commentText = [] := rfl
    rw [List.append_assoc, Comment.pieces_indent hblanks, pieces_commentText htext, ih,
      Forest.every_append, Forest.every_append, hnone, List.nil_append, List.map_append]

/-- The comments of a line are found where the grammar has read them. -/
theorem pieces_lineComment (h : Rule.lineComment.body.Reads behind cs rest f) :
    Comment.pieces cs = (f.every .commentText).map (·.text) := by
  obtain ⟨a, b, g, g', rfl, ha, hb, rfl⟩ := parts_of_reads_seq h
  rw [pieces_commentText ha, pieces_many hb, Forest.every_append, List.map_append]

/-- A tree of a whole text holds all of it. -/
theorem text_of_matchRest {r : Rule} {tree : Branch} (h : r.matchRest text 0 = .ok tree) :
    tree.inside.text = text := by
  obtain ⟨f, rfl, _, hreads⟩ := Rule.reads_of_matchRest h
  have htext := hreads.text_eq
  rwa [Forest.text, Forest.text, List.append_nil] at htext

theorem Placed.pieces_eq (h : Placed text b) (hr : b.rule = .lineComment) :
    Comment.pieces b.inside.text = (b.every .commentText).map (·.inside.text) := by
  obtain ⟨behind, rest, _, _, hreads⟩ := h
  rw [hr] at hreads
  rw [pieces_lineComment hreads, ← b.inside_every, List.map_map]
  rfl

end Grammar

/-! ## Constants -/

/-- A specification of a parsed file is read from its node. -/
theorem SourceFile.constSpec_node {file text : String} {f : SourceFile} {specs : List ConstSpec}
    {grouped : Bool} {loc : Loc} {s : ConstSpec} (h : parse file text = .ok f)
    (hd : .consts specs grouped loc ∈ f.decls) (hs : s ∈ specs) :
    ∃ b, Placed text.toList b ∧ b.rule = .constSpec ∧
      (Reader.ofText file text.toList).constSpec b = .ok s := by
  obtain ⟨tree, hmatch, hread⟩ := matchRest_of_parse h
  have htree := (placed_of_matchRest hmatch).2
  obtain ⟨decls, hdecls, heq⟩ := ok_of_bind hread
  cases heq
  obtain ⟨d, hmem, hdecl⟩ := exists_of_mapM_ok hdecls hd
  obtain ⟨t, ht, htop⟩ := List.mem_filterMap.1 hmem
  have hplaced := ((htree.of_mem_every ht).2.of_first? htop).2
  unfold Reader.decl at hdecl
  split at hdecl
  · cases hdecl
  · next c _ hc =>
      obtain ⟨read, hspecs, heq⟩ := ok_of_bind hdecl
      cases heq
      obtain ⟨b, hb, hspec⟩ := exists_of_mapM_ok hspecs hs
      exact ⟨b, Reader.placed_of_mem_specs (hplaced.of_first? hc).2 hb, Reader.rule_of_mem_specs hb,
        hspec⟩
  · cases hdecl

/-- The comment of a specification, from the node of its comments. -/
theorem Reader.comment_constSpec {r : Reader} {s : ConstSpec} (h : r.constSpec b = .ok s) :
    s.comment =
      (b.first? .lineComment).bind fun c => (Comment.text c.inside.text).map String.ofList := by
  obtain ⟨values, _, heq⟩ := ok_of_bind h
  cases heq
  rfl

/-- The pieces that searching finds in the comments of a line are the comments that the grammar has
read, in order. So what is kept of a line's comments is what those comments tell, also for the
constants of a file. -/
theorem comment_pieces_are_nodes (file text : String) :
    (∀ tree, Rule.lineComment.matchRest text.toList 0 = .ok tree →
      Comment.pieces text.toList = (tree.every .commentText).map (·.inside.text) ∧
      Comment.Told ((tree.every .commentText).map (·.inside.text)) (Comment.text text.toList)) ∧
    ∀ f, SourceFile.parse file text = .ok f →
      ∀ specs grouped loc, .consts specs grouped loc ∈ f.decls → ∀ s ∈ specs,
        ∃ b, Placed text.toList b ∧ b.rule = .constSpec ∧
          (Reader.ofText file text.toList).constSpec b = .ok s ∧
          (b.first? .lineComment = none → s.comment = none) ∧
          ∀ c, b.first? .lineComment = some c →
            Comment.pieces c.inside.text = (c.every .commentText).map (·.inside.text) ∧
            Comment.Told ((c.every .commentText).map (·.inside.text)) (s.comment.map String.toList) := by
  refine ⟨?_, ?_⟩
  · intro tree hmatch
    obtain ⟨hrule, hplaced⟩ := placed_of_matchRest hmatch
    have hpieces := hplaced.pieces_eq hrule
    rw [text_of_matchRest hmatch] at hpieces
    exact ⟨hpieces, hpieces ▸ Comment.told_text text.toList⟩
  · intro f hf specs grouped loc hd s hs
    obtain ⟨b, hplaced, hrule, hspec⟩ := SourceFile.constSpec_node hf hd hs
    have hcomment := Reader.comment_constSpec hspec
    refine ⟨b, hplaced, hrule, hspec, fun hnone => ?_, fun c hc => ?_⟩
    · rw [hcomment, hnone]
      rfl
    · obtain ⟨hcrule, hcplaced⟩ := hplaced.of_first? hc
      have hpieces := hcplaced.pieces_eq hcrule
      have hkept : s.comment.map String.toList = Comment.text c.inside.text := by
        rw [hcomment, hc, Option.bind_some, Option.map_map]
        simp
      rw [hkept, ← hpieces]
      exact ⟨rfl, Comment.told_text _⟩

def markedComment : String := "/* // *//*go:x*/ \t/**/ //go:x /* */ "

theorem marked_comment_pieces :
    ∃ tree, Rule.lineComment.matchRest markedComment.toList 0 = .ok tree ∧
      (tree.every .commentText).map (·.inside.text) =
        ["/* // */".toList, "/*go:x*/".toList, "/**/".toList, "//go:x /* */ ".toList] ∧
      Comment.Told ["/* // */".toList, "/*go:x*/".toList, "/**/".toList, "//go:x /* */ ".toList]
        (some " //\ngo:x".toList) := by
  have hok : (Rule.lineComment.matchRest markedComment.toList 0).isOk = true := by decide +kernel
  obtain ⟨tree, htree⟩ := exists_of_isOk hok
  obtain ⟨hpieces, htold⟩ := (comment_pieces_are_nodes "t.go" markedComment).1 tree htree
  have hfound : Comment.pieces markedComment.toList =
      ["/* // */".toList, "/*go:x*/".toList, "/**/".toList, "//go:x /* */ ".toList] := by
    decide +kernel
  have htext : Comment.text markedComment.toList = some " //\ngo:x".toList := by decide +kernel
  rw [← hpieces, hfound, htext] at htold
  exact ⟨tree, htree, hpieces.symm.trans hfound, htold⟩

end EnumNames
