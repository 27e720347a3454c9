import EnumNames.Proofs.AnalysisFailures
import EnumNames.Proofs.LineEndPlaces
import EnumNames.Proofs.Outline

/-!
Reading with other line ends. A comment that goes up to a line end has the same
text with and without a carriage return there, and so every part of a file is read
alike, but for texts that are kept as written. Hence a source is accepted with
either line ends, and the analysis comes to the same end.
-/

namespace EnumNames.Comment

open EnumNames.Text EnumNames.Grammar

/-! ## Comments before a carriage return -/

theorem trimEnd_append_cr (cs : List Char) : trimEnd (cs ++ ['\r']) = trimEnd cs := by
  have hblank : isBlank '\r' = true := by decide
  simp [trimEnd, dropEndWhile, hblank]

theorem isPrefixOf_append_cr {word : List Char} (h : '\r' ∉ word) (cs : List Char) :
    word.isPrefixOf (cs ++ ['\r']) = word.isPrefixOf cs := by
  induction word generalizing cs with
  | nil => simp
  | cons c word ih =>
      rw [List.mem_cons, not_or] at h
      cases cs with
      | nil => simp [List.isPrefixOf, Ne.symm h.1]
      | cons d cs => simp [List.isPrefixOf, ih h.2]

theorem isToolCommand_append_cr (cs : List Char) :
    isToolCommand (cs ++ ['\r']) = isToolCommand cs := by
  have hcr : isDirectiveChar '\r' = false := by decide
  have hdrop : (cs ++ ['\r']).dropWhile isDirectiveChar =
      cs.dropWhile isDirectiveChar ++ ['\r'] := by
    rw [List.dropWhile_append]
    split
    · next hnil => simp [List.isEmpty_iff.1 hnil, hcr]
    · rfl
  rw [isToolCommand, isToolCommand, hdrop]
  match htail : cs.dropWhile isDirectiveChar with
  | [] => rfl
  | [c] =>
      by_cases hc : c = ':'
      · simp [hc, hcr]
      · simp [hc]
  | c :: d :: tail =>
      by_cases hc : c = ':'
      · have hne : cs ≠ [] := by
          rintro rfl
          cases htail
        obtain ⟨x, xs, rfl⟩ := List.exists_cons_of_ne_nil hne
        simp [hc]
      · simp [hc]

theorem isDirective_append_cr (body : List Char) :
    isDirective (body ++ ['\r']) = isDirective body := by
  rw [isDirective, isDirective, isPrefixOf_append_cr (by decide), isPrefixOf_append_cr (by decide),
    isPrefixOf_append_cr (by decide), isToolCommand_append_cr]

theorem bodyOf?_append_cr (body : List Char) :
    bodyOf? ('/' :: '/' :: (body ++ ['\r'])) = bodyOf? ('/' :: '/' :: body) := by
  simp only [bodyOf?, isDirective_append_cr]
  congr 1
  cases body with
  | nil => rfl
  | cons c body =>
      by_cases hc : c = ' '
      · subst hc
        simp [trimEnd_append_cr]
      · have htrim := trimEnd_append_cr (c :: body)
        rw [List.cons_append] at htrim
        simp [hc, htrim]

theorem piecesFrom_length (cs : List Char) : piecesFrom cs.length cs = [] := by
  induction cs with
  | nil => rfl
  | cons c cs ih => exact ih

/-- A line comment is the last one of its line. -/
theorem piecesFrom_lineComment {ds : List Char} (hn : '\n' ∉ ds) :
    piecesFrom 0 ('/' :: '/' :: ds) = ['/' :: '/' :: ds] := by
  have hall : ds.takeWhile (· != '\n') = ds := by
    have hline : ∀ c ∈ ds, (c != '\n') = true := by
      intro c hc
      have hne : c ≠ '\n' := fun heq => hn (heq ▸ hc)
      simpa using hne
    have happend : (ds ++ []).takeWhile (· != '\n') = ds ++ [].takeWhile (· != '\n') :=
      List.takeWhile_append_of_pos hline
    simpa using happend
  have hwidth : shortCommentWidth ('/' :: '/' :: ds) = some (('/' :: '/' :: ds).length) := by
    rw [shortCommentWidth, lineCommentWidth, hall, Nat.add_comm]
    rfl
  have hrest : piecesFrom (('/' :: '/' :: ds).length - 1) ('/' :: ds) = [] :=
    piecesFrom_length ('/' :: ds)
  rw [piecesFrom, hwidth]
  simp only [List.take_length, hrest]

theorem bodies_append_cr (skip : Nat) {cs : List Char} (hn : '\n' ∉ cs) :
    (piecesFrom skip (cs ++ ['\r'])).filterMap bodyOf? =
      (piecesFrom skip cs).filterMap bodyOf? := by
  induction cs generalizing skip with
  | nil => cases skip <;> rfl
  | cons c cs ih =>
      have hcs : '\n' ∉ cs := fun hmem => hn (List.mem_cons_of_mem c hmem)
      cases skip with
      | succ skip => exact ih skip hcs
      | zero =>
          by_cases hopens : Opens '/' (c :: cs)
          · obtain ⟨ds, hds⟩ := hopens
            rw [hds] at hn ⊢
            have hds' : '\n' ∉ ds := fun hmem => hn (by simp [hmem])
            rw [List.cons_append, List.cons_append, piecesFrom_lineComment hds',
              piecesFrom_lineComment (by simpa using hds')]
            simp only [List.filterMap_cons, bodyOf?_append_cr]
          · -- Any other comment is closed within the text.
            have hwidth : shortCommentWidth (c :: cs ++ ['\r']) = shortCommentWidth (c :: cs) := by
              rw [shortCommentWidth, shortCommentWidth, lineCommentWidth_of_not_opens hopens,
                lineCommentWidth_of_not_opens (not_opens_append hopens (stops_cons.2 rfl)),
                inlineCommentWidth_append (by simp [closeWidth, passed]) (stops_cons.2 rfl)]
            rw [List.cons_append] at hwidth
            rw [List.cons_append, piecesFrom, piecesFrom, hwidth]
            cases hw : shortCommentWidth (c :: cs) with
            | none => exact ih 0 hcs
            | some n =>
                have htoken : Token.shortComment.width [] (c :: cs) = some n := hw
                have hle := (Token.width_bounds htoken).1
                simp only
                rw [← List.cons_append, List.take_append_of_le_length hle, List.filterMap_cons,
                  List.filterMap_cons, ih (n - 1) hcs]

theorem text_append_pend (half : Bool) {cs : List Char} (hn : '\n' ∉ cs) :
    Comment.text (cs ++ pend half) = Comment.text cs := by
  cases half with
  | false => rw [pend_false, List.append_nil]
  | true => rw [pend_true, Comment.text, Comment.text, pieces, pieces, bodies_append_cr 0 hn]

end EnumNames.Comment

namespace EnumNames.Reader

open EnumNames.Text EnumNames.Grammar

variable {text : List Char} {r : Rule} {b b' : Branch}

/-! ## Parts of a line -/

/-- Nodes that are not read within a line end have the same position. -/
theorem loc_crlf (hb : Paired text b b') (hr : b.rule = r) (hlevel : r.halves true = none)
    (file : String) : (ofText file (crlf text)).loc b' = (ofText file text).loc b := by
  subst hr
  obtain ⟨_, hat, _⟩ := hb.level hlevel
  exact hat.loc file

theorem text_crlf (hb : Paired text b b') (hr : b.rule = r) (hplain : r.plain = true)
    (hcr : '\r' ∉ text) : b'.text = b.text := by
  subst hr
  rw [Branch.text, Branch.text, hb.text_eq hcr hplain]

theorem ident_crlf (hb : Paired text b b') (hr : b.rule = r) (hplain : r.plain = true)
    (hcr : '\r' ∉ text) (file : String) :
    (ofText file (crlf text)).ident b' = (ofText file text).ident b := by
  rw [ident, ident, text_crlf hb hr hplain hcr, loc_crlf hb hr (Rule.of_plain hplain).1]

/-- A rune literal begins with its quote. -/
theorem head?_charLit (hb : Placed text b) (hr : b.rule = .charLit) :
    b.inside.text.head? = some '\'' := by
  obtain ⟨_, rest, _, _, hreads⟩ := hb
  rw [hr] at hreads
  obtain ⟨hwidth, _⟩ := width_of_reads hreads
  cases hcs : b.inside.text with
  | nil =>
      rw [hcs] at hwidth
      exact absurd (Token.width_bounds hwidth).2 (by simp [Token.mayBeEmpty])
  | cons c cs =>
      by_cases hc : c = '\''
      · rw [hc]
        rfl
      · rw [hcs] at hwidth
        exact absurd hwidth (by simp [Token.width, runeWidth_eq_none hc])

/-- So it is not read within a line end, although its rule may be tried there. -/
theorem charLit_crlf (hb : Paired text b b') (hr : b.rule = .charLit) (hcr : '\r' ∉ text)
    (file : String) :
    b'.inside.text = b.inside.text ∧
      (ofText file (crlf text)).loc b' = (ofText file text).loc b := by
  obtain ⟨h', hat, hflow⟩ :=
    hb.level_of_head (head?_charLit hb.placed hr) (by decide) (by decide)
  obtain rfl : h' = false := by
    rw [← Bool.not_eq_true]
    intro htrue
    obtain ⟨half, hhalf⟩ := hflow htrue
    rw [hr] at hhalf
    cases hhalf
  refine ⟨?_, hat.loc file⟩
  have hline : b.rule.oneLine 1 = true := by
    rw [hr]
    rfl
  rw [hat.text_eq (hb.placed.newline_not_mem hcr hline), pend_false, List.append_nil]

/-! ## Values -/

theorem operand_crlf (hb : Paired text b b') (hr : b.rule = .operand) (hcr : '\r' ∉ text)
    (file : String) :
    (ofText file (crlf text)).operand b' = (ofText file text).operand b := by
  have hint := hb.first? .intLit
  have hchar := hb.first? .charLit
  rw [operand, operand]
  generalize b.first? .intLit = i, b'.first? .intLit = i' at hint
  generalize b.first? .charLit = c, b'.first? .charLit = c' at hchar
  cases hint with
  | some hlit =>
      simp only [text_crlf hlit.1 hlit.2 rfl hcr, loc_crlf hlit.1 hlit.2 rfl]
  | none =>
      cases hchar with
      | some hlit =>
          obtain ⟨htext, hloc⟩ := charLit_crlf hlit.1 hlit.2 hcr file
          simp only [Branch.text, htext, hloc]
      | none => simp only [ident_crlf hb hr rfl hcr]

theorem verbatim_crlf (hb : Paired text b b') (hr : b.rule = r) (hlevel : r.halves true = none)
    (file : String) :
    ((ofText file (crlf text)).verbatim b').outline = ((ofText file text).verbatim b).outline := by
  rw [verbatim, verbatim, loc_crlf hb hr hlevel]
  rfl

theorem binary_crlf (hb : Paired text b b') (hr : b.rule = .binaryExpr) (hcr : '\r' ∉ text)
    (file : String) :
    ((ofText file (crlf text)).binary b').map Expr.outline =
      ((ofText file text).binary b).map Expr.outline := by
  have hoperands := hb.every .operand
  have hop := hb.first? .addOp
  rw [binary, binary]
  generalize b.every .operand = xs, b'.every .operand = xs' at hoperands
  generalize b.first? .addOp = op, b'.first? .addOp = op' at hop
  have hother : (Except.ok ((ofText file (crlf text)).verbatim b') :
      Except Rune.Fault Expr).map Expr.outline =
        (Except.ok ((ofText file text).verbatim b)).map Expr.outline :=
    congrArg Except.ok (verbatim_crlf hb hr rfl file)
  cases hoperands with
  | nil => exact hother
  | cons hleft hrest =>
      cases hrest with
      | nil => exact hother
      | cons hright hrest =>
          cases hrest with
          | cons _ _ => exact hother
          | nil =>
              cases hop with
              | none => exact hother
              | some hsign =>
                  simp only [operand_crlf hleft.1 hleft.2 hcr, operand_crlf hright.1 hright.2 hcr,
                    text_crlf hsign.1 hsign.2 rfl hcr, loc_crlf hb hr rfl]

theorem value_crlf (hb : Paired text b b') (hr : b.rule = .expr) (hcr : '\r' ∉ text)
    (file : String) :
    ((ofText file (crlf text)).value b').map Expr.outline =
      ((ofText file text).value b).map Expr.outline := by
  have hbinary := hb.reach? [.simpleExpr, .simpleShape, .binaryExpr] rfl
  have hoperand := hb.reach? [.simpleExpr, .simpleShape, .operand] rfl
  rw [value, value]
  generalize b.reach? [.simpleExpr, .simpleShape, .binaryExpr] = x,
    b'.reach? [.simpleExpr, .simpleShape, .binaryExpr] = x' at hbinary
  generalize b.reach? [.simpleExpr, .simpleShape, .operand] = y,
    b'.reach? [.simpleExpr, .simpleShape, .operand] = y' at hoperand
  cases hbinary with
  | some he => exact binary_crlf he.1 he.2 hcr file
  | none =>
      cases hoperand with
      | some he => simp only [operand_crlf he.1 he.2 hcr file]
      | none => exact congrArg Except.ok (verbatim_crlf hb hr rfl file)

/-! ## Types -/

/-- Both nodes stand for the same name, or both are kept as written. -/
theorem typeRef_cases (hb : Paired text b b') (path : List Rule)
    (hpath : path.getLast? = some .identifier) (hcr : '\r' ∉ text) (file : String) :
    (ofText file (crlf text)).typeRef b' path = (ofText file text).typeRef b path ∨
      (ofText file (crlf text)).typeRef b' path =
          .verbatim (trimmed b') ((ofText file (crlf text)).loc b') ∧
        (ofText file text).typeRef b path = .verbatim (trimmed b) ((ofText file text).loc b) := by
  have hident := hb.reach? path hpath
  rw [typeRef, typeRef]
  generalize b.reach? path = id, b'.reach? path = id' at hident
  cases hident with
  | some hid => exact .inl (by simp only [ident_crlf hid.1 hid.2 rfl hcr])
  | none => exact .inr ⟨rfl, rfl⟩

theorem typeRef_crlf (hb : Paired text b b') (hr : b.rule = .typeExpr) (hcr : '\r' ∉ text)
    (file : String) :
    ((ofText file (crlf text)).typeRef b' [.namedType, .identifier]).outline =
      ((ofText file text).typeRef b [.namedType, .identifier]).outline := by
  rcases typeRef_cases hb [.namedType, .identifier] rfl hcr file with hsame | ⟨htype', htype⟩
  · rw [hsame]
  · rw [htype', htype, loc_crlf hb hr rfl]
    rfl

/-- The type of a constant is within a line. -/
theorem typeName_crlf (hb : Paired text b b') (hr : b.rule = .typeName) (hcr : '\r' ∉ text)
    (file : String) :
    (ofText file (crlf text)).typeRef b' [.identifier] =
      (ofText file text).typeRef b [.identifier] := by
  rcases typeRef_cases hb [.identifier] rfl hcr file with hsame | ⟨htype', htype⟩
  · exact hsame
  · rw [htype', htype, trimmed, trimmed, hb.text_eq hcr (by rw [hr]; rfl), loc_crlf hb hr rfl]

/-- A node has the children that its rule calls for. -/
theorem exists_first? {part : Rule} (hb : Placed text b) (hr : b.rule = r)
    (hpart : r.body.requires part = true) : ∃ c, b.first? part = some c := by
  subst hr
  obtain ⟨behind, rest, _, _, hreads⟩ := hb
  have hinside :=
    Peg.first?_of_requires (fun r c => Rule.node_of_runWithin _ r c) _ hpart (hreads 0)
  rw [← b.inside_first? part, Option.isSome_map] at hinside
  exact Option.isSome_iff_exists.1 hinside

theorem typeSpec_crlf (hb : Paired text b b') (hr : b.rule = .typeSpec) (hcr : '\r' ∉ text)
    (file : String) :
    ((ofText file (crlf text)).typeSpec b').outline = ((ofText file text).typeSpec b).outline := by
  have hname := hb.first? .identifier
  have htype := hb.first? .typeExpr
  have halias := hb.first? .aliasMark
  have hrequires : ∀ part, Rule.typeSpec.body.requires part = true → ∃ c, b.first? part = some c :=
    fun part => exists_first? hb.placed hr
  obtain ⟨id, hid⟩ := hrequires .identifier rfl
  obtain ⟨t, ht⟩ := hrequires .typeExpr rfl
  rw [typeSpec, typeSpec, TypeSpec.outline, TypeSpec.outline]
  rw [hid] at hname ⊢
  rw [ht] at htype ⊢
  generalize b'.first? .identifier = id' at hname
  generalize b'.first? .typeExpr = t' at htype
  generalize b.first? .aliasMark = a, b'.first? .aliasMark = a' at halias
  cases hname with
  | some hid =>
      cases htype with
      | some ht =>
          have halias : a'.isSome = a.isSome := by
            cases halias with
            | none => rfl
            | some _ => rfl
          simp only [Option.getD_some, text_crlf hid.1 hid.2 rfl hcr,
            typeRef_crlf ht.1 ht.2 hcr, halias, loc_crlf hb hr rfl]

/-! ## Constants -/

section Related

variable {α β γ : Type} {R : α → β → Prop}

theorem map_eq_of_forall₂ {f : α → γ} {g : β → γ} {as : List α} {bs : List β}
    (h : List.Forall₂ R as bs) (hfg : ∀ a b, R a b → g b = f a) : bs.map g = as.map f := by
  induction h with
  | nil => rfl
  | cons hab _ ih => rw [List.map_cons, List.map_cons, hfg _ _ hab, ih]

theorem bind_eq_of_rel {f : α → Option γ} {g : β → Option γ} {x : Option α} {y : Option β}
    (h : Option.Rel R x y) (hfg : ∀ a b, R a b → g b = f a) : y.bind g = x.bind f := by
  cases h with
  | none => rfl
  | some hab => exact hfg _ _ hab

theorem map_eq_of_rel {f : α → γ} {g : β → γ} {x : Option α} {y : Option β}
    (h : Option.Rel R x y) (hfg : ∀ a b, R a b → g b = f a) : y.map g = x.map f := by
  rw [Option.map_eq_bind, Option.map_eq_bind]
  exact bind_eq_of_rel h fun a b hab => congrArg some (hfg a b hab)

end Related

theorem forall₂_every {r' : Rule} {x x' : Option Branch}
    (h : Option.Rel (fun c c' => Paired text c c' ∧ c.rule = r') x x') :
    List.Forall₂ (fun c c' => Paired text c c' ∧ c.rule = r) ((x.map (·.every r)).getD [])
      ((x'.map (·.every r)).getD []) := by
  cases h with
  | none => exact .nil
  | some hc => exact hc.1.every r

theorem comment_crlf (hb : Paired text b b') (hr : b.rule = .lineComment) (hcr : '\r' ∉ text) :
    Comment.text b'.inside.text = Comment.text b.inside.text := by
  obtain ⟨h', hat, _⟩ := hb.level (by rw [hr]; rfl)
  have hline : b.rule.oneLine 2 = true := by
    rw [hr]
    rfl
  have hn := hb.placed.newline_not_mem hcr hline
  rw [hat.text_eq hn, Comment.text_append_pend h' hn]

theorem constSpec_crlf (hb : Paired text b b') (hr : b.rule = .constSpec) (hcr : '\r' ∉ text)
    (file : String) :
    ((ofText file (crlf text)).constSpec b').map ConstSpec.outline =
      ((ofText file text).constSpec b).map ConstSpec.outline := by
  have hvalues : List.Forall₂ _ _ _ := forall₂_every (r := .expr)
    (hb.reach? [.constValues, .exprList] rfl)
  have hnames := map_eq_of_forall₂ (forall₂_every (r := .identifier) (hb.first? .identifierList))
    fun _ _ hid => ident_crlf hid.1 hid.2 rfl hcr file
  have htype := map_eq_of_rel (hb.reach? [.constType, .typeName] rfl)
    fun _ _ ht => typeName_crlf ht.1 ht.2 hcr file
  have hcomment := bind_eq_of_rel (hb.first? .lineComment)
    fun _ _ hc => congrArg (Option.map String.ofList) (comment_crlf hc.1 hc.2 hcr)
  rw [constSpec, constSpec, hnames, htype, hcomment, loc_crlf hb hr rfl]
  refine bind_agree (mapM_agree (hvalues.imp fun _ _ he => value_crlf he.1 he.2 hcr file)) ?_
  intro values values' h
  exact congrArg Except.ok (by simp only [ConstSpec.outline, h])

/-! ## Declarations -/

theorem specs_crlf {x x' : Option Branch} (bracketed item spec : Rule)
    (h : Option.Rel (fun c c' => Paired text c c' ∧ c.rule = r) x x') :
    List.Forall₂ (fun c c' => Paired text c c' ∧ c.rule = spec)
        (specs x bracketed item spec).1 (specs x' bracketed item spec).1 ∧
      (specs x' bracketed item spec).2 = (specs x bracketed item spec).2 := by
  cases h with
  | none => exact ⟨.nil, rfl⟩
  | @some body body' hbody =>
      have hgroup := hbody.1.first? bracketed
      rw [specs, specs]
      generalize body.first? bracketed = g, body'.first? bracketed = g' at hgroup
      cases hgroup with
      | none => exact ⟨hbody.1.every spec, rfl⟩
      | some hg =>
          refine ⟨List.rel_filterMap (fun _ _ hi => ?_) (hg.1.every item), rfl⟩
          exact hi.1.first? spec

theorem decl_crlf (hb : Paired text b b') (hr : b.rule = .topDecl) (hcr : '\r' ∉ text)
    (file : String) :
    ((ofText file (crlf text)).decl b').map Decl.outline =
      ((ofText file text).decl b).map Decl.outline := by
  have htypes := hb.first? .typeDecl
  have hconsts := hb.first? .constDecl
  rw [decl, decl]
  generalize b.first? .typeDecl = t, b'.first? .typeDecl = t' at htypes
  generalize b.first? .constDecl = c, b'.first? .constDecl = c' at hconsts
  cases htypes with
  | some hd =>
      obtain ⟨hspecs, hgrouped⟩ :=
        specs_crlf .typeGroup .groupedType .typeSpec (hd.1.first? .typeBody)
      have houtlines := map_eq_of_forall₂ hspecs fun _ _ hs => typeSpec_crlf hs.1 hs.2 hcr file
      simp only [Except.map, Decl.outline, List.map_map, Function.comp_def, houtlines, hgrouped,
        loc_crlf hd.1 hd.2 rfl]
  | none =>
      cases hconsts with
      | some hd =>
          obtain ⟨hspecs, hgrouped⟩ :=
            specs_crlf .constGroup .groupedConst .constSpec (hd.1.first? .constBody)
          simp only [hgrouped, loc_crlf hd.1 hd.2 rfl]
          refine bind_agree
            (mapM_agree (hspecs.imp fun _ _ hs => constSpec_crlf hs.1 hs.2 hcr file))
            fun specs specs' h => congrArg Except.ok ?_
          simp only [Decl.outline, h]
      | none =>
          have hkeyword := map_eq_of_rel (hb.reach? [.otherDecl, .otherKw] rfl)
            fun _ _ hk => text_crlf hk.1 hk.2 rfl hcr
          simp only [hkeyword, loc_crlf hb hr rfl]
          rfl

theorem sourceFile_crlf (hb : Paired text b b') (hcr : '\r' ∉ text) (file : String) :
    ((ofText file (crlf text)).sourceFile b').map SourceFile.outline =
      ((ofText file text).sourceFile b).map SourceFile.outline := by
  have hdecls := List.rel_filterMap (fun _ _ ht => ht.1.first? .topDecl) (hb.every .topLevel)
  have hpackage := map_eq_of_rel (hb.reach? [.packageClause, .identifier] rfl)
    fun _ _ hid => text_crlf hid.1 hid.2 rfl hcr
  rw [sourceFile, sourceFile, hpackage]
  refine bind_agree (mapM_agree (hdecls.imp fun _ _ hd => decl_crlf hd.1 hd.2 hcr file))
    fun decls decls' h => congrArg Except.ok ?_
  simp only [SourceFile.outline, h]
  rfl

end EnumNames.Reader

namespace EnumNames

open EnumNames.Text EnumNames.Grammar

/-! ## Files -/

def returned (source : String × String) : String × String :=
  (source.1, String.ofList (crlf source.2.toList))

/-- The trees of a text with either line ends correspond. -/
theorem paired_trees {text : List Char} {tree : Branch} (hcr : '\r' ∉ text)
    (h : Rule.sourceFile.matchRest text 0 = .ok tree) :
    ∃ tree', Rule.sourceFile.matchRest (crlf text) 0 = .ok tree' ∧ Paired text tree tree' := by
  have hplaced := (placed_of_matchRest h).2
  obtain ⟨f, rfl, _⟩ := Rule.reads_of_matchRest h
  have hhalves : Rule.sourceFile.halves false = some false := rfl
  obtain ⟨f', h', hmatch, hhalf, hf⟩ := Rule.crossed_matchRest hhalves hcr h
  exact ⟨_, hmatch, false, h', hplaced, rfl, rfl, hf, false, false, hhalves, fun h => h, hhalf⟩

theorem parse_returned {source : String × String} {file : SourceFile}
    (hcr : '\r' ∉ source.2.toList) (h : SourceFile.parse source.1 source.2 = .ok file) :
    ∃ file', SourceFile.parse (returned source).1 (returned source).2 = .ok file' ∧
      file'.outline = file.outline := by
  obtain ⟨tree, hmatch, hread⟩ := SourceFile.matchRest_of_parse h
  obtain ⟨tree', hmatch', hpaired⟩ := paired_trees hcr hmatch
  have hlist : (returned source).2.toList = crlf source.2.toList := String.toList_ofList
  rw [← hlist] at hmatch'
  obtain ⟨file', hread', hparsed'⟩ := SourceFile.parse_of_matchRest source.1 hmatch'
  have hsame := Reader.sourceFile_crlf hpaired hcr source.1
  rw [← hlist, hread, hread'] at hsame
  exact ⟨file', hparsed', Except.ok.inj hsame⟩

theorem parseAll_returned {sources : List (String × String)} {files : List SourceFile}
    (hcr : ∀ s ∈ sources, '\r' ∉ s.2.toList)
    (h : sources.mapM (fun s => SourceFile.parse s.1 s.2) = .ok files) :
    ∃ files', (sources.map returned).mapM (fun s => SourceFile.parse s.1 s.2) = .ok files' ∧
      files'.map (·.outline) = files.map (·.outline) := by
  induction sources generalizing files with
  | nil =>
      cases h
      exact ⟨[], rfl, rfl⟩
  | cons s sources ih =>
      rw [List.mapM_cons] at h
      obtain ⟨file, hfile, h⟩ := ok_of_bind h
      obtain ⟨rest, hrest, h⟩ := ok_of_bind h
      cases h
      obtain ⟨file', hfile', hout⟩ := parse_returned (hcr s (by simp)) hfile
      obtain ⟨rest', hrest', houts⟩ := ih (fun s hs => hcr s (by simp [hs])) hrest
      refine ⟨file' :: rest', ?_, by rw [List.map_cons, List.map_cons, hout, houts]⟩
      rw [List.map_cons, List.mapM_cons, hfile', hrest']
      rfl

/-- Line ends do not matter. Sources without carriage returns that can be read can also be read
with a carriage return before each newline. The files have the same outline: all that they say at
the same positions, but for the texts of values, types and declarations that are kept as written.
Checking the type ends alike, and the constants found are the same, or the failure is of the same
kind and at the same place. -/
theorem line_ends_do_not_matter {sources : List (String × String)} {files : List SourceFile}
    (hcr : ∀ s ∈ sources, '\r' ∉ s.2.toList)
    (h : sources.mapM (fun s => SourceFile.parse s.1 s.2) = .ok files) :
    ∃ files', (sources.map returned).mapM (fun s => SourceFile.parse s.1 s.2) = .ok files' ∧
      files'.map (·.outline) = files.map (·.outline) ∧
      ∀ o : Options, checkType o.type files' = checkType o.type files ∧
        (resolve o files').result.mapError Failure.gist =
          (resolve o files).result.mapError Failure.gist := by
  obtain ⟨files', hfiles', hout⟩ := parseAll_returned hcr h
  refine ⟨files', hfiles', hout, fun o => ⟨?_, ?_⟩⟩
  · rw [← checkType_outline o.type files', hout, checkType_outline]
  · rw [← resolve_outline o files', hout, resolve_outline]

def commentedSource : String × String :=
  ("t.go", "package p\nconst (\n\tA T = iota + 1 // one\n\tB /* of\nT */\n\tC // three\n)\n")

theorem commented_source_with_returns :
    '\r' ∉ commentedSource.2.toList ∧
    ∃ files files', [commentedSource].mapM (fun s => SourceFile.parse s.1 s.2) = .ok files ∧
      [returned commentedSource].mapM (fun s => SourceFile.parse s.1 s.2) = .ok files' ∧
      files'.map (·.outline) = files.map (·.outline) ∧
      (resolve { type := "T", lineComment := true } files').result.mapError Failure.gist =
        (resolve { type := "T", lineComment := true } files).result.mapError Failure.gist := by
  have hcr : '\r' ∉ commentedSource.2.toList := by decide +kernel
  have hok : ([commentedSource].mapM fun s => SourceFile.parse s.1 s.2).isOk = true := by
    decide +kernel
  obtain ⟨files, hfiles⟩ := exists_of_isOk hok
  have hall : ∀ s ∈ [commentedSource], '\r' ∉ s.2.toList := by simpa using hcr
  obtain ⟨files', hfiles', hout, hverdict⟩ := line_ends_do_not_matter hall hfiles
  exact ⟨hcr, files, files', hfiles, hfiles', hout, (hverdict _).2⟩

end EnumNames
