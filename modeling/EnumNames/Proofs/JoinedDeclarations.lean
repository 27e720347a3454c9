import EnumNames.Proofs.DeclarationEnd
import EnumNames.Proofs.ParsedNames
import EnumNames.Proofs.SectionFile

/-!
Files put together from declarations. A declaration is a text that is read as
one by itself, without a comment at its end and without an end after which a line
goes on. Declarations with line ends between them make up a file that is read as
these declarations, one after the other. A semicolon separates them as well,
unless it stands behind a declaration that is passed over: there it belongs to
the line, with all that follows on it.
-/

namespace EnumNames

open EnumNames.Grammar EnumNames.Text

/-! ## Values of trees -/

namespace Grammar.Forest

variable {f : Forest}

theorem Sound.operand_ok (hf : f.Sound) : ∃ x, f.operand = .ok x := by
  unfold Forest.operand
  split
  · exact ⟨_, rfl⟩
  · next lit _ hlit =>
      obtain ⟨_, rest, hwidth⟩ := (hf.of_first? hlit).1.lexeme .rune rfl
      obtain ⟨_, _, hquoted⟩ := quoted_rune hwidth
      have hvalue := Rune.value_eq_code (by simpa using hquoted [])
      exact ⟨_, by rw [hvalue]; rfl⟩
  · exact ⟨_, rfl⟩

theorem Sound.binary_ok (hf : f.Sound) : ∃ x, f.binary = .ok x := by
  unfold Forest.binary
  split
  · next left right op hoperands _ =>
      have hleft : left ∈ f.every .operand := by simp [hoperands]
      have hright : right ∈ f.every .operand := by simp [hoperands]
      obtain ⟨x, hx⟩ := (hf.of_mem_every hleft).2.operand_ok
      obtain ⟨y, hy⟩ := (hf.of_mem_every hright).2.operand_ok
      exact ⟨_, by rw [hx, ok_bind, hy, ok_bind]; rfl⟩
  · exact ⟨_, rfl⟩

theorem Sound.of_reach? {g : Forest} {path : List Rule} (hf : f.Sound)
    (h : f.reach? path = some g) : g.Sound := by
  induction path generalizing f with
  | nil => exact Option.some.inj h ▸ hf
  | cons r path ih =>
      obtain ⟨child, hchild, hreach⟩ := Option.bind_eq_some_iff.1 h
      exact ih (hf.of_first? hchild).2 hreach

theorem Sound.value_ok (hf : f.Sound) : ∃ x, f.value = .ok x := by
  unfold Forest.value
  split
  · next h => exact (hf.of_reach? h).binary_ok
  · next h => exact (hf.of_reach? h).operand_ok
  · exact ⟨_, rfl⟩

theorem Sound.constSpec_ok (hf : f.Sound) : ∃ s, f.constSpec = .ok s := by
  have hvalues : ∀ g ∈ ((f.reach? [.constValues, .exprList]).map (·.every .expr)).getD [],
      ∃ x, g.value = .ok x := by
    intro g hg
    cases hlist : f.reach? [.constValues, .exprList] with
    | none => simp [hlist] at hg
    | some list =>
        rw [hlist] at hg
        exact ((hf.of_reach? hlist).of_mem_every hg).2.value_ok
  obtain ⟨values, hvalues⟩ := mapM_ok hvalues
  exact ⟨_, by rw [Forest.constSpec, hvalues]; rfl⟩

/-- Every declaration of a sound tree can be read off it. -/
theorem Sound.decl_ok (hf : f.Sound) : ∃ d, f.decl = .ok d := by
  unfold Forest.decl
  split
  · exact ⟨_, rfl⟩
  · next decl _ hdecl =>
      have hspecs : ∀ g ∈ (Forest.specs (decl.first? .constBody) .constGroup .groupedConst
          .constSpec).1, ∃ s, g.constSpec = .ok s := by
        intro g hg
        cases hbody : decl.first? .constBody with
        | none => simp [hbody, Forest.specs] at hg
        | some body =>
            rw [hbody] at hg
            exact (Sound.specs ((hf.of_first? hdecl).2.of_first? hbody).2 hg).constSpec_ok
      obtain ⟨specs, hspecs⟩ := mapM_ok hspecs
      exact ⟨_, by simp only [hspecs, ok_bind]; rfl⟩
  · exact ⟨_, rfl⟩

end Grammar.Forest

/-! ## Declarations by themselves -/

theorem Grammar.Rule.reads_of_matchRest {r : Rule} {cs : List Char} {tree : Branch}
    (h : r.matchRest cs 0 = .ok tree) :
    ∃ f : Forest, tree = ⟨r, 0, f⟩ ∧ f.Sound ∧ (Peg.rule r).Reads [] cs [] (.node r f .nil) := by
  unfold Rule.matchRest at h
  split at h
  · cases h
  · next b c hsome =>
      split at h
      · next hend =>
          cases h
          simp only [Rule.matchSome] at hsome
          split at hsome
          · cases hsome
          · next f c' hrun =>
              obtain ⟨ds, hds, hreads⟩ := Peg.reads_of_run (e := .rule r) hrun
              obtain ⟨g, rfl, _⟩ := body_of_reads hreads
              cases hsome
              obtain ⟨_, hsound, _⟩ := Rule.runWithin_sound _ r _ _ _ hrun
              have hc : c.ahead = [] := by simpa [Cursor.atEnd] using hend
              rw [hc] at hds hreads
              obtain rfl : cs = ds := by simpa [Cursor.ofText] using hds
              exact ⟨g, rfl, hsound, hreads⟩
      · cases h

/-- A rule that begins with one of some keywords takes a text that begins with a letter. -/
theorem begins_keyword {r kw : Rule} {words : List (List Char)} {e : Peg} {f : Forest}
    {behind cs rest : List Char} (hr : r.body = .seq (.rule kw) e)
    (hkw : kw.body = .token (.keyword words))
    (hwords : (words.all fun w => w.head?.any isWord) = true)
    (h : (Peg.rule r).Reads behind cs rest f) : ∃ c ds, cs = c :: ds ∧ isWord c = true := by
  obtain ⟨_, _, hbody⟩ := body_of_reads h
  rw [hr] at hbody
  obtain ⟨a, b, _, _, rfl, ha, _, _⟩ := parts_of_reads_seq hbody
  obtain ⟨word, hmem, hlen, hp⟩ := keywordWidth_eq_some (lexeme_of_reads hkw ha).1
  obtain rfl : word = a :=
    (List.prefix_of_prefix_length_le hp (List.prefix_append a _)
      (Nat.le_of_eq hlen.symm)).eq_of_length hlen.symm
  obtain ⟨c, hc, hword⟩ := (Option.any_eq_true _ _).1 (List.all_eq_true.1 hwords _ hmem)
  obtain ⟨ds, rfl⟩ := List.head?_eq_some_iff.1 hc
  exact ⟨c, ds ++ b, rfl, hword⟩

/-- A declaration by itself: without a comment at its end, and without an end after which the line
goes on. -/
structure Declaration where
  text : List Char
  tree : Branch
  matched : Rule.topDecl.matchRest text 0 = .ok tree
  uncommented : ∀ path ∈ trailingComments, tree.reach? path = none
  complete : ∀ c ∈ text.getLast?, isIndent c = false ∧ isOpenEnded c = false

namespace Declaration

def ofText? (cs : List Char) : Option Declaration :=
  match h : Rule.topDecl.matchRest cs 0 with
  | .error _ => none
  | .ok tree =>
      if hc : (∀ path ∈ trailingComments, tree.reach? path = none) ∧
          (cs.getLast?.all fun c => !isIndent c && !isOpenEnded c) = true then
        some ⟨cs, tree, h, hc.1, by simpa [Option.all_eq_true] using hc.2⟩
      else none

theorem text_of_ofText? {cs : List Char} {d : Declaration} (h : ofText? cs = some d) :
    d.text = cs := by
  unfold ofText? at h
  split at h
  · cases h
  · split at h
    · cases h
      rfl
    · cases h

def isOther (d : Declaration) : Bool := (d.tree.first? .otherDecl).isSome

theorem alone (d : Declaration) :
    (Peg.rule .topDecl).Reads [] d.text [] (.node .topDecl d.tree.inside .nil) := by
  obtain ⟨f, htree, _, hreads⟩ := Rule.reads_of_matchRest d.matched
  rwa [htree]

theorem sound (d : Declaration) : d.tree.inside.Sound := by
  obtain ⟨f, htree, hsound, _⟩ := Rule.reads_of_matchRest d.matched
  rwa [htree]

theorem joins (d : Declaration) : Joins true d.text [] := by
  refine joins_topDecl d.alone fun path hpath => ?_
  rw [← d.tree.inside_reach? path, d.uncommented path hpath, Option.map_none]

theorem stops_reverse (d : Declaration) :
    Stops isIndent d.text.reverse ∧ Stops isOpenEnded d.text.reverse := by
  refine ⟨fun c hc => ?_, fun c hc => ?_⟩
  · exact (d.complete c (by simpa using hc)).1
  · exact (d.complete c (by simpa using hc)).2

/-- A declaration is read alike before the end of a line. -/
theorem reads_line (d : Declaration) {rest : List Char} (hr : ∀ c ∈ rest.head?, c ∈ ['\n']) :
    (Peg.rule .topDecl).Reads [] d.text rest (.node .topDecl d.tree.inside .nil) := by
  have hB : (Boundary.lineEnd ['\n']).Lawful := Boundary.lawful_lineEnd (by simp)
  have hsemi : ∀ rest, (Boundary.lineEnd ['\n']).follows rest → rest.head? ≠ some ';' :=
    fun rest hr h => absurd (hr ';' h) (by decide)
  exact d.alone.before_lineEnd (.rule ((tidy_typeDecl hB).settles.choice
    ((tidy_constDecl hB).settles.choice (tidy_otherDecl hB hsemi).settles))) d.joins
    d.stops_reverse.1 d.stops_reverse.2 hr

/-- One that is not passed over is read alike before a semicolon, too. -/
theorem reads_semicolon (d : Declaration) (hd : d.isOther = false) {rest : List Char}
    (hr : ∀ c ∈ rest.head?, c ∈ ['\n', ';']) :
    (Peg.rule .topDecl).Reads [] d.text rest (.node .topDecl d.tree.inside .nil) := by
  have hB : (Boundary.lineEnd ['\n', ';']).Lawful := Boundary.lawful_lineEnd (by simp)
  obtain ⟨f, hf, hbody⟩ := body_of_reads d.alone
  obtain rfl : d.tree.inside = f := (Forest.node.inj hf).2.1
  have hread : (Peg.choice (.rule .typeDecl) (.rule .constDecl)).Reads [] d.text []
      d.tree.inside := by
    rcases parts_of_reads_choice hbody with htype | ⟨htype, hbody⟩
    · exact reads_choice_first htype
    · rcases parts_of_reads_choice hbody with hconst | ⟨_, hother⟩
      · exact reads_choice_second htype hconst
      · obtain ⟨g, hg, _⟩ := body_of_reads hother
        have hnone : d.tree.first? .otherDecl = none := by simpa [isOther] using hd
        have hfirst := d.tree.inside_first? .otherDecl
        rw [hnone, hg] at hfirst
        cases hfirst
  have hline := hread.before_lineEnd ((tidy_typeDecl hB).settles.choice
    (tidy_constDecl hB).settles) d.joins d.stops_reverse.1 d.stops_reverse.2 hr
  refine reads_rule ?_
  rcases parts_of_reads_choice hline with htype | ⟨htype, hconst⟩
  · exact reads_choice_first htype
  · exact reads_choice_second htype (reads_choice_first hconst)

theorem text_ne_nil (d : Declaration) : d.text ≠ [] := d.alone.ne_nil rfl

/-- A declaration begins with a keyword. -/
theorem begins (d : Declaration) : ∃ c cs, d.text = c :: cs ∧ isWord c = true := by
  obtain ⟨_, _, hbody⟩ := body_of_reads d.alone
  rcases parts_of_reads_choice hbody with htype | ⟨_, hbody⟩
  · exact begins_keyword rfl rfl (by decide) htype
  · rcases parts_of_reads_choice hbody with hconst | ⟨_, hother⟩
    · exact begins_keyword rfl rfl (by decide) hconst
    · exact begins_keyword rfl rfl (by decide) hother

theorem solid (d : Declaration) (rest : List Char) : Solid (d.text ++ rest) := by
  obtain ⟨c, cs, htext, hc⟩ := d.begins
  rw [htext]
  exact solid_of_isWord hc

end Declaration

/-! ## Rows of declarations -/

theorem isOpenEnded_eq_false {p : Char → Bool} {c : Char}
    (hp : ['-', '+', '*', '/', '%', '&', '|', '^', '<', '>', '=', ',', '.'].all (!p ·) = true)
    (h : p c = true) : isOpenEnded c = false := by
  rw [isOpenEnded, List.contains_eq_mem, decide_eq_false_iff_not]
  intro hmem
  have hc := List.all_eq_true.1 hp c hmem
  simp [h] at hc

/-- What follows does not depend on the text behind. -/
structure Fresh (behind : List Char) : Prop where
  star : Stops (· == '*') behind
  ended : continues behind = false

theorem Fresh.of_stops {behind : List Char} (h : Stops isOpenEnded behind) : Fresh behind where
  star := by
    intro c hc
    by_contra hstar
    obtain rfl : c = '*' := by simpa using hstar
    exact absurd (h '*' hc) (by decide)
  ended := continues_eq_false h

theorem Fresh.continues_append {behind : List Char} (h : Fresh behind) (cs : List Char) :
    continues (cs ++ []) = continues (cs ++ behind) := by
  rcases cs with _ | ⟨c, _ | ⟨d, cs⟩⟩
  · exact h.ended.symm
  · cases behind with
    | nil => rfl
    | cons b behind =>
        have hb : b ≠ '*' := by simpa using h.star
        by_cases hc : c = '/'
        · simp [continues, hc, hb]
        · simp [continues, hc]
  · by_cases hc : c = '/'
    · by_cases hd : d = '*' <;> simp [continues, hc, hd]
    · simp [continues, hc]

theorem Fresh.filler {behind : List Char} (h : Fresh behind) (parts : List Filler) :
    Fresh ((Filler.text parts).reverse ++ behind) := by
  rcases Filler.ends_text parts behind with hnil | ⟨c, more, hlast, hc⟩
  · rwa [hnil]
  · rw [hlast]
    rcases hc with hspace | ⟨rfl, hstar⟩
    · exact .of_stops (stops_cons.2 (isOpenEnded_eq_false (by decide) hspace))
    · cases more with
      | nil => cases hstar
      | cons d more =>
          obtain rfl : d = '*' := by simpa using hstar
          exact ⟨stops_cons.2 (by decide), rfl⟩

/-- A declaration with what separates it from the next one. A semicolon does so if the declaration
is not passed over. -/
structure Part where
  decl : Declaration
  semicolon : Bool
  after : List Filler
  apart : if semicolon = true then decl.isOther = false else (Filler.text after).head? = some '\n'

namespace Part

def mark (p : Part) : List Char := if p.semicolon = true then [';'] else []

def text (p : Part) : List Char := p.decl.text ++ p.mark ++ Filler.text p.after

theorem reads_decl (p : Part) {behind : List Char} (hb : Fresh behind) (more : List Char) :
    (Peg.rule .topDecl).Reads behind p.decl.text (p.mark ++ (Filler.text p.after ++ more))
      (.node .topDecl p.decl.tree.inside .nil) := by
  have hapart := p.apart
  refine Peg.Reads.elsewhere ?_ hb.continues_append
  unfold mark
  split at hapart
  · next hs => exact p.decl.reads_semicolon hapart (by simp [hs])
  · next hs => exact p.decl.reads_line (by simp [hs, hapart])

theorem reads_end (p : Part) (behind more : List Char) :
    ∃ f, (Peg.rule .stmtEnd).Reads behind p.mark (Filler.text p.after ++ more)
      (.node .stmtEnd f .nil) := by
  have hapart := p.apart
  unfold mark
  split
  · exact ⟨_, reads_stmtEnd_semicolon⟩
  · next hs =>
      rw [if_neg hs] at hapart
      have hstops : ∀ {q : Char → Bool}, q '\n' = false →
          Stops q (Filler.text p.after ++ more) := by
        intro q hq c hc
        rw [List.head?_append, hapart] at hc
        exact Option.some.inj hc ▸ hq
      exact ⟨_, reads_stmtEnd_bare (hstops (by decide)) (hstops (by decide))⟩

/-- At the top of a file a part is read as its declaration. -/
theorem reads (p : Part) (before : List Filler) {behind : List Char} (hb : Fresh behind)
    (more : List Char) :
    ∃ f, (Peg.rule .topLevel).Reads behind (Filler.text before ++ (p.decl.text ++ p.mark))
        (Filler.text p.after ++ more) (.node .topLevel f .nil) ∧
      f.first? .topDecl = some p.decl.tree.inside := by
  have htrivia : (Peg.rule .trivia).Reads behind (Filler.text before)
      (p.decl.text ++ p.mark ++ (Filler.text p.after ++ more))
      (.lexeme .trivia (Filler.text before)) := by
    rw [List.append_assoc]
    exact reads_trivia before (p.decl.solid _)
  obtain ⟨g, hend⟩ := p.reads_end
    (p.decl.text.reverse ++ ((Filler.text before).reverse ++ behind)) more
  exact ⟨_, reads_rule (reads_seq htrivia (reads_seq (p.reads_decl (hb.filler before) more) hend)),
    rfl⟩

theorem fresh (p : Part) (behind : List Char) :
    Fresh ((p.decl.text ++ p.mark).reverse ++ behind) := by
  refine .of_stops ?_
  unfold mark
  split
  · rw [List.reverse_append]
    exact stops_cons.2 (by decide)
  · have hopen := p.decl.stops_reverse.2
    have hne : p.decl.text.reverse ≠ [] := by simpa using p.decl.text_ne_nil
    rw [List.append_nil]
    generalize p.decl.text.reverse = cs at hopen hne
    cases cs with
    | nil => exact absurd rfl hne
    | cons c cs => exact stops_cons.2 (stops_cons.1 hopen)

end Part

/-- The parts of a file are read one after the other, up to what follows the last declaration. -/
theorem reads_parts (parts : List Part) (before : List Filler) {behind : List Char}
    (hb : Fresh behind) :
    ∃ taken closing f,
      Filler.text before ++ parts.flatMap Part.text = taken ++ Filler.text closing ∧
      (Peg.many (.rule .topLevel)).Reads behind taken (Filler.text closing) f ∧
      (f.every .topLevel).filterMap (·.first? .topDecl) = parts.map (·.decl.tree.inside) := by
  induction parts generalizing before behind with
  | nil =>
      exact ⟨[], before, .nil, by simp, reads_many_nil fun _ => refuses_topLevel_end before, rfl⟩
  | cons p parts ih =>
      obtain ⟨taken, closing, g, htaken, hg, hdecls⟩ :=
        ih p.after ((p.fresh ((Filler.text before).reverse ++ behind)))
      obtain ⟨f, hf, hdecl⟩ := p.reads before hb (parts.flatMap Part.text)
      rw [htaken] at hf
      have hne : Filler.text before ++ (p.decl.text ++ p.mark) ≠ [] := by
        simp [p.decl.text_ne_nil]
      refine ⟨Filler.text before ++ (p.decl.text ++ p.mark) ++ taken, closing, _, ?_,
        reads_many_cons hne hf (by simpa using hg), ?_⟩
      · rw [List.append_assoc _ taken, ← htaken]
        simp [Part.text]
      · simp only [Forest.every] at hdecls
        simp [Forest.every, Forest.append, hdecl, hdecls]

/-! ## Files -/

def packageFile (package body : List Char) : String :=
  String.ofList ("package".toList ++ [' '] ++ package ++ ['\n'] ++ body)

theorem packageFile_eq (package : List Char) {body rest : List Char}
    (h : ['\n'] ++ body = rest) :
    packageFile package body =
      String.ofList (("package".toList ++ ([' '] ++ package)) ++ rest) := by
  subst h
  unfold packageFile
  generalize "package".toList = word
  simp

theorem fresh_clause {package : List Char} (hp : isIdentifier package = true)
    (behind : List Char) : Fresh (("package".toList ++ ([' '] ++ package)).reverse ++ behind) := by
  refine .of_stops fun c hc => ?_
  have hc : c ∈ package.reverse.head? := by
    have hne : package.reverse ≠ [] := by
      rintro hnil
      rw [List.reverse_eq_nil_iff.1 hnil] at hp
      cases hp
    obtain ⟨b, bs, hbs⟩ := List.exists_cons_of_ne_nil hne
    simpa [hbs] using hc
  exact isOpenEnded_eq_false (by decide) (List.all_eq_true.1 (all_isWord_of_isIdentifier hp) c
    (List.mem_reverse.1 (List.mem_of_mem_head? hc)))

/-- A file of parts is read as their declarations in order. -/
theorem parse_parts (path : String) {package : List Char} (hp : isIdentifier package = true)
    (before : List Filler) (parts : List Part) :
    ∃ file, SourceFile.parse path
        (packageFile package (Filler.text before ++ parts.flatMap Part.text)) = .ok file ∧
      file.package = String.ofList package ∧
      (parts.map (·.decl.tree.inside)).mapM Forest.decl = .ok (file.decls.map Decl.unplaced) := by
  obtain ⟨taken, closing, f, htaken, hf, hparts⟩ :=
    reads_parts parts (.newline :: before) (fresh_clause hp [])
  obtain ⟨decls, hdecls⟩ : ∃ decls, (parts.map (·.decl.tree.inside)).mapM Forest.decl = .ok decls :=
    mapM_ok fun g hg => by
      obtain ⟨p, _, rfl⟩ := List.mem_map.1 hg
      exact p.decl.sound.decl_ok
  have hclause : (Peg.rule .packageClause).Reads [] ("package".toList ++ ([' '] ++ package))
      (taken ++ Filler.text closing ++ [])
      (.node .packageClause (.packageClause [' '] package) .nil) := by
    rw [List.append_nil, ← htaken]
    exact reads_packageClause (by decide) hp (stops_cons.2 (by decide))
  rw [← List.append_nil (Filler.text closing)] at hf
  have hfile := reads_rule (r := .sourceFile) (reads_seq
    (reads_trivia [] (solid_cons (by decide) (by decide)))
    (reads_seq hclause (reads_seq hf (reads_trivia closing rfl))))
  obtain ⟨file, hparsed, hunplaced⟩ := SourceFile.parse_of_reads path hfile
    (sourceFile_inside [] closing path package (hparts ▸ hdecls))
  have hdecls' : file.decls.map Decl.unplaced = decls := congrArg SourceFile.decls hunplaced
  refine ⟨file, packageFile_eq package htaken ▸ hparsed,
    congrArg SourceFile.package hunplaced, ?_⟩
  rw [hdecls', hdecls]

structure Line where
  decl : Declaration
  after : List Filler
  newline : (Filler.text after).head? = some '\n'

namespace Line

def text (l : Line) : List Char := l.decl.text ++ Filler.text l.after

def part (l : Line) : Part := ⟨l.decl, false, l.after, l.newline⟩

theorem text_part (l : Line) : l.part.text = l.text := by simp [Part.text, Part.mark, part, text]

theorem text_parts (lines : List Line) :
    (lines.map part).flatMap Part.text = lines.flatMap text := by
  simp [List.flatMap_map, text_part]

def bare (d : Declaration) : Line := ⟨d, [.newline], rfl⟩

end Line

/-- A file of declarations with line ends between them holds what each of them holds alone. -/
theorem parse_lines (path : String) {package : List Char} (hp : isIdentifier package = true)
    (before : List Filler) (lines : List Line) :
    ∃ file, SourceFile.parse path
        (packageFile package (Filler.text before ++ lines.flatMap Line.text)) = .ok file ∧
      file.package = String.ofList package ∧
      List.Forall₂ (fun l d => ∃ alone,
        SourceFile.parse path (packageFile package (l.decl.text ++ ['\n'])) = .ok alone ∧
          alone.decls.map Decl.unplaced = [d.unplaced]) lines file.decls := by
  obtain ⟨file, hparsed, hpackage, hdecls⟩ := parse_parts path hp before (lines.map Line.part)
  rw [Line.text_parts] at hparsed
  refine ⟨file, hparsed, hpackage, ?_⟩
  have hread := forall₂_of_mapM hdecls
  rw [List.map_map, List.forall₂_map_left_iff, List.forall₂_map_right_iff] at hread
  refine hread.imp fun l d hd => ?_
  obtain ⟨alone, halone, _, hsingle⟩ := parse_parts path hp [] [(Line.bare l.decl).part]
  refine ⟨alone, ?_, ?_⟩
  · simpa [Line.text_part, Line.text, Line.bare] using halone
  · have hone : [l.decl.tree.inside].mapM Forest.decl = .ok [d.unplaced] := by
      rw [List.mapM_cons, show l.decl.tree.inside.decl = .ok d.unplaced from hd]
      rfl
    exact Except.ok.inj (hsingle.symm.trans hone)

theorem parse_lines_import_const :
    ∃ d e : Declaration, d.text = "import \"fmt\"".toList ∧ e.text = "const (A = iota)".toList ∧
      isIdentifier ['p'] = true ∧
      ∃ file, SourceFile.parse "t.go" (packageFile ['p'] (Filler.text [] ++
          [(⟨d, [.newline, .line [' ', 'x'] (by decide)], rfl⟩ : Line), .bare e].flatMap
            Line.text)) = .ok file ∧ file.decls.length = 2 := by
  have hp : isIdentifier ['p'] = true := by decide
  have hd : (Declaration.ofText? "import \"fmt\"".toList).isSome = true := by decide +kernel
  have he : (Declaration.ofText? "const (A = iota)".toList).isSome = true := by decide +kernel
  obtain ⟨d, hd⟩ := Option.isSome_iff_exists.1 hd
  obtain ⟨e, he⟩ := Option.isSome_iff_exists.1 he
  obtain ⟨file, hfile, _, hdecls⟩ := parse_lines "t.go" hp []
    [⟨d, [.newline, .line [' ', 'x'] (by decide)], rfl⟩, .bare e]
  exact ⟨d, e, Declaration.text_of_ofText? hd, Declaration.text_of_ofText? he, hp, file, hfile,
    hdecls.length_eq.symm⟩

/-! ## Semicolons -/

/-- Behind a declaration that is not passed over, a semicolon separates as a line end does. -/
theorem parse_semicolon (path : String) {package : List Char} (hp : isIdentifier package = true)
    (d e : Declaration) (hd : d.isOther = false) :
    ∃ joined lines,
      SourceFile.parse path
        (packageFile package (d.text ++ [';', ' '] ++ e.text ++ ['\n'])) = .ok joined ∧
      SourceFile.parse path (packageFile package (d.text ++ ['\n'] ++ e.text ++ ['\n'])) = .ok lines ∧
      joined.package = lines.package ∧
      joined.decls.map Decl.unplaced = lines.decls.map Decl.unplaced ∧ joined.decls.length = 2 := by
  obtain ⟨joined, hjoined, hpackage, hdecls⟩ := parse_parts path hp []
    [⟨d, true, [.space ' ' (by decide)], hd⟩, (Line.bare e).part]
  obtain ⟨lines, hlines, hpackage', hdecls'⟩ := parse_parts path hp []
    [(Line.bare d).part, (Line.bare e).part]
  refine ⟨joined, lines, ?_, ?_, hpackage.trans hpackage'.symm, ?_, ?_⟩
  · simpa [Part.text, Part.mark, Line.part, Line.bare, Filler.chars_space] using hjoined
  · simpa [Part.text, Part.mark, Line.part, Line.bare] using hlines
  · exact Except.ok.inj (hdecls.symm.trans hdecls')
  · simpa using (forall₂_of_mapM hdecls).length_eq.symm

theorem parse_semicolon_type_const :
    ∃ d e : Declaration, d.text = "type T int".toList ∧ e.text = "const A T = 1".toList ∧
      isIdentifier ['p'] = true ∧ d.isOther = false ∧
      ∃ joined lines,
        SourceFile.parse "t.go" (packageFile ['p'] (d.text ++ [';', ' '] ++ e.text ++ ['\n'])) =
          .ok joined ∧
        SourceFile.parse "t.go" (packageFile ['p'] (d.text ++ ['\n'] ++ e.text ++ ['\n'])) =
          .ok lines ∧
        joined.decls.map Decl.unplaced = lines.decls.map Decl.unplaced := by
  have hd : (Declaration.ofText? "type T int".toList).any (!·.isOther) = true := by decide +kernel
  have he : (Declaration.ofText? "const A T = 1".toList).isSome = true := by decide +kernel
  have hp : isIdentifier ['p'] = true := by decide
  obtain ⟨d, hd, hother⟩ := (Option.any_eq_true _ _).1 hd
  obtain ⟨e, he⟩ := Option.isSome_iff_exists.1 he
  have hother : d.isOther = false := by simpa using hother
  obtain ⟨joined, lines, hjoined, hlines, _, hdecls, _⟩ := parse_semicolon "t.go" hp d e hother
  exact ⟨d, e, Declaration.text_of_ofText? hd, Declaration.text_of_ofText? he, hp, hother, joined,
    lines, hjoined, hlines, hdecls⟩

/-- An import takes the semicolon behind it and the constant that follows: one declaration is left
of two. -/
theorem parse_semicolon_import_const :
    ∃ d e : Declaration, d.text = "import \"fmt\"".toList ∧ e.text = "const A = 1".toList ∧
      ∃ joined lines,
        SourceFile.parse "t.go" (packageFile ['p'] (d.text ++ [';', ' '] ++ e.text ++ ['\n'])) =
          .ok joined ∧
        SourceFile.parse "t.go" (packageFile ['p'] (d.text ++ ['\n'] ++ e.text ++ ['\n'])) =
          .ok lines ∧
        joined.decls.map Decl.unplaced ≠ lines.decls.map Decl.unplaced := by
  have hd : (Declaration.ofText? "import \"fmt\"".toList).isSome = true := by decide +kernel
  have he : (Declaration.ofText? "const A = 1".toList).isSome = true := by decide +kernel
  have hjoined : ((SourceFile.parse "t.go" (packageFile ['p'] ("import \"fmt\"".toList ++
      [';', ' '] ++ "const A = 1".toList ++ ['\n']))).toOption.map (·.decls.length)) = some 1 := by
    decide +kernel
  have hlines : ((SourceFile.parse "t.go" (packageFile ['p'] ("import \"fmt\"".toList ++
      ['\n'] ++ "const A = 1".toList ++ ['\n']))).toOption.map (·.decls.length)) = some 2 := by
    decide +kernel
  obtain ⟨d, hd⟩ := Option.isSome_iff_exists.1 hd
  obtain ⟨e, he⟩ := Option.isSome_iff_exists.1 he
  have hdtext := Declaration.text_of_ofText? hd
  have hetext := Declaration.text_of_ofText? he
  rw [← hdtext, ← hetext] at hjoined hlines
  obtain ⟨joined, hjoined, hone⟩ := Option.map_eq_some_iff.1 hjoined
  obtain ⟨lines, hlines, htwo⟩ := Option.map_eq_some_iff.1 hlines
  refine ⟨d, e, hdtext, hetext, joined, lines, ok_of_toOption hjoined, ok_of_toOption hlines, ?_⟩
  intro h
  have hlength := congrArg List.length h
  simp [hone, htwo] at hlength

end EnumNames
