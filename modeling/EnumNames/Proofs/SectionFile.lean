import EnumNames.Proofs.BalancedText
import EnumNames.Proofs.Unplaced

/-!
Files of sections. A section is a declaration that is passed over: a keyword and
a line of pieces that does not end as if it went on. A file of a package clause
and sections, with an empty line before each, is read as these sections and
nothing else.
-/

namespace EnumNames

open EnumNames.Grammar EnumNames.Text

variable {behind : List Char}

def Decl.keyword? : Decl → Option String
  | .other keyword _ _ => some keyword
  | .types _ _ _ | .consts _ _ _ => none

theorem Decl.keyword?_unplaced (d : Decl) : d.unplaced.keyword? = d.keyword? := by
  cases d <;> rfl

structure Section where
  keyword : List Char
  line : List Char
  known : keyword ∈ otherKeywords
  apart : Stops isWord line
  nonempty : line ≠ []
  pieces : ∀ more, Pieces ('\n' :: more) line
  complete : ∀ behind, continues (line.reverse ++ behind) = false

namespace Section

def text (s : Section) : List Char := s.keyword ++ s.line

def spaced (s : Section) : List Char := ['\n', '\n'] ++ s.text

theorem stops_line (s : Section) (rest : List Char) : Stops isWord (s.line ++ rest) := by
  have h := s.apart
  cases hline : s.line with
  | nil => exact absurd hline s.nonempty
  | cons c line =>
      rw [hline] at h
      exact stops_cons.2 (stops_cons.1 h)

theorem solid (s : Section) (rest : List Char) : Solid (s.text ++ rest) := by
  have hk := s.known
  simp only [otherKeywords, List.mem_cons, List.not_mem_nil, or_false] at hk
  unfold text
  rcases hk with hk | hk | hk <;>
    · rw [hk]
      exact solid_cons (by decide) (by decide)

/-- The tree of a section at the top of a file is a declaration with its keyword. -/
theorem reads (s : Section) (behind more : List Char) :
    ∃ f, (Peg.rule .topLevel).Reads behind s.spaced ('\n' :: more) (.node .topLevel f .nil) ∧
      ∃ d, (f.first? .topDecl).map Forest.decl = some (.ok d) ∧
        d.keyword? = some (String.ofList s.keyword) := by
  have htrivia : (Peg.rule .trivia).Reads behind ['\n', '\n'] ((s.text ++ []) ++ '\n' :: more)
      (.lexeme .trivia ['\n', '\n']) := by
    rw [List.append_nil]
    exact reads_trivia [.newline, .newline] (s.solid _)
  obtain ⟨f, hf⟩ := reads_topDecl (['\n', '\n'] ++ behind) s.known (s.stops_line _)
    (s.pieces more) (s.complete _)
  have hend : ∀ behind, (Peg.rule .stmtEnd).Reads behind [] ('\n' :: more) _ := fun _ =>
    reads_stmtEnd_bare (stops_cons.2 (by decide)) (stops_cons.2 (by decide))
  have hsection := reads_rule (r := .topLevel) (reads_seq htrivia (reads_seq hf (hend _)))
  rw [List.append_nil] at hsection
  refine ⟨_, hsection, _, rfl, ?_⟩
  simp [Decl.keyword?, Forest.reach?, Forest.first?, Forest.append, Forest.lexeme, Forest.text]

end Section

theorem refuses_topLevel_end (closing : List Filler) :
    (Peg.rule .topLevel).Refuses behind (Filler.text closing) := by
  have htrivia : (Peg.rule .trivia).Reads behind (Filler.text closing) []
      (.lexeme .trivia (Filler.text closing)) := reads_trivia closing rfl
  have hdecl : ∀ behind, (Peg.rule .topDecl).Refuses behind [] := fun _ => by
    refine refuses_rule (refuses_choice ?_ (refuses_choice ?_ ?_))
    · exact refuses_rule (refuses_seq_first (refuses_lexeme rfl rfl))
    · exact refuses_rule (refuses_seq_first (refuses_lexeme rfl rfl))
    · exact refuses_rule (refuses_seq_first (refuses_lexeme rfl rfl))
  have hrefuses := refuses_rule (r := .topLevel)
    (refuses_seq_second htrivia (refuses_seq_first (hdecl _)))
  rwa [List.append_nil] at hrefuses

theorem spaced_sections (sections : List Section) :
    ∃ more, sections.flatMap Section.spaced ++ ['\n'] = '\n' :: more := by
  cases sections with
  | nil => exact ⟨[], rfl⟩
  | cons s sections => exact ⟨_, rfl⟩

/-- Sections are read one after the other, up to the last line end. -/
theorem reads_sections (sections : List Section) (behind : List Char) :
    ∃ f decls,
      (Peg.many (.rule .topLevel)).Reads behind (sections.flatMap Section.spaced) ['\n'] f ∧
      ((f.every .topLevel).filterMap (·.first? .topDecl)).mapM Forest.decl = .ok decls ∧
      decls.map Decl.keyword? = sections.map fun s => some (String.ofList s.keyword) := by
  induction sections generalizing behind with
  | nil => exact ⟨.nil, [], reads_many_nil fun _ => refuses_topLevel_end [.newline], rfl, rfl⟩
  | cons s sections ih =>
      obtain ⟨more, hmore⟩ := spaced_sections sections
      obtain ⟨f, hf, d, hd, hkeyword⟩ := s.reads behind more
      obtain ⟨g, decls, hg, hdecls, hkeywords⟩ := ih (s.spaced.reverse ++ behind)
      rw [← hmore] at hf
      refine ⟨_, d :: decls, reads_many_cons (by simp [Section.spaced]) hf hg, ?_, ?_⟩
      · obtain ⟨t, ht, hread⟩ := Option.map_eq_some_iff.1 hd
        simp only [Forest.every] at hdecls
        simp only [Forest.every, Forest.append, Forest.nodes_node, List.filter_cons,
          beq_self_eq_true, if_true, List.map_cons, List.filterMap_cons, ht, List.mapM_cons, hread,
          ok_bind]
        rw [hdecls]
        rfl
      · rw [List.map_cons, List.map_cons, hkeyword, hkeywords]

def fileInside (opening : List Filler) (package : List Char) (decls : Forest)
    (closing : List Filler) : Forest :=
  (Forest.lexeme .trivia (Filler.text opening)).append
    ((Forest.node .packageClause (.packageClause [' '] package) .nil).append
      (decls.append (.lexeme .trivia (Filler.text closing))))

theorem sourceFile_inside (opening closing : List Filler) (path : String) (package : List Char)
    {f : Forest} {decls : List Decl}
    (h : ((f.every .topLevel).filterMap (·.first? .topDecl)).mapM Forest.decl = .ok decls) :
    (fileInside opening package f closing).sourceFile path =
      .ok { package := String.ofList package, decls, path } := by
  have hpackage : (fileInside opening package f closing).reach? [.packageClause, .identifier] =
      some (.leaf package .nil) := rfl
  have hevery : (fileInside opening package f closing).every .topLevel = f.every .topLevel := by
    simp [fileInside, Forest.every, Forest.lexeme]
  simp only [Forest.sourceFile, hevery, h, hpackage, ok_bind]
  simp [Forest.text, pure, Except.pure]

/-- A file that has a package clause and sections, after white space and comments. -/
theorem parse_sections (path : String) (opening : List Filler) {package : List Char}
    (hp : isIdentifier package = true) (sections : List Section) :
    ∃ parsed, SourceFile.parse path (String.ofList (Filler.text opening ++
        (("package".toList ++ ([' '] ++ package)) ++
          (sections.flatMap Section.spaced ++ ['\n'])))) = .ok parsed ∧
      parsed.package = String.ofList package ∧
      parsed.decls.map Decl.keyword? = sections.map fun s => some (String.ofList s.keyword) := by
  obtain ⟨more, hmore⟩ := spaced_sections sections
  obtain ⟨f, decls, hf, hdecls, hkeywords⟩ := reads_sections sections
    (("package".toList ++ ([' '] ++ package)).reverse ++ ((Filler.text opening).reverse ++ []))
  have hclause : ∀ behind, (Peg.rule .packageClause).Reads behind
      ("package".toList ++ ([' '] ++ package)) (sections.flatMap Section.spaced ++ ['\n'] ++ [])
      (.node .packageClause (.packageClause [' '] package) .nil) := fun behind => by
    rw [List.append_nil, hmore]
    exact reads_packageClause (by decide) hp (stops_cons.2 (by decide))
  have hend : ∀ behind, (Peg.rule .trivia).Reads behind ['\n'] [] (.lexeme .trivia ['\n']) :=
    fun _ => reads_trivia [.newline] rfl
  have hfile := reads_rule (r := .sourceFile) (reads_seq
    (reads_trivia opening (solid_cons (by decide) (by decide)))
    (reads_seq (hclause _) (reads_seq hf (hend _))))
  obtain ⟨parsed, hparsed, hunplaced⟩ :=
    SourceFile.parse_of_reads path hfile (sourceFile_inside opening [.newline] path package hdecls)
  refine ⟨parsed, hparsed, congrArg SourceFile.package hunplaced, ?_⟩
  have hdecls : parsed.decls.map Decl.unplaced = decls := congrArg SourceFile.decls hunplaced
  rw [← hkeywords, ← hdecls, List.map_map]
  congr 1
  funext d
  exact d.keyword?_unplaced.symm

end EnumNames
