import EnumNames.Proofs.AnalysisFailures
import EnumNames.Proofs.CutReading

/-!
Where a file is rejected. A file whose package clause is read can only be left
incomplete: it is reported where the last declaration and the white space and
comments behind it end, and up to there it is a file of its own. Without a
package clause it is reported where the clause breaks off.
-/

namespace EnumNames.Grammar

open EnumNames.Text

variable {e : Peg} {t : Token} {r : Rule} {behind cs rest : List Char} {p : Nat}

/-! ## Places of failures -/

/-- The first failure was at the place, and none of a rule further on. -/
structure Failures.At (f : Failures) (p : Nat) : Prop where
  first : f.first = some p
  ofRules : ∀ q ∈ f.ofRules, q ≤ p

theorem Failures.At.position {f : Failures} (h : f.At p) : f.position = p := by
  have hrules := h.ofRules
  rw [Failures.position, h.first]
  cases hq : f.ofRules with
  | none => rfl
  | some q =>
      have hle := hrules q hq
      exact Nat.max_eq_left hle

structure Outcome.FailsAt (o : Outcome) (p : Nat) : Prop where
  result : o.result = none
  failures : o.failures.At p

namespace Outcome.FailsAt

variable {o : Outcome}

/-- A rule that failed notes where it was tried, which is not further on. -/
theorem under (h : o.FailsAt p) {offset : Nat} (hle : offset ≤ p) (r : Rule) :
    (o.under r offset).FailsAt p := by
  rw [Outcome.under, h.result]
  refine ⟨rfl, ?_, ?_⟩
  · simp [Failures.append, h.failures.first]
  · intro q hq
    have hrules := h.failures.ofRules
    cases hof : o.failures.ofRules with
    | none =>
        simp only [Failures.append, hof, Failures.furthest, Failures.ofRule] at hq
        exact Option.some.inj hq ▸ hle
    | some k =>
        simp only [Failures.append, hof, Failures.furthest, Failures.ofRule] at hq
        exact Option.some.inj hq ▸ Nat.max_le.2 ⟨hrules k hof, hle⟩

theorem andThen (h : o.FailsAt p) (next : Cursor → Outcome) : (o.andThen next).FailsAt p := by
  rwa [Outcome.andThen, h.result]

/-- What comes after a match without failures decides. -/
theorem andThen_second {f : Forest} {c : Cursor} {next : Cursor → Outcome}
    (ho : o = ⟨{}, some (f, c)⟩) (h : (next c).FailsAt p) : (o.andThen next).FailsAt p := by
  subst ho
  refine ⟨?_, ?_, ?_⟩
  · simp [Outcome.andThen, h.result]
  · exact h.failures.first
  · exact h.failures.ofRules

end Outcome.FailsAt

theorem Token.failsAt_run {offset : Nat} (h : t.width behind cs = none) :
    (t.run ⟨offset, behind, cs⟩).FailsAt offset := by
  rw [Token.run, h]
  exact ⟨rfl, rfl, by simp [Failures.ofToken]⟩

theorem Token.run_some {offset : Nat} (h : t.width behind (cs ++ rest) = some cs.length) :
    t.run ⟨offset, behind, cs ++ rest⟩ =
      ⟨{}, some (.leaf cs .nil, ⟨offset + cs.length, cs.reverse ++ behind, rest⟩)⟩ := by
  rw [Token.run, h]
  simp [Cursor.advance_append]

theorem Rule.run_lexeme {offset : Nat} (hb : r.body = .token t)
    (h : t.width behind (cs ++ rest) = some cs.length) :
    r.run ⟨offset, behind, cs ++ rest⟩ =
      ⟨{}, some (.lexeme r cs, ⟨offset + cs.length, cs.reverse ++ behind, rest⟩)⟩ := by
  rw [Rule.run_eq, hb, Peg.run, Token.run_some h]
  rfl

/-! ## Package clauses -/

def packageWord : List Char := ['p', 'a', 'c', 'k', 'a', 'g', 'e']

/-- How far a package clause is read that breaks off: up to the word, or past it and its blanks. -/
def brokenClauseWidth (cs : List Char) : Nat :=
  if packageWord <+: cs then
    packageWord.length + indentWidth (cs.drop packageWord.length)
  else 0

theorem failsAt_packageClause (offset : Nat)
    (h : (Peg.rule .packageClause).Refuses behind cs) :
    (Rule.packageClause.run ⟨offset, behind, cs⟩).FailsAt (offset + brokenClauseWidth cs) := by
  rw [Rule.run_eq, brokenClauseWidth]
  by_cases hword : packageWord <+: cs
  · obtain ⟨ds, rfl⟩ := hword
    have hindent := List.takeWhile_append_dropWhile (p := isIndent) (l := ds)
    generalize hu : ds.takeWhile isIndent = u at hindent
    generalize ds.dropWhile isIndent = x at hindent
    subst hindent
    have hwidth : indentWidth (u ++ x) = u.length := by rw [indentWidth, hu]
    -- The clause can only have failed at its identifier.
    have hname : identifierWidth x = none := by
      rcases parts_of_refuses_seq (body_of_refuses h) with hno | ⟨a, b, f, heq, ha, hno⟩
      · cases (wordWidth_append packageWord (u ++ x)).symm.trans (width_of_refuses hno)
      · have hread : (Peg.token (.literal packageWord)).Reads behind packageWord (u ++ x) _ :=
          reads_token (wordWidth_append packageWord _)
        obtain ⟨rfl, rfl, _⟩ := hread.unique ha heq
        rcases parts_of_refuses_seq hno with hno | ⟨a, b, g, heq, ha, hno⟩
        · exact absurd hno (total_indent _ _)
        · have hread : (Peg.rule .indent).Reads (packageWord.reverse ++ behind) u x _ :=
            reads_lexeme rfl (congrArg some hwidth)
          obtain ⟨rfl, rfl, _⟩ := hread.unique ha heq
          exact lexeme_of_refuses (t := .identifier) rfl hno
    have hclause : Token.width behind (packageWord ++ (u ++ x)) (.literal packageWord) =
        some packageWord.length := wordWidth_append packageWord (u ++ x)
    rw [if_pos (List.prefix_append _ _), List.drop_left, hwidth, ← Nat.add_assoc]
    refine .under (.andThen_second (Token.run_some hclause) ?_) (by dsimp only; omega) _
    refine .andThen_second (Rule.run_lexeme (t := .indent) rfl (congrArg some hwidth)) ?_
    rw [Peg.all, Peg.run, Rule.run_eq]
    exact .under (Token.failsAt_run (t := .identifier) hname) (Nat.le_refl _) _
  · rw [if_neg hword, Nat.add_zero]
    have hnone : wordWidth packageWord cs = none := by
      by_contra hsome
      obtain ⟨n, hn⟩ := Option.ne_none_iff_exists'.1 hsome
      exact hword (wordWidth_eq_some.1 hn).2
    exact .under (.andThen (Token.failsAt_run (t := .literal packageWord) hnone) _)
      (Nat.le_refl _) _

/-! ## Files -/

/-- What a rule reads from the start of a text is a match, unless something is left over. -/
theorem Rule.matchRest_of_reads {f : Forest}
    (h : (Peg.rule r).Reads [] cs rest (.node r f .nil)) :
    r.matchRest (cs ++ rest) 0 =
      if rest = [] then .ok ⟨r, 0, f⟩ else .error (.incomplete cs.length) := by
  have hsome := Rule.matchSome_of_reads (show (cs ++ rest).drop 0 = cs ++ rest from rfl) h
  rw [Rule.matchRest, hsome]
  cases rest <;> simp [Cursor.atEnd]

/-- A rule that is a single token matches the texts that the token takes as a whole. -/
theorem Rule.matchRest_lexeme_iff {t : Token} {text : List Char} (hb : r.body = .token t) :
    (∃ tree, r.matchRest text 0 = .ok tree) ↔ t.width [] text = some text.length := by
  constructor
  · rintro ⟨tree, htree⟩
    obtain ⟨f, _, _, hreads⟩ := Rule.reads_of_matchRest htree
    simpa using (lexeme_of_reads hb hreads).1
  · intro hwidth
    have hreads : (Peg.rule r).Reads [] text [] (.lexeme r text) :=
      reads_lexeme hb (by rwa [List.append_nil])
    have htree := Rule.matchRest_of_reads hreads
    rw [List.append_nil, if_pos rfl] at htree
    exact ⟨_, htree⟩

/-- A file without a package clause fails where the clause does. -/
theorem failsAt_sourceFile {lead : List Char} (hlead : triviaWidth (lead ++ rest) = lead.length)
    (h : (Peg.rule .packageClause).Refuses lead.reverse rest) :
    (Rule.sourceFile.run ⟨0, [], lead ++ rest⟩).FailsAt (lead.length + brokenClauseWidth rest) := by
  rw [Rule.run_eq]
  refine .under (.andThen_second
    (Rule.run_lexeme (t := .trivia) rfl (congrArg some hlead)) ?_) (Nat.zero_le _) _
  rw [Nat.zero_add]
  exact .andThen (failsAt_packageClause _ (by simpa using h)) _

/-- A file that is read and does not match leaves something over. -/
theorem Rule.leftOver_of_mismatch {m : Mismatch} (h : (Peg.rule r).Takes [] cs rest)
    (hm : r.matchRest (cs ++ rest) 0 = .error m) : rest ≠ [] ∧ m.offset = cs.length := by
  obtain ⟨f, hf⟩ := h
  obtain ⟨g, rfl, _⟩ := body_of_reads hf
  rw [Rule.matchRest_of_reads hf] at hm
  split at hm
  · cases hm
  · next hne =>
      cases hm
      exact ⟨hne, rfl⟩

theorem Rule.matchRest_of_failsAt {text : List Char} {p : Nat}
    (h : (r.run ⟨0, [], text⟩).FailsAt p) : r.matchRest text 0 = .error (.failed p) := by
  simp [Rule.matchRest, Rule.matchSome, Cursor.ofText, h.result, h.failures.position]

/-- Only the package clause can make a file fail. -/
theorem refuses_packageClause {lead : List Char} (hlead : triviaWidth (lead ++ rest) = lead.length)
    (h : (Peg.rule .sourceFile).Refuses [] (lead ++ rest)) :
    (Peg.rule .packageClause).Refuses lead.reverse rest := by
  have htrivia : (Peg.rule .trivia).Takes [] lead rest := takes_trivia_iff.2 hlead
  rcases parts_of_refuses_seq (body_of_refuses h) with hno | ⟨a, b, f, heq, ha, hno⟩
  · exact absurd hno (total_trivia _ _)
  · obtain ⟨rfl, rfl⟩ := htrivia.unique ⟨f, ha⟩ heq
    rw [List.append_nil] at hno
    rcases parts_of_refuses_seq hno with hclause | ⟨a, b, g, _, _, hno⟩
    · exact hclause
    · rcases parts_of_refuses_seq hno with hno | ⟨_, b, _, _, _, hno⟩
      · exact absurd hno (Peg.not_refuses_many _ _ _)
      · exact absurd hno (total_trivia _ b)

/-- A file that is read begins with a package clause. -/
theorem takes_packageClause {lead later : List Char}
    (hlead : triviaWidth (lead ++ rest) = lead.length) (heq : cs ++ later = lead ++ rest)
    (h : (Peg.rule .sourceFile).Takes [] cs later) :
    ∃ a b, rest = a ++ b ∧ (Peg.rule .packageClause).Takes lead.reverse a b := by
  have htrivia : (Peg.rule .trivia).Takes [] lead rest := takes_trivia_iff.2 hlead
  obtain ⟨x, _, rfl, hx, h⟩ := h.body.parts
  obtain ⟨a, y, rfl, ha, _⟩ := h.parts
  obtain ⟨rfl, rfl⟩ := hx.unique htrivia (by simpa using heq)
  exact ⟨a, y ++ later, by simp, by simpa using ha⟩

theorem exists_lead (whole : List Char) :
    ∃ lead rest, whole = lead ++ rest ∧ triviaWidth (lead ++ rest) = lead.length := by
  have hle : triviaWidth whole ≤ whole.length := triviaFrom_le 0 whole
  refine ⟨whole.take (triviaWidth whole), whole.drop (triviaWidth whole),
    (List.take_append_drop _ _).symm, ?_⟩
  rw [List.take_append_drop, List.length_take_of_le hle]

/-- A text is read as a file, up to some place, if it begins with a package clause. -/
theorem isOk_packageClause_iff {whole : List Char} :
    (Rule.packageClause.matchSome whole (triviaWidth whole)).isOk = true ↔
      ∃ cs later, whole = cs ++ later ∧ (Peg.rule .sourceFile).Takes [] cs later := by
  obtain ⟨lead, rest, rfl, hlead⟩ := exists_lead whole
  rw [hlead]
  constructor
  · intro hok
    rcases (Peg.rule .sourceFile).takes_or_refuses [] (lead ++ rest) with htakes | hno
    · exact htakes
    · have hclause := refuses_packageClause hlead hno
      obtain ⟨_, herror⟩ : ∃ p, Rule.packageClause.matchSome (lead ++ rest) lead.length =
          .error (.failed p) := Rule.matchSome_of_refuses (by simpa using hclause)
      rw [herror] at hok
      cases hok
  · rintro ⟨cs, later, heq, htakes⟩
    obtain ⟨a, b, rfl, f, hclause⟩ := takes_packageClause hlead heq.symm htakes
    obtain ⟨g, rfl, _⟩ := body_of_reads hclause
    have hdrop : (lead ++ (a ++ b)).drop lead.length = a ++ b := List.drop_left
    rw [Rule.matchSome_of_reads hdrop (by simpa using hclause)]
    rfl

theorem matchRest_of_no_clause {whole : List Char}
    (h : ¬ (Rule.packageClause.matchSome whole (triviaWidth whole)).isOk = true) :
    Rule.sourceFile.matchRest whole 0 = .error (.failed
      (triviaWidth whole + brokenClauseWidth (whole.drop (triviaWidth whole)))) := by
  have hno : (Peg.rule .sourceFile).Refuses [] whole :=
    ((Peg.rule .sourceFile).takes_or_refuses [] whole).resolve_left
      fun htakes => h (isOk_packageClause_iff.2 htakes)
  obtain ⟨lead, rest, rfl, hlead⟩ := exists_lead whole
  rw [hlead, List.drop_left]
  exact Rule.matchRest_of_failsAt (failsAt_sourceFile hlead (refuses_packageClause hlead hno))

/-- A repetition stops where its item is refused. -/
theorem Peg.Takes.refuses_item (he : e.mayBeEmpty = false) (hne : rest ≠ [])
    (h : (Peg.many e).Takes behind cs rest) : e.Refuses (cs.reverse ++ behind) rest := by
  obtain ⟨f, hf⟩ := h
  refine hf.many_induction (P := fun behind cs _ => e.Refuses (cs.reverse ++ behind) rest) he ?_ ?_
  · exact fun behind hno => hno hne
  · intro behind a b _ _ _ _ ih
    simpa using ih

theorem total_stmtEnd (behind ahead : List Char) : ¬ (Peg.rule .stmtEnd).Refuses behind ahead := by
  intro hno
  rcases parts_of_refuses_seq (body_of_refuses hno) with hno | ⟨_, _, _, _, _, hno⟩
  · exact total_indent _ _ hno
  · cases width_of_refuses (t := .semicolon) hno

/-- What is left over of a file begins with neither white space nor a comment nor a declaration. -/
theorem leftOver_of_sourceFile {later : List Char} (hne : later ≠ [])
    (h : (Peg.rule .sourceFile).Takes behind cs later) :
    LeftOver later ∧ (Peg.rule .topDecl).Refuses (cs.reverse ++ behind) later := by
  obtain ⟨lead, _, rfl, _, h⟩ := h.body.parts
  obtain ⟨clause, _, rfl, _, h⟩ := h.parts
  obtain ⟨decls, close, rfl, hdecls, hclose⟩ := h.parts
  have hclose : (Peg.rule .trivia).Takes _ close later := hclose
  refine ⟨⟨hne, (filler_of_triviaWidth (takes_trivia_iff.1 hclose) hne).1⟩, ?_⟩
  have hnext := body_of_refuses (hdecls.refuses_item rfl (by simp [hne]))
  rcases parts_of_refuses_seq hnext with hno | ⟨a, b, f, heq, ha, hno⟩
  · exact absurd hno (total_trivia _ _)
  · obtain ⟨rfl, rfl⟩ := hclose.unique ⟨f, ha⟩ heq
    rcases parts_of_refuses_seq hno with hdecl | ⟨_, _, _, _, _, hno⟩
    · simpa using hdecl
    · exact absurd hno (total_stmtEnd _ _)

end EnumNames.Grammar

namespace EnumNames

open EnumNames.Grammar EnumNames.Text

namespace SourceFile

/-- Cutting at the end of the line and after forty characters commute. -/
theorem excerpt_eq (text : List Char) (offset : Nat) :
    excerpt text offset =
      String.ofList (((text.drop offset).takeWhile (· != '\n')).take 40) := by
  rw [excerpt, List.take_takeWhile]

theorem unreadable_eq (file : String) (text : List Char) (offset : Nat) :
    ∃ message, unreadable file text offset =
      { cause := .sourceParse message
          (String.ofList (((text.drop offset).takeWhile (· != '\n')).take 40))
        span := some
          { file
            line := (Position.of text offset).line
            column := (Position.of text offset).column } } := by
  rw [← excerpt_eq]
  exact ⟨_, rfl⟩

/-- A text that is read up to what is left over is a file up to there. -/
theorem parse_cut (file : String) {cs later : List Char} (hl : LeftOver later)
    (h : (Peg.rule .sourceFile).Takes [] cs later) :
    ∃ f, parse file (String.ofList cs) = .ok f := by
  obtain ⟨f, hf⟩ := (ends_sourceFile hl).reaches [] cs h
  obtain ⟨g, rfl, _⟩ := body_of_reads hf
  have hmatch := Rule.matchRest_of_reads hf
  rw [List.append_nil, if_pos rfl, ← String.toList_ofList (l := cs)] at hmatch
  obtain ⟨parsed, _, hparsed⟩ := parse_of_matchRest file hmatch
  exact ⟨parsed, hparsed⟩

/-- A text that is rejected is one that does not match. -/
theorem mismatch_of_parse {file text : String} {e : Failure} (h : parse file text = .error e) :
    ∃ m, Rule.sourceFile.matchRest text.toList 0 = .error m ∧
      e = .diagnostic (unreadable file text.toList m.offset) := by
  cases hmatch : Rule.sourceFile.matchRest text.toList 0 with
  | ok tree =>
      obtain ⟨f, _, hparse⟩ := parse_of_matchRest file hmatch
      rw [hparse] at h
      cases h
  | error m => exact ⟨m, rfl, (Except.error.inj ((parse_of_mismatch file hmatch).symm.trans h)).symm⟩

/-- A rejected text is reported at its first declaration that cannot be read, with what stands
there on the line. Up to that place it is a file, if it has a package clause; otherwise it is
reported where the clause breaks off. -/
theorem rejected_at_first_unreadable {file text : String} {e : Failure}
    (h : parse file text = .error e) :
    ∃ m message, Rule.sourceFile.matchRest text.toList 0 = .error m ∧
      e = .diagnostic
        { cause := .sourceParse message
            (String.ofList (((text.toList.drop m.offset).takeWhile (· != '\n')).take 40))
          span := some
            { file
              line := (Position.of text.toList m.offset).line
              column := (Position.of text.toList m.offset).column } } ∧
      if (Rule.packageClause.matchSome text.toList (triviaWidth text.toList)).isOk = true then
        (∃ f, parse file (String.ofList (text.toList.take m.offset)) = .ok f) ∧
          m.offset < text.toList.length ∧
          (∀ c ∈ (text.toList.drop m.offset).head?, isSpace c = false) ∧
          commentWidth (text.toList.drop m.offset) = none ∧
          (Rule.topDecl.matchSome text.toList m.offset).isOk = false
      else
        m.offset = triviaWidth text.toList +
          brokenClauseWidth (text.toList.drop (triviaWidth text.toList)) := by
  obtain ⟨m, hmatch, rfl⟩ := mismatch_of_parse h
  obtain ⟨message, hreport⟩ := unreadable_eq file text.toList m.offset
  refine ⟨m, message, hmatch, by rw [hreport], ?_⟩
  generalize text.toList = whole at hmatch
  split
  · next hclause =>
      obtain ⟨cs, later, rfl, htakes⟩ := isOk_packageClause_iff.1 hclause
      obtain ⟨hne, hoffset⟩ := Rule.leftOver_of_mismatch htakes hmatch
      obtain ⟨hl, hdecl⟩ := leftOver_of_sourceFile hne htakes
      rw [hoffset, List.take_left, List.drop_left]
      refine ⟨parse_cut file hl htakes, ?_, hl.solid.stops, ?_, ?_⟩
      · have hpos := List.length_pos_iff.2 hne
        rw [List.length_append]
        omega
      · obtain ⟨c, more, rfl⟩ := List.exists_cons_of_ne_nil hne
        exact hl.solid.head.2
      · obtain ⟨_, herror⟩ : ∃ p, Rule.topDecl.matchSome (cs ++ later) cs.length =
            .error (.failed p) := Rule.matchSome_of_refuses (by simpa using hdecl)
        rw [herror]
        rfl
  · next hclause =>
      rw [matchRest_of_no_clause hclause] at hmatch
      cases hmatch
      rfl

def unclosedSource : String := "package p\nconst A = (1\n"

theorem unclosed_rejected_at_value :
    ∃ message, parse "t.go" unclosedSource =
        .error (.diagnostic
          { cause := .sourceParse message "= (1", span := some ⟨"t.go", 2, 9⟩ }) ∧
      ∃ f, parse "t.go" "package p\nconst A " = .ok f := by
  have hwhere : (match Rule.sourceFile.matchRest unclosedSource.toList 0 with
      | .ok _ => 0
      | .error m => m.offset) = 18 := by decide +kernel
  have hrejected : (parse "t.go" unclosedSource).isOk = false := by decide +kernel
  cases h : parse "t.go" unclosedSource with
  | ok f =>
      rw [h] at hrejected
      cases hrejected
  | error e =>
      obtain ⟨m, message, hmatch, he, hfile⟩ := rejected_at_first_unreadable h
      rw [hmatch] at hwhere
      dsimp only at hwhere
      rw [if_pos (by decide +kernel), hwhere] at hfile
      rw [hwhere] at he
      exact ⟨message, congrArg Except.error he, hfile.1⟩

end SourceFile
end EnumNames
