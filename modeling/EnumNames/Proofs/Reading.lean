import EnumNames.Proofs.Lexemes

/-!
Matching by parts. `Reads` says which characters an expression takes before a
given rest, and `Refuses` that it does not match there. Both leave out offsets
and failures. The rules below follow the forms of expressions, with the choice
between two ways decided by a refusal of the first.
-/

namespace EnumNames.Grammar

/-- Between the characters behind and the rest, the expression takes `cs` as a forest. -/
def Peg.Reads (e : Peg) (behind cs rest : List Char) (f : Forest) : Prop :=
  ∀ offset, (e.run Rule.run ⟨offset, behind, cs ++ rest⟩).result =
    some (f, ⟨offset + cs.length, cs.reverse ++ behind, rest⟩)

def Peg.Refuses (e : Peg) (behind ahead : List Char) : Prop :=
  ∀ offset, (e.run Rule.run ⟨offset, behind, ahead⟩).result = none

variable {e e' : Peg} {t : Token} {r : Rule} {f g : Forest} {behind cs ds rest ahead : List Char}

theorem Cursor.advance_append (offset : Nat) (behind cs rest : List Char) :
    Cursor.advance ⟨offset, behind, cs ++ rest⟩ cs.length =
      ⟨offset + cs.length, cs.reverse ++ behind, rest⟩ := by
  simp [advance]

/-! ## Tokens and rules -/

theorem reads_token (h : t.width behind (cs ++ rest) = some cs.length) :
    (Peg.token t).Reads behind cs rest (.leaf cs .nil) := by
  intro offset
  simp [Peg.run, Token.run, h, Cursor.advance_append]

theorem refuses_token (h : t.width behind ahead = none) : (Peg.token t).Refuses behind ahead := by
  intro offset
  simp [Peg.run, Token.run, h]

theorem reads_rule (h : r.body.Reads behind cs rest f) :
    (Peg.rule r).Reads behind cs rest (.node r f .nil) := by
  intro offset
  simp [Peg.run, Rule.run_eq r, Outcome.under, h offset]

theorem refuses_rule (h : r.body.Refuses behind ahead) : (Peg.rule r).Refuses behind ahead := by
  intro offset
  simp [Peg.run, Rule.run_eq r, Outcome.under, h offset]

def Forest.lexeme (r : Rule) (cs : List Char) : Forest := .node r (.leaf cs .nil) .nil

theorem reads_lexeme (hb : r.body = .token t)
    (h : t.width behind (cs ++ rest) = some cs.length) :
    (Peg.rule r).Reads behind cs rest (.lexeme r cs) :=
  reads_rule (hb ▸ reads_token h)

theorem refuses_lexeme (hb : r.body = .token t) (h : t.width behind ahead = none) :
    (Peg.rule r).Refuses behind ahead :=
  refuses_rule (hb ▸ refuses_token h)

theorem reads_lit (c : Char) : (Peg.lit c).Reads behind [c] rest (.leaf [c] .nil) :=
  reads_token (wordWidth_append [c] rest)

theorem refuses_lit {c : Char} (h : Stops (· == c) ahead) : (Peg.lit c).Refuses behind ahead := by
  refine refuses_token ?_
  cases ahead with
  | nil => rfl
  | cons d ds =>
      have hd : d ≠ c := by simpa using h
      simp [Token.width, wordWidth, hd.symm]

theorem reads_indent (h : cs.all isIndent = true) (hr : Stops isIndent rest) :
    (Peg.rule .indent).Reads behind cs rest (.lexeme .indent cs) :=
  reads_lexeme rfl (congrArg some (indentWidth_append h hr))

theorem reads_trivia (parts : List Filler) (hr : Solid rest) :
    (Peg.rule .trivia).Reads behind (Filler.text parts) rest
      (.lexeme .trivia (Filler.text parts)) :=
  reads_lexeme rfl (congrArg some (triviaWidth_append parts hr))

theorem reads_identifier (h : isIdentifier cs = true) (hr : Stops Text.isWord rest) :
    (Peg.rule .identifier).Reads behind cs rest (.lexeme .identifier cs) :=
  reads_lexeme rfl (identifierWidth_append h hr)

theorem refuses_identifier (h : Stops Text.isWord ahead) :
    (Peg.rule .identifier).Refuses behind ahead :=
  refuses_lexeme rfl (identifierWidth_eq_none h)

/-! ## Sequences and choices -/

theorem reads_seq (h : e.Reads behind cs (ds ++ rest) f)
    (h' : e'.Reads (cs.reverse ++ behind) ds rest g) :
    (Peg.seq e e').Reads behind (cs ++ ds) rest (f.append g) := by
  intro offset
  have h₁ := h offset
  have h₂ := h' (offset + cs.length)
  simp [Peg.run, Outcome.andThen, h₁, h₂, Nat.add_assoc]

theorem refuses_seq_first (h : e.Refuses behind ahead) : (Peg.seq e e').Refuses behind ahead := by
  intro offset
  simp [Peg.run, Outcome.andThen, h offset]

theorem refuses_seq_second (h : e.Reads behind cs rest f)
    (h' : e'.Refuses (cs.reverse ++ behind) rest) : (Peg.seq e e').Refuses behind (cs ++ rest) := by
  intro offset
  simp [Peg.run, Outcome.andThen, h offset, h' (offset + cs.length)]

/-- Where no blanks stand, what comes after them decides. -/
theorem refuses_indented (hr : Stops isIndent ahead) (h : e.Refuses behind ahead) :
    (Peg.seq (.rule .indent) e).Refuses behind ahead := by
  have hnone : (Peg.rule .indent).Reads behind [] ahead (.lexeme .indent []) :=
    reads_indent rfl hr
  exact refuses_seq_second hnone h

theorem reads_choice_first (h : e.Reads behind cs rest f) :
    (Peg.choice e e').Reads behind cs rest f := by
  intro offset
  simp [Peg.run, Outcome.orElse, h offset]

theorem reads_choice_second (h : e.Refuses behind (cs ++ rest)) (h' : e'.Reads behind cs rest f) :
    (Peg.choice e e').Reads behind cs rest f := by
  intro offset
  simp [Peg.run, Outcome.orElse, Outcome.after, h offset, h' offset]

theorem refuses_choice (h : e.Refuses behind ahead) (h' : e'.Refuses behind ahead) :
    (Peg.choice e e').Refuses behind ahead := by
  intro offset
  simp [Peg.run, Outcome.orElse, Outcome.after, h offset, h' offset]

/-! ## Options and repetitions -/

theorem reads_optional_some (hne : cs ++ rest ≠ []) (h : e.Reads behind cs rest f) :
    (Peg.optional e).Reads behind cs rest f := by
  intro offset
  have hend : (cs ++ rest).isEmpty = false := by simpa using hne
  simp [Peg.run, Cursor.atEnd, hend, Outcome.orElse, h offset]

theorem reads_optional_none (h : rest ≠ [] → e.Refuses behind rest) :
    (Peg.optional e).Reads behind [] rest .nil := by
  intro offset
  cases rest with
  | nil => simp [Peg.run, Cursor.atEnd, Outcome.stay]
  | cons c rest =>
      have h' := h (by simp) offset
      simp [Peg.run, Cursor.atEnd, Outcome.orElse, Outcome.after, Outcome.stay, h']

/-- A repetition has enough fuel when it has as much as there are characters. -/
theorem repeated_eq {item : Cursor → Outcome} (hf : ∀ c, (item c).Forward c false) (n m : Nat)
    (c : Cursor) (hn : c.ahead.length ≤ n) (hm : c.ahead.length ≤ m) :
    repeated item n c = repeated item m c := by
  induction n generalizing c m with
  | zero =>
      have hend : c.atEnd = true := by
        simpa [Cursor.atEnd] using List.length_eq_zero_iff.1 (Nat.le_zero.1 hn)
      cases m <;> simp [repeated, hend]
  | succ n ih =>
      cases m with
      | zero =>
          have hend : c.atEnd = true := by
            simpa [Cursor.atEnd] using List.length_eq_zero_iff.1 (Nat.le_zero.1 hm)
          simp [repeated, hend]
      | succ m =>
          simp only [repeated]
          split
          · rfl
          · split
            · rfl
            · next c' hr =>
                split
                · next hlt =>
                    rcases (hf c).eq_or_shorter hr with ⟨rfl, _⟩ | hshort
                    · exact absurd hlt (Nat.lt_irrefl _)
                    · have heq := ih m c' (by omega) (by omega)
                      simp [Outcome.andThen, hr, heq]
                · rfl

theorem reads_many_nil (h : rest ≠ [] → e.Refuses behind rest) :
    (Peg.many e).Reads behind [] rest .nil := by
  intro offset
  cases rest with
  | nil => simp [Peg.run, repeated, Outcome.stay]
  | cons c rest =>
      have h' := h (by simp) offset
      simp [Peg.run, repeated, Cursor.atEnd, h']

theorem reads_many_cons (hne : cs ≠ []) (h : e.Reads behind cs (ds ++ rest) f)
    (h' : (Peg.many e).Reads (cs.reverse ++ behind) ds rest g) :
    (Peg.many e).Reads behind (cs ++ ds) rest (f.append g) := by
  intro offset
  have hpos : 0 < cs.length := List.length_pos_iff.2 hne
  have h₁ := h offset
  have h₂ := h' (offset + cs.length)
  have hf : ∀ c, (e.run Rule.run c).Forward c false := fun c =>
    (Peg.forward_run Rule.run Rule.forward_run e c).mono (by simp)
  obtain ⟨fuel, hlen, hle⟩ : ∃ fuel, (cs ++ (ds ++ rest)).length = fuel + 1 ∧
      (ds ++ rest).length ≤ fuel := by
    refine ⟨cs.length - 1 + (ds ++ rest).length, ?_, Nat.le_add_left _ _⟩
    rw [List.length_append]
    omega
  simp only [Peg.run] at h₂
  rw [repeated_eq hf (ds ++ rest).length fuel _ (Nat.le_refl _) hle] at h₂
  rw [List.append_assoc]
  simp only [Peg.run]
  rw [hlen, repeated]
  simp [Cursor.atEnd, hne, h₁, h₂, hpos, Outcome.andThen, Nat.add_assoc]
/-! ## Ends of statements -/

/-- A statement may end without a mark. -/
theorem reads_stmtEnd_bare (hi : Stops isIndent rest) (hs : Stops (· == ';') rest) :
    (Peg.rule .stmtEnd).Reads behind [] rest
      (.node .stmtEnd ((Forest.lexeme .indent []).append (.leaf [] .nil)) .nil) := by
  have hindent : (Peg.rule .indent).Reads behind [] ([] ++ rest) (.lexeme .indent []) :=
    reads_indent rfl hi
  refine reads_rule (reads_seq hindent (reads_token ?_))
  cases rest with
  | nil => rfl
  | cons c rest =>
      have hc : c ≠ ';' := by simpa using hs
      simp [Token.width, hc]

theorem reads_stmtEnd_semicolon :
    (Peg.rule .stmtEnd).Reads behind [';'] rest
      (.node .stmtEnd ((Forest.lexeme .indent []).append (.leaf [';'] .nil)) .nil) := by
  have hindent : (Peg.rule .indent).Reads behind [] ([';'] ++ rest) (.lexeme .indent []) :=
    reads_indent rfl (by simp [isIndent])
  exact reads_rule (reads_seq hindent (reads_token rfl))

/-! ## Package clauses -/

def Forest.packageClause (gap name : List Char) : Forest :=
  (Forest.leaf "package".toList .nil).append
    ((Forest.lexeme .indent gap).append (.lexeme .identifier name))

theorem reads_packageClause {gap name : List Char} (hg : gap.all isIndent = true)
    (hn : isIdentifier name = true) (hr : Stops Text.isWord rest) :
    (Peg.rule .packageClause).Reads behind ("package".toList ++ (gap ++ name)) rest
      (.node .packageClause (.packageClause gap name) .nil) := by
  refine reads_rule (reads_seq (reads_token (wordWidth_append _ _)) (reads_seq
    (reads_indent hg ?_) (reads_identifier hn hr)))
  obtain ⟨c, cs, rfl, hc, _, _⟩ := isIdentifier_cons hn
  exact stops_cons.2 (isIndent_eq_false_of_isWord hc)

end EnumNames.Grammar
