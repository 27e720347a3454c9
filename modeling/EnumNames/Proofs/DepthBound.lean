import EnumNames.Grammar.Match
import Mathlib.Data.List.Basic

/-!
The depth bound never cuts a match. Every match moves the cursor forward over
the text of its forest, and a rule calls another at its own place only down a
fixed order of rules. So matching is a solution of the grammar's equations, and
further statements can forget the bound.
-/

namespace EnumNames.Grammar

/-! ## Moving forward -/

namespace Cursor

theorem length_advance (c : Cursor) (n : Nat) :
    (c.advance n).ahead.length = c.ahead.length - n := by
  simp [advance]

theorem advance_advance (c : Cursor) (m n : Nat) :
    (c.advance m).advance n = c.advance (m + n) := by
  simp only [advance, List.take_add, List.reverse_append, List.length_append, List.append_assoc,
    List.drop_drop, Nat.add_assoc]

end Cursor

/-- The outcome, if it is a match, ends some characters further and has just these for its text.
With `strict` there is at least one. -/
def Outcome.Forward (o : Outcome) (c : Cursor) (strict : Bool) : Prop :=
  ∀ f c', o.result = some (f, c') →
    ∃ n, n ≤ c.ahead.length ∧ c' = c.advance n ∧ f.text = c.ahead.take n ∧
      (strict = true → 0 < n)

variable {c : Cursor} {o : Outcome}

theorem Outcome.Forward.mono {strict strict' : Bool} (h : o.Forward c strict)
    (hs : strict' = true → strict = true) : o.Forward c strict' := by
  intro f c' hr
  obtain ⟨n, hn, hc, ht, hp⟩ := h f c' hr
  exact ⟨n, hn, hc, ht, hp ∘ hs⟩

theorem Outcome.forward_stay : (Outcome.stay c).Forward c false := by
  intro f c' h
  cases h
  exact ⟨0, Nat.zero_le _, by simp, rfl, by simp⟩

theorem Outcome.Forward.andThen {next : Cursor → Outcome} {strict strict' : Bool}
    (h : o.Forward c strict) (hn : ∀ c', (next c').Forward c' strict') :
    (o.andThen next).Forward c (strict || strict') := by
  intro f c' hr
  unfold Outcome.andThen at hr
  split at hr
  · next hnone => rw [hnone] at hr; cases hr
  · next g d hsome =>
      obtain ⟨r, hr', heq⟩ := Option.map_eq_some_iff.1 hr
      obtain ⟨m, hm, rfl, htm, hsm⟩ := h g d hsome
      obtain ⟨k, hk, hck, htk, hsk⟩ := hn _ r.1 r.2 hr'
      cases heq
      rw [Cursor.length_advance] at hk
      refine ⟨m + k, by omega, ?_, ?_, ?_⟩
      · rw [hck, Cursor.advance_advance]
      · rw [Forest.text_append, htm, htk, List.take_add]
        rfl
      · intro hs
        rcases Bool.or_eq_true_iff.1 hs with hs | hs
        · have := hsm hs
          omega
        · have := hsk hs
          omega

theorem Outcome.Forward.orElse {other : Unit → Outcome} {strict : Bool} (h : o.Forward c strict)
    (ho : (other ()).Forward c strict) : (o.orElse other).Forward c strict := by
  intro f c' hr
  unfold Outcome.orElse at hr
  split at hr
  · exact ho f c' hr
  · exact h f c' hr

theorem Outcome.Forward.under {strict : Bool} (r : Rule) (offset : Nat) (h : o.Forward c strict) :
    (o.under r offset).Forward c strict := by
  intro f c' hr
  unfold Outcome.under at hr
  split at hr
  · cases hr
  · next g d hsome =>
      obtain ⟨n, hn, hc, ht, hp⟩ := h g d hsome
      cases hr
      exact ⟨n, hn, hc, by simp [Forest.text, ht], hp⟩

theorem forward_repeated {item : Cursor → Outcome} (h : ∀ c, (item c).Forward c false) (fuel : Nat)
    (c : Cursor) : (repeated item fuel c).Forward c false := by
  induction fuel generalizing c with
  | zero => exact Outcome.forward_stay
  | succ fuel ih =>
      unfold repeated
      split
      · exact Outcome.forward_stay
      · dsimp only
        split
        · intro f c' hr
          cases hr
          exact ⟨0, Nat.zero_le _, by simp, rfl, by simp⟩
        · split
          · exact (h c).andThen ih
          · exact h c

/-! ## Tokens -/

theorem passed_eq_some {n m : Nat} {width : Option Nat} :
    passed n width = some m ↔ ∃ k, width = some k ∧ n + k = m := by
  simp [passed, Option.map_eq_some_iff]

theorem length_takeWhile_le (p : Char → Bool) (cs : List Char) :
    (cs.takeWhile p).length ≤ cs.length :=
  (List.takeWhile_sublist p).length_le

theorem runWidth_eq_some {p : Char → Bool} {cs : List Char} {n : Nat}
    (h : runWidth p cs = some n) : n = (cs.takeWhile p).length ∧ 0 < n := by
  unfold runWidth at h
  split at h
  · cases h
  · next k hk =>
      cases h
      exact ⟨hk.symm, Nat.succ_pos k⟩

theorem runWidth_le {p : Char → Bool} {cs : List Char} {n : Nat} (h : runWidth p cs = some n) :
    n ≤ cs.length := by
  rw [(runWidth_eq_some h).1]
  exact length_takeWhile_le p cs

theorem wordWidth_eq_some {word cs : List Char} {n : Nat} :
    wordWidth word cs = some n ↔ n = word.length ∧ word <+: cs := by
  induction word generalizing cs n with
  | nil => simp [wordWidth, eq_comm]
  | cons w word ih =>
      cases cs with
      | nil => simp [wordWidth]
      | cons c cs =>
          by_cases hw : w = c
          · subst hw
            simp only [wordWidth, beq_self_eq_true, if_true, passed_eq_some, ih,
              List.cons_prefix_cons, true_and, List.length_cons]
            constructor
            · rintro ⟨k, ⟨rfl, hp⟩, rfl⟩
              exact ⟨Nat.add_comm 1 _, hp⟩
            · rintro ⟨rfl, hp⟩
              exact ⟨word.length, ⟨rfl, hp⟩, Nat.add_comm 1 _⟩
          · simp [wordWidth, hw, List.cons_prefix_cons]

theorem keywordWidth_eq_some {words : List (List Char)} {cs : List Char} {n : Nat}
    (h : keywordWidth words cs = some n) : ∃ word ∈ words, n = word.length ∧ word <+: cs := by
  unfold keywordWidth at h
  obtain ⟨word, hmem, hw⟩ := List.exists_of_findSome?_eq_some h
  obtain ⟨hw, _⟩ := Option.filter_eq_some_iff.1 hw
  exact ⟨word, hmem, wordWidth_eq_some.1 hw⟩

theorem identifierWidth_bounds {cs : List Char} {n : Nat} (h : identifierWidth cs = some n) :
    0 < n ∧ n ≤ cs.length := by
  unfold identifierWidth at h
  split at h
  · cases h
  · next c cs =>
      split at h
      · cases h
        have := length_takeWhile_le Text.isWord cs
        simp only [List.length_cons]
        omega
      · cases h

theorem closeWidth_bounds {p : Char → Bool} {cs : List Char} {n : Nat}
    (h : closeWidth p cs = some n) : 0 < n ∧ n ≤ cs.length := by
  induction cs generalizing n with
  | nil => simp [closeWidth] at h
  | cons c cs ih =>
      unfold closeWidth at h
      split at h
      · next heq =>
          cases h
          cases heq
          simp
      · next c' cs' hne heq =>
          cases heq
          split at h
          · obtain ⟨k, hk, rfl⟩ := passed_eq_some.1 h
            have := ih hk
            simp only [List.length_cons]
            omega
          · cases h
      · next heq => cases heq

theorem lineCommentWidth_bounds {cs : List Char} {n : Nat} (h : lineCommentWidth cs = some n) :
    2 ≤ n ∧ n ≤ cs.length := by
  unfold lineCommentWidth at h
  split at h
  · next cs =>
      cases h
      have := length_takeWhile_le (· != '\n') cs
      simp only [List.length_cons]
      omega
  · cases h

theorem blockCommentWidth_bounds {p : Char → Bool} {cs : List Char} {n : Nat}
    (h : blockCommentWidth p cs = some n) : 2 ≤ n ∧ n ≤ cs.length := by
  unfold blockCommentWidth at h
  split at h
  · next cs =>
      obtain ⟨k, hk, rfl⟩ := passed_eq_some.1 h
      have := closeWidth_bounds hk
      simp only [List.length_cons]
      omega
  · cases h

theorem commentWidth_bounds {cs : List Char} {n : Nat} (h : commentWidth cs = some n) :
    2 ≤ n ∧ n ≤ cs.length := by
  rcases Option.or_eq_some_iff.1 h with h | ⟨_, h⟩
  · exact lineCommentWidth_bounds h
  · exact blockCommentWidth_bounds h

theorem shortCommentWidth_bounds {cs : List Char} {n : Nat} (h : shortCommentWidth cs = some n) :
    2 ≤ n ∧ n ≤ cs.length := by
  rcases Option.or_eq_some_iff.1 h with h | ⟨_, h⟩
  · exact lineCommentWidth_bounds h
  · exact blockCommentWidth_bounds h

theorem triviaFrom_le (skip : Nat) (cs : List Char) : triviaFrom skip cs ≤ cs.length := by
  induction cs generalizing skip with
  | nil => simp [triviaFrom]
  | cons c cs ih =>
      unfold triviaFrom
      simp only [List.length_cons]
      split
      · next skip =>
          have := ih skip
          omega
      · split
        · have := ih 0
          omega
        · split
          · next n _ =>
              have := ih (n - 1)
              omega
          · omega

theorem basedWidth_bounds {cs : List Char} {n : Nat} (h : basedWidth cs = some n) :
    0 < n ∧ n ≤ cs.length := by
  unfold basedWidth at h
  split at h
  · next c cs =>
      simp only [List.length_cons]
      split at h
      · obtain ⟨k, hk, rfl⟩ := passed_eq_some.1 h
        have := runWidth_le hk
        omega
      · split at h
        · obtain ⟨k, hk, rfl⟩ := passed_eq_some.1 h
          have := runWidth_le hk
          omega
        · split at h
          · obtain ⟨k, hk, rfl⟩ := passed_eq_some.1 h
            have := runWidth_le hk
            omega
          · cases h
  · cases h

theorem integerWidth_bounds {cs : List Char} {n : Nat} (h : integerWidth cs = some n) :
    0 < n ∧ n ≤ cs.length := by
  unfold integerWidth at h
  split at h
  · cases h
  · next c cs =>
      simp only [List.length_cons]
      split at h
      · rcases Option.or_eq_some_iff.1 h with h | ⟨_, h⟩
        · split at h
          · obtain ⟨k, hk, rfl⟩ := passed_eq_some.1 h
            have := basedWidth_bounds hk
            omega
          · cases h
        · cases h
          have := length_takeWhile_le (spaced isPlainDigit) cs
          omega
      · cases h

theorem exactWidth_le {p : Char → Bool} {k n : Nat} {cs : List Char}
    (h : exactWidth p k cs = some n) : n = k ∧ k ≤ cs.length := by
  unfold exactWidth at h
  split at h
  · next hk =>
      cases h
      have hlen : (cs.take k).length = k := by simpa using (Bool.and_eq_true_iff.1 hk).1
      rw [List.length_take] at hlen
      exact ⟨rfl, by omega⟩
  · cases h

theorem runeWidth_bounds {cs : List Char} {n : Nat} (h : runeWidth cs = some n) :
    0 < n ∧ n ≤ cs.length := by
  unfold runeWidth at h
  split at h
  · next cs =>
      obtain ⟨k, hk, hq⟩ := Option.bind_eq_some_iff.1 h
      split at hq
      · next hquote =>
          cases hq
          have hlt : k < cs.length := by
            by_contra hge
            rw [List.drop_of_length_le (by omega)] at hquote
            cases hquote
          simp only [List.length_cons]
          omega
      · cases hq
  · cases h

theorem stringTailWidth_bounds {cs : List Char} {n : Nat} (h : stringTailWidth cs = some n) :
    0 < n ∧ n ≤ cs.length := by
  fun_induction stringTailWidth cs generalizing n with
  | case1 | case3 | case5 => cases h
  | case2 =>
      cases h
      simp
  | case4 c cs _ ih =>
      obtain ⟨k, hk, rfl⟩ := passed_eq_some.1 h
      have := ih hk
      simp only [List.length_cons]
      omega
  | case6 c cs _ _ _ ih =>
      obtain ⟨k, hk, rfl⟩ := passed_eq_some.1 h
      have := ih hk
      simp only [List.length_cons]
      omega

theorem stringWidth_bounds {cs : List Char} {n : Nat} (h : stringWidth cs = some n) :
    0 < n ∧ n ≤ cs.length := by
  unfold stringWidth at h
  split at h
  · obtain ⟨k, hk, rfl⟩ := passed_eq_some.1 h
    have := stringTailWidth_bounds hk
    simp only [List.length_cons]
    omega
  · cases h

theorem rawStringWidth_bounds {cs : List Char} {n : Nat} (h : rawStringWidth cs = some n) :
    0 < n ∧ n ≤ cs.length := by
  unfold rawStringWidth at h
  split at h
  · cases h
  · next c cs =>
      split at h
      · dsimp only at h
        split at h
        · cases h
        · next hne =>
            cases h
            have hlt : (cs.takeWhile (· != rawQuote)).length < cs.length := by
              by_contra hge
              rw [List.drop_of_length_le (by omega)] at hne
              simp at hne
            simp only [List.length_cons]
            omega
      · cases h

theorem slashWidth_bounds {cs : List Char} {n : Nat} (h : slashWidth cs = some n) :
    0 < n ∧ n ≤ cs.length := by
  unfold slashWidth at h
  split at h
  · split at h
    · cases h
    · cases h
      simp
  · cases h

def Token.mayBeEmpty : Token → Bool
  | .literal text => text.isEmpty
  | .keyword words => words.any (·.isEmpty)
  | .semicolon | .indent | .trivia | .gap | .expressionEnd => true
  | .identifier | .integer | .rune | .string | .rawString | .slash | .comment | .shortComment
  | .inlineComment | .bareText | .groupText | .separator | .blanks => false

/-- A token takes characters that are there, and at least one unless it may be empty. -/
theorem Token.width_bounds {t : Token} {behind ahead : List Char} {n : Nat}
    (h : t.width behind ahead = some n) :
    n ≤ ahead.length ∧ (t.mayBeEmpty = false → 0 < n) := by
  cases t with
  | literal text =>
      obtain ⟨rfl, hp⟩ := wordWidth_eq_some.1 h
      refine ⟨hp.length_le, fun he => ?_⟩
      cases text with
      | nil => cases he
      | cons _ _ => exact Nat.succ_pos _
  | keyword words =>
      obtain ⟨word, hmem, rfl, hp⟩ := keywordWidth_eq_some h
      refine ⟨hp.length_le, fun he => ?_⟩
      have hw := List.any_eq_false.1 he word hmem
      cases word with
      | nil => simp at hw
      | cons _ _ => exact Nat.succ_pos _
  | identifier => exact (identifierWidth_bounds h).symm.imp id fun hp _ => hp
  | integer => exact (integerWidth_bounds h).symm.imp id fun hp _ => hp
  | rune => exact (runeWidth_bounds h).symm.imp id fun hp _ => hp
  | string => exact (stringWidth_bounds h).symm.imp id fun hp _ => hp
  | rawString => exact (rawStringWidth_bounds h).symm.imp id fun hp _ => hp
  | slash => exact (slashWidth_bounds h).symm.imp id fun hp _ => hp
  | comment => exact (commentWidth_bounds h).symm.imp id fun hp _ => by omega
  | shortComment => exact (shortCommentWidth_bounds h).symm.imp id fun hp _ => by omega
  | inlineComment => exact (blockCommentWidth_bounds h).symm.imp id fun hp _ => by omega
  | bareText | groupText | blanks => exact ⟨runWidth_le h, fun _ => (runWidth_eq_some h).2⟩
  | separator =>
      simp only [Token.width] at h
      cases ahead with
      | nil => simp at h
      | cons c cs =>
          split at h
          · cases h
            simp
          · cases h
  | semicolon =>
      simp only [Token.width, Option.some.injEq] at h
      subst h
      cases ahead with
      | nil => simp [Token.mayBeEmpty]
      | cons c cs =>
          split
          · simp
          · simp [Token.mayBeEmpty]
  | indent =>
      simp only [Token.width, Option.some.injEq] at h
      subst h
      exact ⟨length_takeWhile_le _ _, fun he => by cases he⟩
  | trivia =>
      simp only [Token.width, Option.some.injEq] at h
      subst h
      exact ⟨triviaFrom_le 0 ahead, fun he => by cases he⟩
  | gap =>
      simp only [Token.width, Option.some.injEq] at h
      subst h
      refine ⟨?_, fun he => by cases he⟩
      split
      · exact triviaFrom_le 0 ahead
      · exact length_takeWhile_le _ _
  | expressionEnd =>
      simp only [Token.width] at h
      split at h
      · cases h
        exact ⟨Nat.zero_le _, fun he => by cases he⟩
      · cases h

theorem Token.forward_run (t : Token) (c : Cursor) : (t.run c).Forward c !t.mayBeEmpty := by
  intro f c' h
  unfold Token.run at h
  split at h
  · cases h
  · next n hn =>
      cases h
      obtain ⟨hle, hpos⟩ := Token.width_bounds hn
      exact ⟨n, hle, rfl, by simp [Forest.text], by simpa using hpos⟩

/-! ## Expressions -/

def Rule.mayBeEmpty : Rule → Bool
  | .groupBody | .linePieceRun | .stmtEnd | .indent | .pieceGap | .trivia | .exprEnd => true
  | _ => false

namespace Peg

def mayBeEmpty : Peg → Bool
  | .token t => t.mayBeEmpty
  | .rule r => r.mayBeEmpty
  | .seq first second => first.mayBeEmpty && second.mayBeEmpty
  | .choice first second => first.mayBeEmpty || second.mayBeEmpty
  | .many _ | .optional _ => true

/-- The rules that may be called where an expression is tried. -/
def starts : Peg → List Rule
  | .token _ => []
  | .rule r => [r]
  | .seq first second => first.starts ++ if first.mayBeEmpty then second.starts else []
  | .choice first second => first.starts ++ second.starts
  | .many item | .optional item => item.starts

theorem forward_run (call : Rule → Cursor → Outcome)
    (hcall : ∀ r c, (call r c).Forward c !r.mayBeEmpty) (e : Peg) (c : Cursor) :
    (e.run call c).Forward c !e.mayBeEmpty := by
  induction e generalizing c with
  | token t => exact t.forward_run c
  | rule r => exact hcall r c
  | seq first second ih₁ ih₂ =>
      refine ((ih₁ c).andThen ih₂).mono ?_
      simp [mayBeEmpty]
  | choice first second ih₁ ih₂ =>
      refine ((ih₁ c).mono ?_).orElse ((ih₂ c).mono ?_) <;> simp +contextual [mayBeEmpty]
  | many item ih => exact forward_repeated (fun c => (ih c).mono (by simp)) _ c
  | optional item ih =>
      simp only [run]
      split
      · exact Outcome.forward_stay
      · exact ((ih c).mono (by simp [mayBeEmpty])).orElse Outcome.forward_stay

end Peg

namespace Rule

theorem mayBeEmpty_of_body (r : Rule) : r.body.mayBeEmpty = true → r.mayBeEmpty = true := by
  cases r <;> decide

theorem forward_runWithin (n : Nat) (r : Rule) (c : Cursor) :
    (r.runWithin n c).Forward c !r.mayBeEmpty := by
  induction n generalizing r c with
  | zero =>
      intro f c' h
      cases h
  | succ n ih =>
      refine ((Peg.forward_run _ ih r.body c).mono ?_).under r c.offset
      have := mayBeEmpty_of_body r
      cases hb : r.body.mayBeEmpty <;> simp_all

theorem forward_run (r : Rule) (c : Cursor) : (r.run c).Forward c !r.mayBeEmpty :=
  forward_runWithin _ r c

end Rule

/-! ## Depth -/

/-- A match that takes no character stays where it is. -/
theorem Outcome.Forward.eq_or_shorter {strict : Bool} {f : Forest} {c' : Cursor}
    (h : o.Forward c strict) (hr : o.result = some (f, c')) :
    c' = c ∧ strict = false ∨ c'.ahead.length < c.ahead.length := by
  obtain ⟨n, hn, rfl, _, hp⟩ := h f c' hr
  cases n with
  | zero =>
      refine .inl ⟨c.advance_zero, ?_⟩
      cases strict
      · rfl
      · exact absurd (hp rfl) (Nat.lt_irrefl 0)
  | succ n =>
      right
      rw [Cursor.length_advance]
      omega

/-- Repetitions agree when their items agree here and on shorter rests. -/
theorem repeated_congr {item item' : Cursor → Outcome} (hf : ∀ c, (item c).Forward c false)
    (fuel : Nat) (c : Cursor) (hc : item c = item' c)
    (hl : ∀ d, d.ahead.length < c.ahead.length → item d = item' d) :
    repeated item fuel c = repeated item' fuel c := by
  induction fuel generalizing c with
  | zero => rfl
  | succ fuel ih =>
      simp only [repeated]
      rw [← hc]
      split
      · rfl
      · split
        · rfl
        · next f c' hr =>
            split
            · next hlt =>
                rcases (hf c).eq_or_shorter hr with ⟨rfl, _⟩ | hshort
                · exact absurd hlt (Nat.lt_irrefl _)
                · have heq := ih c' (hl c' hshort) fun d hd => hl d (Nat.lt_trans hd hshort)
                  simp [Outcome.andThen, hr, heq]
            · rfl

theorem Peg.run_congr {call call' : Rule → Cursor → Outcome}
    (hcall : ∀ r c, (call r c).Forward c !r.mayBeEmpty) (e : Peg) (c : Cursor)
    (hc : ∀ r ∈ e.starts, call r c = call' r c)
    (hl : ∀ r d, d.ahead.length < c.ahead.length → call r d = call' r d) :
    e.run call c = e.run call' c := by
  induction e generalizing c with
  | token t => rfl
  | rule r => exact hc r (by simp [starts])
  | seq first second ih₁ ih₂ =>
      have h₁ := ih₁ c (fun r hr => hc r (by simp [starts, hr])) hl
      simp only [run]
      rw [← h₁]
      unfold Outcome.andThen
      split
      · rfl
      · next f d hr =>
          have h₂ : second.run call d = second.run call' d := by
            rcases (forward_run call hcall first c).eq_or_shorter hr with ⟨rfl, he⟩ | hshort
            · refine ih₂ d (fun r hr => hc r ?_) hl
              have he' : first.mayBeEmpty = true := by simpa using he
              simp [starts, he', hr]
            · exact ih₂ d (fun r _ => hl r d hshort) fun r d' hd => hl r d' (Nat.lt_trans hd hshort)
          rw [h₂]
  | choice first second ih₁ ih₂ =>
      simp only [run]
      rw [ih₁ c (fun r hr => hc r (by simp [starts, hr])) hl,
        ih₂ c (fun r hr => hc r (by simp [starts, hr])) hl]
  | many item ih =>
      refine repeated_congr (fun d => (forward_run call hcall item d).mono (by simp)) _ c
        (ih c hc hl) fun d hd => ?_
      exact ih d (fun r _ => hl r d hd) fun r d' hd' => hl r d' (Nat.lt_trans hd' hd)
  | optional item ih => simp only [run, ih c hc hl]

namespace Rule

/-- The order of rules: a rule is called at the place of another only from a higher one. -/
def height : Rule → Nat
  | .stmtEnd | .sourceFile | .typeDecl | .constDecl | .otherDecl | .typeSpec | .namedType | .group
  | .identifierList | .qualifiedIdent | .operand | .lineComment => 1
  | .topDecl | .typeBody | .groupedType | .exprPiece | .constSpec | .typeName | .binaryExpr
  | .groupItem => 2
  | .topLevel | .typeLiteral | .constBody | .groupedConst | .constType | .simpleShape
  | .verbatimExpr | .linePiece | .groupBody => 3
  | .typeExpr | .simpleExpr | .linePieceRun => 4
  | .expr => 5
  | .exprList => 6
  | _ => 0

theorem height_lt (r : Rule) : ∀ r' ∈ r.body.starts, r'.height < r.height := by
  cases r <;> decide

theorem height_le (r : Rule) : r.height ≤ 6 := by
  cases r <;> decide

/-- Any two depths that are enough give the same outcome. -/
theorem runWithin_eq (r : Rule) (c : Cursor) (n m : Nat)
    (hn : 64 * c.ahead.length + r.height < n) (hm : 64 * c.ahead.length + r.height < m) :
    r.runWithin n c = r.runWithin m c := by
  induction n generalizing r c m with
  | zero => omega
  | succ n ih =>
      cases m with
      | zero => omega
      | succ m =>
          have hbody : r.body.run (runWithin n) c = r.body.run (runWithin m) c := by
            refine Peg.run_congr (forward_runWithin n) r.body c ?_ ?_
            · intro r' hr'
              have := height_lt r r' hr'
              exact ih r' c m (by omega) (by omega)
            · intro r' d hd
              have := height_le r'
              exact ih r' d m (by omega) (by omega)
          simp only [runWithin, hbody]

/-- Matching a rule is matching its body. -/
theorem run_eq (r : Rule) (c : Cursor) : r.run c = .under r c.offset (r.body.run run c) := by
  have hbody : r.body.run (runWithin (64 * c.ahead.length + 63)) c = r.body.run run c := by
    refine Peg.run_congr (forward_runWithin _) r.body c ?_ ?_
    · intro r' _
      have := height_le r'
      exact runWithin_eq r' c _ _ (by omega) (by rw [depthBound]; omega)
    · intro r' d hd
      have := height_le r'
      exact runWithin_eq r' d _ _ (by omega) (by rw [depthBound]; omega)
  have hdepth : depthBound c = 64 * c.ahead.length + 63 + 1 := by
    rw [depthBound]
    omega
  rw [run, hdepth, runWithin, hbody]

end Rule

end EnumNames.Grammar
