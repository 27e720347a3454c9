import EnumNames.Proofs.NestedText

/-!
Groups by a scanner. A scanner goes through a text from left to right with a
stack of the brackets that are open. It passes over a literal or a comment as a
whole and over any other character by itself, and it ends with the bracket that
closes the first one. The rule of groups, which goes down into the groups inside,
takes what the scanner passes over.
-/

namespace EnumNames.Grammar

open EnumNames.Text

namespace Scanner

/-! ## The scanner -/

def opens (c : Char) : Bool := (brackets.map (·.1)).contains c

def closes (c : Char) : Bool := (brackets.map (·.2)).contains c

/-- The width of the literal or comment that begins here, or of a character that begins neither. -/
def unitWidth : List Char → Option Nat
  | [] => none
  | c :: cs =>
      if c == '"' then stringWidth (c :: cs)
      else if c == rawQuote then rawStringWidth (c :: cs)
      else if c == '\'' then runeWidth (c :: cs)
      else if c == '/' then (commentWidth (c :: cs)).or (slashWidth (c :: cs))
      else some 1

def pop (c : Char) : List Char → Option (List Char)
  | [] => none
  | top :: stack => if brackets.contains (top, c) then some stack else none

/-- How many characters the scanner passes over next, and the open brackets after them, innermost
first. -/
def step (stack : List Char) : List Char → Option (Nat × List Char)
  | [] => none
  | c :: cs =>
      if opens c then some (1, c :: stack)
      else if closes c then (pop c stack).map fun stack => (1, stack)
      else (unitWidth (c :: cs)).map fun n => (n, stack)

def piecesWithin : Nat → List Char → List Char → Option (List (List Char))
  | 0, _, _ => none
  | fuel + 1, stack, cs =>
      match step stack cs with
      | none => none
      | some (n, []) => some [cs.take n]
      | some (n, top :: stack) =>
          (piecesWithin fuel (top :: stack) (cs.drop n)).map (cs.take n :: ·)

/-- The pieces of the group at the head of a text. Each step passes over a character, so there are
no more steps than characters. -/
def pieces? : List Char → Option (List (List Char))
  | [] => none
  | c :: cs => if opens c then piecesWithin (cs.length + 1) [] (c :: cs) else none

/-! ## Steps -/

inductive Piece : List Char → List Char → Prop where
  | literal (cs rest : List Char) (whole : IsLiteral cs) : Piece cs rest
  | line (body rest : List Char) (oneLine : '\n' ∉ body) (ends : Stops (· != '\n') rest) :
      Piece ('/' :: '/' :: body) rest
  | block (body rest : List Char) (unclosed : ¬ ['*', '/'] <:+: body) :
      Piece ('/' :: '*' :: body ++ ['*', '/']) rest
  | slash (rest : List Char) (lone : Stops isCommentMark rest) : Piece ['/'] rest
  | text (c : Char) (rest : List Char) (plain : isGroupText c = true) : Piece [c] rest

variable {stack stack' cs rest : List Char} {c : Char}

theorem pop_eq_some_iff : pop c stack = some stack' ↔
    ∃ top, (top, c) ∈ brackets ∧ stack = top :: stack' := by
  cases stack with
  | nil => simp [pop]
  | cons top stack => simp [pop]

theorem isStructural_iff : isStructural c = true ↔
    opens c = true ∨ closes c = true ∨ c ∈ quotes ∨ c = '/' := by
  simp only [isStructural, opens, closes, brackets, quotes, List.contains_eq_mem, List.map_cons,
    List.map_nil, decide_eq_true_eq, List.mem_cons, List.not_mem_nil, or_false]
  grind

theorem unitWidth_of_plain (h : isGroupText c = true) : unitWidth (c :: cs) = some 1 := by
  have hc : ¬ (opens c = true ∨ closes c = true ∨ c ∈ quotes ∨ c = '/') := by
    rw [← isStructural_iff]
    simpa [isGroupText] using h
  simp only [quotes, List.mem_cons, List.not_mem_nil, or_false, not_or] at hc
  simp [unitWidth, hc]

theorem Piece.ne_nil (h : Piece cs rest) : cs ≠ [] := by
  cases h with
  | literal _ _ whole =>
      obtain ⟨q, body, _, rfl⟩ := whole.quoted
      exact List.cons_ne_nil _ _
  | line | block | slash | text => exact List.cons_ne_nil _ _

/-- No piece begins with a bracket. -/
theorem Piece.head_not_bracket (h : Piece (c :: cs) rest) : opens c = false ∧ closes c = false := by
  generalize heq : c :: cs = ds at h
  cases h with
  | literal _ _ whole =>
      have hquote : ∀ q ∈ quotes, opens q = false ∧ closes q = false := forall_quotes (by decide)
      obtain ⟨q, body, hq, rfl⟩ := whole.quoted
      obtain ⟨rfl, _⟩ := List.cons.inj heq
      exact hquote c hq
  | line | block | slash =>
      obtain ⟨rfl, _⟩ := List.cons.inj heq
      decide
  | text d _ plain =>
      obtain ⟨rfl, _⟩ := List.cons.inj heq
      have hc : ¬ (opens c = true ∨ closes c = true ∨ c ∈ quotes ∨ c = '/') := by
        rw [← isStructural_iff]
        simpa [isGroupText] using plain
      rw [not_or, not_or, Bool.not_eq_true, Bool.not_eq_true] at hc
      exact ⟨hc.1, hc.2.1⟩

theorem Piece.unitWidth (h : Piece cs rest) : unitWidth (cs ++ rest) = some cs.length := by
  have hslash : ∀ ds, Scanner.unitWidth ('/' :: ds) =
      (commentWidth ('/' :: ds)).or (slashWidth ('/' :: ds)) := fun _ => rfl
  cases h with
  | literal _ _ whole =>
      cases whole with
      | inl hstring =>
          obtain ⟨body, rfl, hwidth⟩ := hstring
          exact hwidth rest
      | inr whole =>
          cases whole with
          | inl hraw =>
              obtain ⟨body, rfl, hwidth⟩ := hraw
              exact hwidth rest
          | inr hrune =>
              obtain ⟨body, rfl, hwidth⟩ := hrune
              exact hwidth rest
  | line body _ oneLine ends =>
      rw [List.cons_append, hslash, commentWidth, ← List.cons_append,
        lineCommentWidth_append oneLine ends, Option.some_or, Option.some_or, List.length_cons,
        List.length_cons, Nat.add_comm 2]
  | block body _ unclosed =>
      have hwidth := commentWidth_block unclosed rest
      simp only [List.cons_append] at hwidth ⊢
      rw [hslash, hwidth, Option.some_or]
      simp
  | slash _ lone =>
      rw [List.singleton_append, hslash, commentWidth_slash_eq_none lone, Option.none_or,
        slashWidth_cons_iff.2 ⟨rfl, lone⟩, List.length_singleton]
  | text c _ plain => exact unitWidth_of_plain plain

/-- Away from brackets a unit is one of the pieces. -/
theorem piece_of_unitWidth (ho : opens c = false) (hc : closes c = false)
    (h : unitWidth (c :: cs ++ rest) = some (c :: cs).length) : Piece (c :: cs) rest := by
  rw [List.cons_append, unitWidth] at h
  split_ifs at h with hstring hraw hrune hslash
  · exact .literal _ _ (.inl (quoted_string (by exact h)))
  · exact .literal _ _ (.inr (.inl (quoted_rawString (by exact h))))
  · exact .literal _ _ (.inr (.inr (quoted_rune (by exact h))))
  · cases Option.or_eq_some_iff.1 h with
    | inl h =>
        have hwidth : commentWidth ((c :: cs) ++ rest) = some (c :: cs).length := h
        cases form_of_commentWidth hwidth with
        | inl hline =>
            obtain ⟨body, hbody, hone, hends⟩ := hline
            rw [hbody]
            exact .line body rest hone hends
        | inr hblock =>
            obtain ⟨body, hbody, hopen⟩ := hblock
            rw [hbody]
            exact .block body rest hopen
    | inr h =>
        have hwidth : slashWidth ((c :: cs) ++ rest) = some (c :: cs).length := h.2
        obtain ⟨hone, hlone⟩ := form_of_slashWidth hwidth
        rw [hone]
        exact .slash rest hlone
  · have hplain : isGroupText c = true := by
      rw [isGroupText, Bool.not_eq_true', ← Bool.not_eq_true, isStructural_iff]
      simp_all [quotes]
    obtain rfl : cs = [] := by simpa using h
    exact .text c rest hplain

theorem unitWidth_bounds {n : Nat} (h : unitWidth cs = some n) : 0 < n ∧ n ≤ cs.length := by
  cases cs with
  | nil => cases h
  | cons c cs =>
      rw [unitWidth] at h
      split_ifs at h with hstring hraw hrune hslash
      · exact stringWidth_bounds h
      · exact rawStringWidth_bounds h
      · exact runeWidth_bounds h
      · cases Option.or_eq_some_iff.1 h with
        | inl h =>
            have := commentWidth_bounds h
            omega
        | inr h => exact slashWidth_bounds h.2
      · cases h
        exact ⟨Nat.one_pos, Nat.succ_le_succ (Nat.zero_le _)⟩

/-- A step passes over something. -/
theorem step_bounds {n : Nat} (h : step stack cs = some (n, stack')) : 0 < n ∧ n ≤ cs.length := by
  cases cs with
  | nil => cases h
  | cons c cs =>
      rw [step] at h
      split_ifs at h with ho hc
      · cases h
        exact ⟨Nat.one_pos, Nat.succ_le_succ (Nat.zero_le _)⟩
      · obtain ⟨_, _, heq⟩ := Option.map_eq_some_iff.1 h
        cases heq
        exact ⟨Nat.one_pos, Nat.succ_le_succ (Nat.zero_le _)⟩
      · obtain ⟨m, hm, heq⟩ := Option.map_eq_some_iff.1 h
        cases heq
        exact unitWidth_bounds hm

theorem opens_bracket : ∀ pair ∈ brackets,
    opens pair.1 = true ∧ opens pair.2 = false ∧ closes pair.2 = true := by
  decide

/-- A step opens a bracket, closes the innermost one, or passes over a piece. -/
theorem step_eq_some_iff : step stack (cs ++ rest) = some (cs.length, stack') ↔
    (∃ c, opens c = true ∧ cs = [c] ∧ stack' = c :: stack) ∨
      (∃ pair ∈ brackets, cs = [pair.2] ∧ stack = pair.1 :: stack') ∨
      Piece cs rest ∧ stack' = stack := by
  constructor
  · intro h
    cases cs with
    | nil => exact absurd (step_bounds h).1 (Nat.lt_irrefl 0)
    | cons c cs =>
        rw [List.cons_append, step] at h
        split_ifs at h with ho hc
        · simp only [Option.some.injEq, Prod.mk.injEq, List.length_cons, Nat.right_eq_add,
            List.length_eq_zero_iff] at h
          obtain ⟨rfl, rfl⟩ := h
          exact .inl ⟨c, ho, rfl, rfl⟩
        · obtain ⟨_, hpop, heq⟩ := Option.map_eq_some_iff.1 h
          simp only [Prod.mk.injEq, List.length_cons, Nat.right_eq_add,
            List.length_eq_zero_iff] at heq
          obtain ⟨rfl, rfl⟩ := heq
          obtain ⟨top, hpair, rfl⟩ := pop_eq_some_iff.1 hpop
          exact .inr (.inl ⟨(top, c), hpair, rfl, rfl⟩)
        · obtain ⟨n, hn, heq⟩ := Option.map_eq_some_iff.1 h
          simp only [Prod.mk.injEq] at heq
          obtain ⟨rfl, rfl⟩ := heq
          refine .inr (.inr ⟨piece_of_unitWidth ?_ ?_ (by exact hn), rfl⟩)
          · simpa using ho
          · simpa using hc
  · intro h
    cases h with
    | inl h =>
        obtain ⟨c, ho, rfl, rfl⟩ := h
        simp [step, ho]
    | inr h =>
        cases h with
        | inl h =>
            obtain ⟨pair, hp, rfl, rfl⟩ := h
            obtain ⟨_, ho, hc⟩ := opens_bracket pair hp
            simp [step, ho, hc, pop_eq_some_iff.2 ⟨pair.1, hp, rfl⟩]
        | inr h =>
            obtain ⟨hpiece, rfl⟩ := h
            have hwidth := hpiece.unitWidth
            cases cs with
            | nil => exact absurd rfl hpiece.ne_nil
            | cons c cs =>
                obtain ⟨ho, hc⟩ := hpiece.head_not_bracket
                rw [List.cons_append] at hwidth ⊢
                simp [step, ho, hc, hwidth]

/-! ## Runs -/

/-- From a stack the scanner passes over the pieces, until no bracket is open before the rest. -/
inductive Scans : List Char → List (List Char) → List Char → Prop where
  | last {stack cs rest : List Char} (h : step stack (cs ++ rest) = some (cs.length, [])) :
      Scans stack [cs] rest
  | next {stack stack' cs rest : List Char} {top : Char} {pieces : List (List Char)}
      (h : step stack (cs ++ (pieces.flatten ++ rest)) = some (cs.length, top :: stack'))
      (tail : Scans (top :: stack') pieces rest) : Scans stack (cs :: pieces) rest

variable {pieces : List (List Char)} {top : Char}

theorem scans_of_piecesWithin {fuel : Nat} (h : piecesWithin fuel stack cs = some pieces) :
    ∃ rest, cs = pieces.flatten ++ rest ∧ Scans stack pieces rest := by
  induction fuel generalizing stack cs pieces with
  | zero => cases h
  | succ fuel ih =>
      rw [piecesWithin] at h
      split at h
      · cases h
      · next n hstep =>
          cases h
          have hlen : (cs.take n).length = n := by
            rw [List.length_take, Nat.min_eq_left (step_bounds hstep).2]
          refine ⟨cs.drop n, by simp, .last ?_⟩
          rw [List.take_append_drop, hlen, hstep]
      · next n top stack' hstep =>
          obtain ⟨tail, htail, rfl⟩ := Option.map_eq_some_iff.1 h
          obtain ⟨rest, hrest, hscans⟩ := ih htail
          have hlen : (cs.take n).length = n := by
            rw [List.length_take, Nat.min_eq_left (step_bounds hstep).2]
          refine ⟨rest, ?_, .next ?_ hscans⟩
          · rw [List.flatten_cons, List.append_assoc, ← hrest, List.take_append_drop]
          · rw [← hrest, List.take_append_drop, hlen, hstep]

theorem Scans.piecesWithin (h : Scans stack pieces rest) (fuel : Nat)
    (hf : pieces.flatten.length ≤ fuel) :
    piecesWithin fuel stack (pieces.flatten ++ rest) = some pieces := by
  induction h generalizing fuel with
  | @last stack cs rest hstep =>
      have hpos := (step_bounds hstep).1
      cases fuel with
      | zero =>
          simp only [List.flatten_cons, List.flatten_nil, List.append_nil] at hf
          omega
      | succ fuel => simp [Scanner.piecesWithin, hstep]
  | @next stack stack' cs rest top pieces hstep _ ih =>
      have hpos := (step_bounds hstep).1
      simp only [List.flatten_cons, List.length_append] at hf
      cases fuel with
      | zero => omega
      | succ fuel =>
          have htail := ih fuel (by omega)
          simp only [List.flatten_cons, List.append_assoc, Scanner.piecesWithin, hstep,
            List.drop_left, List.take_left, htail, Option.map_some]

/-- The pieces of a group begin with its opening bracket. -/
theorem pieces?_eq_some_iff : pieces? cs = some pieces ↔ ∃ c tail rest, opens c = true ∧
    pieces = [c] :: tail ∧ cs = pieces.flatten ++ rest ∧ Scans [c] tail rest := by
  constructor
  · intro h
    cases cs with
    | nil => cases h
    | cons c cs =>
        rw [pieces?] at h
        split_ifs at h with ho
        obtain ⟨rest, hcs, hscans⟩ := scans_of_piecesWithin h
        have hopen : ∀ {ds : List Char} {stack : List Char} {more : List Char},
            c :: cs = ds ++ more → step [] (ds ++ more) = some (ds.length, stack) →
            ds = [c] ∧ stack = [c] := by
          intro ds stack more heq hstep
          rw [← heq, step, if_pos ho] at hstep
          obtain ⟨hlen, hstack⟩ := Prod.mk.inj (Option.some.inj hstep)
          obtain ⟨d, rfl⟩ := List.length_eq_one_iff.1 hlen.symm
          exact ⟨by rw [(List.cons.inj heq).1], hstack.symm⟩
        cases hscans with
        | last hstep => cases (hopen (by simpa using hcs) hstep).2
        | next hstep tail =>
            obtain ⟨rfl, hstack⟩ := hopen (by simpa using hcs) hstep
            cases hstack
            exact ⟨c, _, rest, ho, rfl, hcs, tail⟩
  · intro ⟨c, tail, rest, ho, hpieces, hcs, hscans⟩
    subst hpieces
    have hall : Scans [] ([c] :: tail) rest :=
      .next (step_eq_some_iff.2 (.inl ⟨c, ho, rfl, rfl⟩)) hscans
    have hwithin := hall.piecesWithin ((tail.flatten ++ rest).length + 1) (by simp)
    rw [hcs]
    simpa [pieces?, ho] using hwithin

/-! ## Nested text -/

theorem Scans.piece (hp : Piece cs (pieces.flatten ++ rest))
    (h : Scans (top :: stack) pieces rest) :
    Scans (top :: stack) (cs :: pieces) rest :=
  .next (step_eq_some_iff.2 (.inr (.inr ⟨hp, rfl⟩))) h

/-- The scanner passes over nested text with the stack it came with. -/
theorem scans_of_nested {inner : List Char} (hi : Nested inner)
    (hc : Closing (pieces.flatten ++ rest)) (h : Scans (top :: stack) pieces rest) :
    ∃ all, all.flatten = inner ++ pieces.flatten ∧ Scans (top :: stack) all rest := by
  -- The induction is over the text, with whatever the scanner does behind it.
  induction hi generalizing top stack pieces with
  | nil => exact ⟨pieces, rfl, h⟩
  | text c cs plain _ ih =>
      obtain ⟨all, hall, hscans⟩ := ih hc h
      exact ⟨[c] :: all, by simp [hall], hscans.piece (.text c _ plain)⟩
  | literal item cs whole _ ih =>
      obtain ⟨all, hall, hscans⟩ := ih hc h
      exact ⟨item :: all, by simp [hall], hscans.piece (.literal item _ whole)⟩
  | line body cs oneLine _ ih =>
      obtain ⟨all, hall, hscans⟩ := ih hc h
      have hend : Scans (top :: stack) (['\n'] :: all) rest :=
        hscans.piece (.text '\n' _ (by decide))
      exact ⟨('/' :: '/' :: body) :: ['\n'] :: all, by simp [hall],
        hend.piece (.line body _ oneLine (by simp))⟩
  | block body cs unclosed _ ih =>
      obtain ⟨all, hall, hscans⟩ := ih hc h
      exact ⟨('/' :: '*' :: body ++ ['*', '/']) :: all, by simp [hall],
        hscans.piece (.block body _ unclosed)⟩
  | slash cs lone _ ih =>
      obtain ⟨all, hall, hscans⟩ := ih hc h
      refine ⟨['/'] :: all, by simp [hall], hscans.piece (.slash _ ?_)⟩
      rw [hall, List.append_assoc]
      exact lone.append hc.stops_mark
  | group pair inner cs paired _ _ ihInner ihTail =>
      obtain ⟨all, hall, hscans⟩ := ihTail hc h
      have hclose : Scans (pair.1 :: top :: stack) ([pair.2] :: all) rest :=
        .next (step_eq_some_iff.2 (.inr (.inl ⟨pair, paired, rfl, rfl⟩))) hscans
      obtain ⟨inside, hinside, hscans⟩ := ihInner ⟨pair, paired, _, rfl⟩ hclose
      refine ⟨[pair.1] :: inside, by simp [hinside, hall],
        .next (step_eq_some_iff.2 (.inl ⟨pair.1, (opens_bracket pair paired).1, rfl, rfl⟩)) hscans⟩

/-- A piece before nested text that ends at a closing bracket joins it. -/
theorem Piece.nested {inner : List Char} (hp : Piece cs (inner ++ rest)) (hr : Closing rest)
    (hi : Nested inner) : Nested (cs ++ inner) := by
  generalize hmore : inner ++ rest = more at hp
  cases hp with
  | literal _ _ whole => exact .literal cs inner whole hi
  | line body _ oneLine ends =>
      -- The line ends before the bracket.
      rw [← hmore] at ends
      cases inner with
      | nil =>
          have hclose : ∀ pair ∈ brackets, pair.2 ≠ '\n' := by decide
          obtain ⟨pair, hp, more, rfl⟩ := hr
          exact absurd (by simpa using ends) (hclose pair hp)
      | cons c inner =>
          obtain rfl : c = '\n' := by simpa using ends
          exact .line body inner oneLine (hi.tail (by decide))
  | block body _ unclosed => exact .block body inner unclosed hi
  | slash _ lone =>
      rw [← hmore] at lone
      exact .slash inner lone.of_append hi
  | text c _ plain => exact .text c inner plain hi

/-- Up to the bracket that closes the innermost one the scanner passes over nested text. -/
theorem nested_of_scans (h : Scans (top :: stack) pieces rest) :
    ∃ pair ∈ brackets, ∃ inner later, pair.1 = top ∧ Nested inner ∧
      pieces.flatten = inner ++ pair.2 :: later.flatten ∧ later.length < pieces.length ∧
      (stack = [] ∧ later = [] ∨ stack ≠ [] ∧ Scans stack later rest) := by
  -- An opening bracket puts two runs in the place of one, both with fewer pieces.
  induction hn : pieces.length using Nat.strongRecOn generalizing top stack pieces with
  | ind n ih =>
      subst hn
      cases h with
      | @last _ cs _ hstep =>
          rcases step_eq_some_iff.1 hstep with ⟨_, _, _, hstack⟩ | ⟨pair, hp, rfl, hstack⟩ |
            ⟨_, hstack⟩
          · cases hstack
          · cases hstack
            exact ⟨pair, hp, [], [], rfl, .nil, rfl, Nat.one_pos, .inl ⟨rfl, rfl⟩⟩
          · cases hstack
      | @next _ stack' cs _ top' tail hstep htail =>
          rcases step_eq_some_iff.1 hstep with ⟨c, ho, rfl, hstack⟩ | ⟨pair, hp, rfl, hstack⟩ |
            ⟨hpiece, hstack⟩
          · cases hstack
            obtain ⟨pair, hp, inside, later, rfl, hinside, hflat, hlt, hlater⟩ :=
              ih tail.length (by simp) htail rfl
            have hlater : Scans (top :: stack) later rest := by simpa using hlater
            obtain ⟨pair', hp', inner, last, rfl, hinner, hflat', hlt', hlast⟩ :=
              ih later.length (by simp; omega) hlater rfl
            refine ⟨pair', hp', (pair.1 :: inside ++ [pair.2]) ++ inner, last, rfl,
              .group pair inside inner hp hinside hinner, by simp [hflat, hflat'], ?_, hlast⟩
            rw [List.length_cons]
            omega
          · cases hstack
            exact ⟨pair, hp, [], tail, rfl, .nil, rfl, by simp, .inr ⟨List.cons_ne_nil _ _, htail⟩⟩
          · cases hstack
            obtain ⟨pair, hp, inner, later, rfl, hinner, hflat, hlt, hlater⟩ :=
              ih tail.length (by simp) htail rfl
            rw [hflat, List.append_assoc] at hpiece
            refine ⟨pair, hp, cs ++ inner, later, rfl,
              hpiece.nested ⟨pair, hp, _, rfl⟩ hinner, by simp [hflat], ?_, hlater⟩
            rw [List.length_cons]
            omega

/-! ## Groups -/

/-- The rule of groups takes the pieces of the scanner. -/
theorem reads_group_iff {behind : List Char} :
    (∃ f, (Peg.rule .group).Reads behind cs rest f) ↔
      ∃ c tail, opens c = true ∧ cs = c :: tail.flatten ∧ Scans [c] tail rest := by
  constructor
  · intro ⟨f, h⟩
    obtain ⟨pair, hp, inner, g, rfl, hinner⟩ := parts_of_reads_group h
    have hnested := nested_of_reads hinner ⟨pair, hp, rest, rfl⟩
    have hlast : Scans [pair.1] [[pair.2]] rest :=
      .last (step_eq_some_iff.2 (.inr (.inl ⟨pair, hp, rfl, rfl⟩)))
    obtain ⟨all, hall, hscans⟩ := scans_of_nested hnested ⟨pair, hp, rest, rfl⟩ hlast
    exact ⟨pair.1, all, (opens_bracket pair hp).1, by simp [hall], hscans⟩
  · intro ⟨c, tail, _, hcs, hscans⟩
    obtain ⟨pair, hp, inner, later, rfl, hinner, hflat, _, hlater⟩ := nested_of_scans hscans
    have hlater : later = [] := by simpa using hlater
    obtain ⟨f, hf⟩ := reads_group hp hinner.reads
    refine ⟨f, ?_⟩
    rw [hcs, hflat, hlater]
    exact hf behind rest

/-- What the rule of groups takes at the head of a text, it takes by the scanner. -/
theorem reads_group_of_pieces? {behind ahead : List Char} (h : pieces? ahead = some pieces) :
    ∃ rest f, ahead = pieces.flatten ++ rest ∧
      (Peg.rule .group).Reads behind pieces.flatten rest (.node .group f .nil) := by
  obtain ⟨c, tail, rest, ho, rfl, hahead, hscans⟩ := pieces?_eq_some_iff.1 h
  have hflat : ([c] :: tail).flatten = c :: tail.flatten := rfl
  obtain ⟨f, hf⟩ := reads_group_iff.2 ⟨c, tail, ho, hflat, hscans⟩
  obtain ⟨g, rfl, _⟩ := body_of_reads hf
  exact ⟨rest, g, hahead, hf⟩

theorem refuses_group_of_pieces? {behind ahead : List Char} (h : pieces? ahead = none) :
    (Peg.rule .group).Refuses behind ahead := by
  cases (Peg.rule .group).reads_or_refuses behind ahead with
  | inl hreads =>
      obtain ⟨cs, rest, f, rfl, hf⟩ := hreads
      obtain ⟨c, tail, ho, rfl, hscans⟩ := reads_group_iff.1 ⟨f, hf⟩
      have hsome : pieces? (c :: tail.flatten ++ rest) = some ([c] :: tail) :=
        pieces?_eq_some_iff.2 ⟨c, tail, rest, ho, rfl, by simp, hscans⟩
      rw [h] at hsome
      cases hsome
  | inr hrefuses => exact hrefuses

/-- Wherever a group is looked for, it ends where the scanner ends. -/
theorem group_end (text : List Char) (start : Nat) :
    (Rule.group.matchSome text start).toOption.map (·.2.offset) =
      (pieces? (text.drop start)).map fun pieces => start + pieces.flatten.length := by
  cases h : pieces? (text.drop start) with
  | none =>
      obtain ⟨offset, hmatch⟩ : ∃ p, Rule.group.matchSome text start = .error (.failed p) :=
        Rule.matchSome_of_refuses (refuses_group_of_pieces? h)
      rw [hmatch]
      rfl
  | some pieces =>
      obtain ⟨rest, f, htext, hreads⟩ := reads_group_of_pieces? h
      rw [Rule.matchSome_of_reads htext hreads]
      rfl

/-! ## What literals and comments hold -/

inductive Refilled : List Char → List Char → Prop where
  | string (cs ds : List Char) (h : Quoted stringWidth '"' cs) (h' : Quoted stringWidth '"' ds) :
      Refilled cs ds
  | rawString (cs ds : List Char) (h : Quoted rawStringWidth rawQuote cs)
      (h' : Quoted rawStringWidth rawQuote ds) : Refilled cs ds
  | rune (cs ds : List Char) (h : Quoted runeWidth '\'' cs) (h' : Quoted runeWidth '\'' ds) :
      Refilled cs ds
  | line (body body' : List Char) (h : '\n' ∉ body) (h' : '\n' ∉ body') :
      Refilled ('/' :: '/' :: body) ('/' :: '/' :: body')
  | block (body body' : List Char) (h : ¬ ['*', '/'] <:+: body) (h' : ¬ ['*', '/'] <:+: body') :
      Refilled ('/' :: '*' :: body ++ ['*', '/']) ('/' :: '*' :: body' ++ ['*', '/'])

variable {ds rest' : List Char}

theorem Refilled.head (h : Refilled cs ds) : ∃ c cs' ds', cs = c :: cs' ∧ ds = c :: ds' ∧
    opens c = false ∧ closes c = false := by
  cases h with
  | string _ _ h h' =>
      obtain ⟨body, rfl, _⟩ := h
      obtain ⟨body', rfl, _⟩ := h'
      exact ⟨_, _, _, rfl, rfl, by decide, by decide⟩
  | rawString _ _ h h' =>
      obtain ⟨body, rfl, _⟩ := h
      obtain ⟨body', rfl, _⟩ := h'
      exact ⟨_, _, _, rfl, rfl, by decide, by decide⟩
  | rune _ _ h h' =>
      obtain ⟨body, rfl, _⟩ := h
      obtain ⟨body', rfl, _⟩ := h'
      exact ⟨_, _, _, rfl, rfl, by decide, by decide⟩
  | line | block => exact ⟨_, _, _, rfl, rfl, by decide, by decide⟩

/-- Only the next character matters to what is passed over. -/
theorem Piece.of_head (h : Piece cs rest) (hr : rest.head? = rest'.head?) : Piece cs rest' := by
  cases h with
  | literal _ _ whole => exact .literal cs rest' whole
  | line body _ oneLine ends =>
      refine .line body rest' oneLine ?_
      rwa [Stops, ← hr]
  | block body _ unclosed => exact .block body rest' unclosed
  | slash _ lone =>
      refine .slash rest' ?_
      rwa [Stops, ← hr]
  | text c _ plain => exact .text c rest' plain

theorem step_of_head (h : step stack (cs ++ rest) = some (cs.length, stack'))
    (hr : rest.head? = rest'.head?) : step stack (cs ++ rest') = some (cs.length, stack') := by
  rw [step_eq_some_iff] at h ⊢
  exact h.imp id (Or.imp id (And.imp_left fun hpiece => hpiece.of_head hr))

theorem Piece.ends_line {body : List Char} (h : Piece ('/' :: '/' :: body) rest) :
    Stops (· != '\n') rest := by
  generalize heq : '/' :: '/' :: body = cs at h
  cases h with
  | literal _ _ whole =>
      obtain ⟨q, body, hq, rfl⟩ := whole.quoted
      obtain ⟨rfl, _⟩ := List.cons.inj heq
      exact absurd hq (by decide)
  | line _ _ _ ends => exact ends
  | block body _ _ => exact absurd (List.cons.inj (List.cons.inj heq).2).1 (by decide)
  | slash => cases heq
  | text => cases heq

theorem Piece.refill (hp : Piece cs rest) (h : Refilled cs ds) : Piece ds rest := by
  cases h with
  | string _ _ _ h' => exact .literal ds rest (.inl h')
  | rawString _ _ _ h' => exact .literal ds rest (.inr (.inl h'))
  | rune _ _ _ h' => exact .literal ds rest (.inr (.inr h'))
  | line _ body' _ h' => exact .line body' rest h' hp.ends_line
  | block _ body' _ h' => exact .block body' rest h'

theorem step_refill (h : step stack (cs ++ rest) = some (cs.length, stack'))
    (hr : Refilled cs ds) : step stack (ds ++ rest) = some (ds.length, stack') := by
  obtain ⟨c, cs', ds', rfl, rfl, ho, hc⟩ := hr.head
  rw [step_eq_some_iff] at h ⊢
  rcases h with ⟨d, hd, heq, _⟩ | ⟨pair, hp, heq, _⟩ | ⟨hpiece, hstack⟩
  · cases heq
    rw [ho] at hd
    cases hd
  · cases heq
    rw [(opens_bracket pair hp).2.2] at hc
    cases hc
  · exact .inr (.inr ⟨hpiece.refill hr, hstack⟩)

theorem Scans.head_ne_nil (h : Scans stack (cs :: pieces) rest) : cs ≠ [] := by
  cases h with
  | last hstep => exact List.length_pos_iff.1 (step_bounds hstep).1
  | next hstep _ => exact List.length_pos_iff.1 (step_bounds hstep).1

/-- What a literal or comment holds changes no other piece. -/
theorem Scans.refill {before after : List (List Char)} (hr : Refilled cs ds)
    (h : Scans stack (before ++ cs :: after) rest) : Scans stack (before ++ ds :: after) rest := by
  induction before generalizing stack with
  | nil =>
      cases h with
      | last hstep => exact .last (step_refill hstep hr)
      | next hstep tail => exact .next (step_refill hstep hr) tail
  | cons piece before ih =>
      rw [List.cons_append] at h ⊢
      generalize hall : before ++ cs :: after = all at h
      cases h with
      | last => cases before <;> cases hall
      | next hstep tail =>
          rw [← hall] at hstep tail
          refine .next (step_of_head hstep ?_) (ih tail)
          cases before with
          | nil =>
              obtain ⟨c, cs', ds', rfl, rfl, _⟩ := hr.head
              rfl
          | cons next before =>
              obtain ⟨c, next, rfl⟩ := List.exists_cons_of_ne_nil tail.head_ne_nil
              rfl

/-- The pieces stay the same but for the one that is refilled. -/
theorem pieces?_refill {before after : List (List Char)} (hr : Refilled cs ds)
    (h : pieces? ((before ++ cs :: after).flatten ++ rest) = some (before ++ cs :: after)) :
    pieces? ((before ++ ds :: after).flatten ++ rest) = some (before ++ ds :: after) := by
  obtain ⟨c, tail, rest', ho, hpieces, hrest, hscans⟩ := pieces?_eq_some_iff.1 h
  obtain rfl : rest = rest' := List.append_cancel_left hrest
  cases before with
  | nil =>
      obtain ⟨d, cs', ds', rfl, rfl, hd, _⟩ := hr.head
      obtain ⟨rfl, _⟩ := List.cons.inj (List.cons.inj hpieces).1
      rw [ho] at hd
      cases hd
  | cons piece before =>
      obtain ⟨rfl, htail⟩ := List.cons.inj hpieces
      rw [← htail] at hscans
      exact pieces?_eq_some_iff.2 ⟨c, _, rest, ho, rfl, rfl, hscans.refill hr⟩

end Scanner

/-! ## The skipped region -/

/-- A group is matched where the scanner comes to an end, and up to there. What its literals and
comments hold is of no account: with others of the same kind in their place, the region has the
same pieces around them. -/
theorem group_scanned (text : List Char) (start : Nat) :
    (Rule.group.matchSome text start).toOption.map (·.2.offset) =
        (Scanner.pieces? (text.drop start)).map (fun pieces => start + pieces.flatten.length) ∧
      ∀ (before after : List (List Char)) (cs ds rest : List Char), Scanner.Refilled cs ds →
        text.drop start = (before ++ cs :: after).flatten ++ rest →
        Scanner.pieces? (text.drop start) = some (before ++ cs :: after) →
        (Rule.group.matchSome (text.take start ++ ((before ++ ds :: after).flatten ++ rest))
            start).toOption.map (·.2.offset) =
          some (start + (before ++ ds :: after).flatten.length) := by
  refine ⟨Scanner.group_end text start, ?_⟩
  intro before after cs ds rest hr htext hpieces
  have hstart : (text.take start).length = start := by
    rw [List.length_take, Nat.min_eq_left]
    by_contra hlt
    rw [List.drop_eq_nil_of_le (by omega)] at hpieces
    cases hpieces
  rw [htext] at hpieces
  have hdrop : (text.take start ++ ((before ++ ds :: after).flatten ++ rest)).drop start =
      (before ++ ds :: after).flatten ++ rest := List.drop_left' hstart
  rw [Scanner.group_end, hdrop, Scanner.pieces?_refill hr hpieces, Option.map_some]

/-- A closing brace in a string does not end the region, nor does the start of a declaration extend
it. -/
theorem string_in_braces_scanned :
    (Rule.group.matchSome "f\x7b\"\x7d\"\x7dx".toList 1).toOption.map (·.2.offset) = some 6 ∧
      (Rule.group.matchSome ("f\x7b\"\x7d\"\x7dx".toList.take 1 ++ (([['\x7b']] ++ "\"const (\"".toList ::
        [['\x7d']]).flatten ++ ['x'])) 1).toOption.map (·.2.offset) = some 12 := by
  have hr : Scanner.Refilled "\"\x7d\"".toList "\"const (\"".toList :=
    .string _ _ (@quoted_string [] _ (by decide)) (@quoted_string [] _ (by decide))
  have hscanned := group_scanned "f\x7b\"\x7d\"\x7dx".toList 1
  refine ⟨hscanned.1.trans (by decide), ?_⟩
  exact (hscanned.2 [['\x7b']] [['\x7d']] _ _ ['x'] hr (by decide) (by decide)).trans (by decide)

end EnumNames.Grammar
