import EnumNames.Grammar.Cursor
import EnumNames.Grammar.Forest

/-!
Matching. An outcome is a forest and the cursor after it, or a failure, with a
record of the failures on the way. Where a text cannot be matched it is reported
at the furthest of the first failure at all and the failures of rules.
-/

namespace EnumNames.Grammar

/-- The failures met so far: where the first one was, and the furthest one of a rule. -/
structure Failures where
  first : Option Nat := none
  ofRules : Option Nat := none
  deriving DecidableEq, Repr

namespace Failures

def furthest : Option Nat → Option Nat → Option Nat
  | none, b => b
  | a, none => a
  | some a, some b => some (max a b)

def append (a b : Failures) : Failures :=
  { first := a.first.or b.first, ofRules := furthest a.ofRules b.ofRules }

def ofToken (offset : Nat) : Failures := { first := some offset }

def ofRule (offset : Nat) : Failures := { first := some offset, ofRules := some offset }

/-- Where the text is reported not to match. -/
def position (f : Failures) : Nat := (furthest f.first f.ofRules).getD 0

end Failures

structure Outcome where
  failures : Failures
  result : Option (Forest × Cursor)
  deriving DecidableEq, Repr

namespace Outcome

def stay (c : Cursor) : Outcome := ⟨{}, some (.nil, c)⟩

/-- Puts earlier failures before an outcome. -/
def after (earlier : Failures) (o : Outcome) : Outcome :=
  { o with failures := earlier.append o.failures }

def andThen (o : Outcome) (next : Cursor → Outcome) : Outcome :=
  match o.result with
  | none => o
  | some (f, c) =>
      let o' := next c
      ⟨o.failures.append o'.failures, o'.result.map fun r => (f.append r.1, r.2)⟩

def orElse (o : Outcome) (other : Unit → Outcome) : Outcome :=
  match o.result with
  | none => after o.failures (other ())
  | some _ => o

/-- Puts a match under its rule, or notes that the rule failed where it was tried. -/
def under (r : Rule) (offset : Nat) (o : Outcome) : Outcome :=
  match o.result with
  | none => ⟨o.failures.append (.ofRule offset), none⟩
  | some (f, c) => ⟨o.failures, some (.node r f .nil, c)⟩

end Outcome

def Token.run (t : Token) (c : Cursor) : Outcome :=
  match t.width c.behind c.ahead with
  | none => ⟨.ofToken c.offset, none⟩
  | some n => ⟨{}, some (.leaf (c.ahead.take n) .nil, c.advance n)⟩

/-- Matches an item as often as it goes, at most `fuel` times. It is not tried at the end of the
text, and an item that takes nothing is the last one. -/
def repeated (item : Cursor → Outcome) : Nat → Cursor → Outcome
  | 0, c => .stay c
  | fuel + 1, c =>
      if c.atEnd then .stay c
      else
        let o := item c
        match o.result with
        | none => ⟨o.failures, some (.nil, c)⟩
        | some (_, c') =>
            if c.offset < c'.offset then o.andThen (repeated item fuel) else o

namespace Peg

def run (call : Rule → Cursor → Outcome) : Peg → Cursor → Outcome
  | .token t, c => t.run c
  | .rule r, c => call r c
  | .seq first second, c => (first.run call c).andThen (second.run call)
  | .choice first second, c => (first.run call c).orElse fun _ => second.run call c
  | .many item, c => repeated (item.run call) c.ahead.length c
  | .optional item, c =>
      if c.atEnd then .stay c else (item.run call c).orElse fun _ => .stay c

end Peg

namespace Rule

/-- Matches a rule with calls nested at most `fuel` deep. -/
def runWithin : Nat → Rule → Cursor → Outcome
  | 0, _, c => ⟨.ofRule c.offset, none⟩
  | fuel + 1, r, c => .under r c.offset (r.body.run (runWithin fuel) c)

/-- A depth of calls that no match exceeds: between two calls that take no character there are
fewer than sixty-four others. -/
def depthBound (c : Cursor) : Nat := 64 * (c.ahead.length + 1)

def run (r : Rule) (c : Cursor) : Outcome := r.runWithin (depthBound c) c

end Rule

/-- Why a text was not matched: a failure, or a match that ends before the text does. -/
inductive Mismatch where
  | failed (offset : Nat)
  | incomplete (offset : Nat)
  deriving DecidableEq, Repr

def Mismatch.offset : Mismatch → Nat
  | .failed offset | .incomplete offset => offset

namespace Rule

/-- Matches a rule somewhere in a text, up to any place after it. -/
def matchSome (r : Rule) (text : List Char) (start : Nat) : Except Mismatch (Branch × Cursor) :=
  let o := r.run (Cursor.ofText text start)
  match o.result with
  | none => .error (.failed o.failures.position)
  | some (f, c) =>
      match f.branches start with
      | b :: _ => .ok (b, c)
      | [] => .error (.failed start)

/-- Matches a rule from somewhere in a text up to its end. -/
def matchRest (r : Rule) (text : List Char) (start : Nat) : Except Mismatch Branch :=
  match r.matchSome text start with
  | .error e => .error e
  | .ok (b, c) => if c.atEnd then .ok b else .error (.incomplete c.offset)

end Rule
end EnumNames.Grammar
