/-!
A place in a text: what stands before it, nearest first, and what stands after
it. Matching moves it forward; some tokens look at the characters behind it.
-/

namespace EnumNames.Grammar

structure Cursor where
  offset : Nat
  behind : List Char
  ahead : List Char
  deriving DecidableEq, Repr

namespace Cursor

def ofText (text : List Char) (offset : Nat) : Cursor :=
  { offset, behind := (text.take offset).reverse, ahead := text.drop offset }

/-- Moves over as many characters as `n`, or over all if there are fewer. -/
def advance (c : Cursor) (n : Nat) : Cursor :=
  let taken := c.ahead.take n
  { offset := c.offset + taken.length
    behind := taken.reverse ++ c.behind
    ahead := c.ahead.drop n }

def atEnd (c : Cursor) : Bool := c.ahead.isEmpty

@[simp] theorem advance_zero (c : Cursor) : c.advance 0 = c := by
  simp [advance]

end Cursor
end EnumNames.Grammar
