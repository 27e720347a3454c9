/-!
Lines and columns. Lines end at newlines only and both are counted from one. A
position is found by counting newlines before an offset, or by binary search in
the table of line starts; the table serves many offsets of one text.
-/

namespace EnumNames.Text

structure Position where
  line : Nat
  column : Nat
  deriving DecidableEq, Repr

namespace Position

def lineStart (text : List Char) (offset : Nat) : Nat :=
  ((text.take offset).reverse.dropWhile (· != '\n')).length

/-- The position of an offset, by counting. After the end of the text the last line goes on. -/
def of (text : List Char) (offset : Nat) : Position :=
  { line := (text.take offset).count '\n' + 1
    column := offset - lineStart text offset + 1 }

end Position

/-- The offsets just after the newlines of a text that starts at an offset. -/
def afterNewlines (offset : Nat) : List Char → List Nat
  | [] => []
  | c :: cs =>
      if c == '\n' then (offset + 1) :: afterNewlines (offset + 1) cs
      else afterNewlines (offset + 1) cs

structure LineTable where
  starts : Array Nat

namespace LineTable

def ofText (text : List Char) : LineTable := ⟨(0 :: afterNewlines 0 text).toArray⟩

/-- Halves the range between `lo` and `hi` until it is empty: the number of lines that start at or
before the offset, given that all below `lo` do and none from `hi` on does. -/
def search (table : LineTable) (offset : Nat) : Nat → Nat → Nat → Nat
  | 0, lo, _ => lo
  | fuel + 1, lo, hi =>
      if lo < hi then
        let mid := (lo + hi) / 2
        if offset < table.starts.getD mid 0 then table.search offset fuel lo mid
        else table.search offset fuel (mid + 1) hi
      else lo

/-- The number of lines that start at or before an offset. -/
def linesUpTo (table : LineTable) (offset : Nat) : Nat :=
  table.search offset table.starts.size 0 table.starts.size

def position (table : LineTable) (offset : Nat) : Position :=
  let index := table.linesUpTo offset - 1
  { line := index + 1, column := offset - table.starts.getD index 0 + 1 }

end LineTable
end EnumNames.Text
