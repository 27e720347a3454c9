import EnumNames.Text.Blank
import EnumNames.Text.Split

/-!
Writing code line by line. The emitter indents each line by its level and never
writes blanks on an empty line. Blocks are entered with a header and left with
the footer that was given then.
-/

namespace EnumNames

open EnumNames.Text

structure Emitter where
  unit : String := "\t"
  level : Nat := 0
  footers : List String := []
  code : String := ""
  deriving DecidableEq, Repr

namespace Emitter

def indentation (unit : String) : Nat → String
  | 0 => ""
  | level + 1 => unit ++ indentation unit level

def isBlankLine (line : String) : Bool := line.toList.all isBlank

def lineAt (unit : String) (level : Nat) (line : String) : String :=
  if isBlankLine line then "\n" else indentation unit level ++ line ++ "\n"

def emit (e : Emitter) (line : String) : Emitter :=
  { e with code := e.code ++ lineAt e.unit e.level line }

/-- Writes empty lines; a negative count is none. -/
def blank (e : Emitter) (count : Int) : Emitter :=
  { e with code := e.code ++ String.ofList (List.replicate count.toNat '\n') }

def commentLines (text : String) : List String :=
  (splitAt '\n' text.toList).map fun line => "// " ++ String.ofList line

def comment (e : Emitter) (text : String) : Emitter := (commentLines text).foldl emit e

def indent (e : Emitter) : Emitter := { e with level := e.level + 1 }

def dedent (e : Emitter) : Emitter := { e with level := e.level - 1 }

def enter (e : Emitter) (header footer : String) : Emitter :=
  { (e.emit header).indent with footers := footer :: e.footers }

/-- Leaves the innermost block that is open. -/
def leave (e : Emitter) : Emitter :=
  match e.footers with
  | [] => e
  | footer :: footers => { e.dedent.emit footer with footers }

end Emitter
end EnumNames
