import EnumNames.Numeral

/-!
Integer literals of Go. Underscores carry no meaning; a leading zero before
digits alone marks an octal literal, and a base letter marks the others.
-/

namespace EnumNames.IntLiteral

open EnumNames.Text

def digits (text : List Char) : List Char := text.filter (· != '_')

/-- A zero followed by further digits and nothing else. -/
def isOctal (ds : List Char) : Bool :=
  1 < ds.length && ds.head? == some '0' && ds.all isDigit

def value (text : String) : Except Numeral.Fault Int :=
  let ds := digits text.toList
  Numeral.read (if isOctal ds then 8 else 0) (String.ofList ds)

end EnumNames.IntLiteral
