import EnumNames.Numeral

/-!
Rune literals. A literal spells its character directly, by a letter, or by its
number in hexadecimal or octal digits.
-/

namespace EnumNames.Rune

inductive Fault where
  | length (n : Nat)
  | bareBackslash
  | unknownEscape (c : Char)
  | number (fault : Numeral.Fault)
  deriving DecidableEq, Repr

def Fault.message : Fault → String
  | .length n => s!"ord() expected a character, but string of length {n} found"
  | .bareBackslash => "string index out of range"
  | .unknownEscape c => Text.shown (String.singleton c)
  | .number fault => fault.message

def simpleEscapes : List (Char × Nat) :=
  [('a', 0x07), ('b', 0x08), ('f', 0x0c), ('n', 0x0a), ('r', 0x0d), ('t', 0x09), ('v', 0x0b),
   ('\\', 0x5c), ('\'', 0x27)]

def numberIn (base : Nat) (digits : List Char) : Except Fault Int :=
  (Numeral.read base (String.ofList digits)).mapError .number

/-- The code point that follows a backslash. -/
def escaped : List Char → Except Fault Int
  | [] => .error .bareBackslash
  | kind :: rest =>
      if ['x', 'u', 'U'].contains kind then numberIn 16 rest
      else if '0' ≤ kind && kind ≤ '7' then numberIn 8 (kind :: rest)
      else
        match simpleEscapes.lookup kind with
        | some n => .ok n
        | none => .error (.unknownEscape kind)

/-- The code point that a literal stands for. Its first and last characters are taken for the
quotes. -/
def value (literal : List Char) : Except Fault Int :=
  match (literal.drop 1).dropLast with
  | '\\' :: rest => escaped rest
  | [c] => .ok c.toNat
  | body => .error (.length body.length)

end EnumNames.Rune
