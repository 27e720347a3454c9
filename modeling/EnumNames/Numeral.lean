import EnumNames.Text.Blank
import EnumNames.Text.Digit
import EnumNames.Text.Quoted

/-!
Integers as text. A numeral may stand between blanks and have a sign, a base
mark and single underscores between its digits; digits of any script count. In
base ten there is a limit on the number of digits, for reading and for writing.
-/

namespace EnumNames.Numeral

open EnumNames.Text

/-- The most digits that a decimal numeral may have. -/
def digitLimit : Nat := 4300

inductive Fault where
  | malformed (base : Nat) (text : String)
  | tooLongToRead (digits : Nat)
  | tooLongToWrite
  deriving DecidableEq, Repr

def Fault.message : Fault → String
  | .malformed base text =>
      s!"invalid literal for int() with base {base}: {String.ofList ((shown text).toList.take 200)}"
  | .tooLongToRead digits =>
      s!"Exceeds the limit ({digitLimit} digits) for integer string conversion: value has {digits} digits; use sys.set_int_max_str_digits() to increase the limit"
  | .tooLongToWrite =>
      s!"Exceeds the limit ({digitLimit} digits) for integer string conversion; use sys.set_int_max_str_digits() to increase the limit"

/-! ## Digits -/

def digitValue? (c : Char) : Option Nat :=
  if '0' ≤ c && c ≤ '9' then some (c.toNat - 48)
  else if 'a' ≤ c && c ≤ 'z' then some (c.toNat - 87)
  else if 'A' ≤ c && c ≤ 'Z' then some (c.toNat - 55)
  else none

def digitBelow? (base : Nat) (c : Char) : Option Nat :=
  (digitValue? c).filter (· < base)

/-- The number that digits, highest first, stand for. -/
def ofDigits (base : Nat) (digits : List Nat) : Nat :=
  digits.foldl (fun n d => n * base + d) 0

/-- The leading digits with single underscores between them, and what follows. With `needed` a
digit has to come first. -/
def leadingDigits (base : Nat) (needed : Bool) : List Char → Option (List Nat × List Char)
  | [] => if needed then none else some ([], [])
  | c :: cs =>
      if c == '_' then if needed then none else leadingDigits base true cs
      else
        match digitBelow? base c with
        | some d => (leadingDigits base false cs).map fun r => (d :: r.1, r.2)
        | none => if needed then none else some ([], c :: cs)

/-! ## Reading -/

/-- The text in ASCII: spaces and digits of other scripts become ASCII ones, and any other wide
character ends the text with a mark that no numeral has. -/
def plain : List Char → List Char
  | [] => []
  | c :: cs =>
      if c.toNat < 127 then c :: plain cs
      else if isBlank c then ' ' :: plain cs
      else
        match decimalValue? c with
        | some d => Char.ofNat (48 + d) :: plain cs
        | none => ['?']

def isPadding (c : Char) : Bool := c == ' ' || (9 ≤ c.toNat && c.toNat ≤ 13)

def markedBase? : List Char → Option Nat
  | '0' :: c :: _ =>
      if c == 'x' || c == 'X' then some 16
      else if c == 'o' || c == 'O' then some 8
      else if c == 'b' || c == 'B' then some 2
      else none
  | _ => none

/-- The digits after the base mark, if the mark is that of the base. One underscore may follow
the mark. -/
def afterMark (base : Nat) (cs : List Char) : List Char :=
  if markedBase? cs == some base then
    match cs.drop 2 with
    | '_' :: rest => rest
    | rest => rest
  else cs

/-- Reads an unsigned numeral up to blanks at the end. Base 0 stands for the base that the numeral
marks; without a mark it is ten, and then only zero may start with a zero. -/
def readUnsigned (base : Nat) (cs : List Char) : Except (Option Nat) Nat :=
  let actual := if base == 0 then (markedBase? cs).getD 10 else base
  match leadingDigits actual true (afterMark actual cs) with
  | none => .error none
  | some (digits, rest) =>
      if actual == 10 && digitLimit < digits.length then .error (some digits.length)
      else
        let n := ofDigits actual digits
        if base == 0 && actual == 10 && digits.head? == some 0 && n != 0 then .error none
        else if rest.all isPadding then .ok n
        else .error none

/-- Reads a numeral in a base, or with base 0 in the base that it marks. -/
def read (base : Nat) (text : String) : Except Fault Int :=
  let cs := (plain text.toList).dropWhile isPadding
  let (negative, unsigned) :=
    match cs with
    | '-' :: rest => (true, rest)
    | '+' :: rest => (false, rest)
    | rest => (false, rest)
  match readUnsigned base unsigned with
  | .ok n => .ok (if negative then -(n : Int) else n)
  | .error none => .error (.malformed base text)
  | .error (some digits) => .error (.tooLongToRead digits)

/-! ## Writing -/

def decimal (n : Int) : String :=
  let digits := String.ofList (Nat.toDigits 10 n.natAbs)
  if n < 0 then "-" ++ digits else digits

/-- Writes an integer that keeps to the digit limit. -/
def write (n : Int) : Except Fault String :=
  if Nat.pow 10 digitLimit ≤ n.natAbs then .error .tooLongToWrite else .ok (decimal n)

end EnumNames.Numeral
