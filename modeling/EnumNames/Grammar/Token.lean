import EnumNames.Text.Blank
import EnumNames.Text.Digit
import EnumNames.Text.Word

/-!
Tokens of Go source as far as declarations need them. Each token is recognised
by the number of characters it takes at the head of a text, or by `none` when
it does not stand there. Only `gap` looks behind the head.
-/

namespace EnumNames.Grammar

open EnumNames.Text

/-! ## Widths of lexical forms -/

def passed (n : Nat) (width : Option Nat) : Option Nat := width.map (n + ·)

/-- The width of a run of characters, if it is not empty. -/
def runWidth (p : Char → Bool) (cs : List Char) : Option Nat :=
  match (cs.takeWhile p).length with
  | 0 => none
  | n + 1 => some (n + 1)

def isIndent (c : Char) : Bool := c == ' ' || c == '\t'

def indentWidth (cs : List Char) : Nat := (cs.takeWhile isIndent).length

def wordWidth : List Char → List Char → Option Nat
  | [], _ => some 0
  | _ :: _, [] => none
  | w :: ws, c :: cs => if w == c then passed 1 (wordWidth ws cs) else none

/-- No word character continues a word here. -/
def endsWord (cs : List Char) : Bool := !(cs.head?.map isWord).getD false

/-- The width of the first of some words that stands at the head as a whole word. -/
def keywordWidth (words : List (List Char)) (cs : List Char) : Option Nat :=
  words.findSome? fun w => (wordWidth w cs).filter fun n => endsWord (cs.drop n)

/-- An identifier starts with a word character that is no decimal digit. -/
def identifierWidth : List Char → Option Nat
  | [] => none
  | c :: cs => if isWord c && !isSourceDecimal c then some (1 + (cs.takeWhile isWord).length) else none

/-! ### Comments -/

/-- The width up to the end of a block comment, whose opening has been passed. Characters that `p`
rejects may not stand in it. -/
def closeWidth (p : Char → Bool) : List Char → Option Nat
  | '*' :: '/' :: _ => some 2
  | c :: cs => if p c then passed 1 (closeWidth p cs) else none
  | [] => none

def lineCommentWidth : List Char → Option Nat
  | '/' :: '/' :: cs => some (2 + (cs.takeWhile (· != '\n')).length)
  | _ => none

def blockCommentWidth (p : Char → Bool) : List Char → Option Nat
  | '/' :: '*' :: cs => passed 2 (closeWidth p cs)
  | _ => none

/-- A comment of either form; a block may run over several lines. -/
def commentWidth (cs : List Char) : Option Nat :=
  (lineCommentWidth cs).or (blockCommentWidth (fun _ => true) cs)

/-- A block comment within a line. -/
def inlineCommentWidth (cs : List Char) : Option Nat := blockCommentWidth (· != '\n') cs

/-- A comment of either form within a line. -/
def shortCommentWidth (cs : List Char) : Option Nat :=
  (lineCommentWidth cs).or (inlineCommentWidth cs)

/-- The width of white space and comments, after passing over `skip` characters. -/
def triviaFrom (skip : Nat) : List Char → Nat
  | [] => 0
  | c :: cs =>
      match skip with
      | skip + 1 => 1 + triviaFrom skip cs
      | 0 =>
          if isSpace c then 1 + triviaFrom 0 cs
          else
            match commentWidth (c :: cs) with
            | some n => 1 + triviaFrom (n - 1) cs
            | none => 0

def triviaWidth (cs : List Char) : Nat := triviaFrom 0 cs

/-! ### Literals -/

def isHexDigit (c : Char) : Bool :=
  ('0' ≤ c && c ≤ '9') || ('a' ≤ c && c ≤ 'f') || ('A' ≤ c && c ≤ 'F')

def isOctalDigit (c : Char) : Bool := '0' ≤ c && c ≤ '7'

def isBinaryDigit (c : Char) : Bool := c == '0' || c == '1'

def isPlainDigit (c : Char) : Bool := '0' ≤ c && c ≤ '9'

/-- Digits or underscores. -/
def spaced (digit : Char → Bool) (c : Char) : Bool := digit c || c == '_'

/-- What may follow a leading zero: a base letter and digits of that base. -/
def basedWidth : List Char → Option Nat
  | c :: cs =>
      if c == 'x' || c == 'X' then passed 1 (runWidth (spaced isHexDigit) cs)
      else if c == 'b' || c == 'B' then passed 1 (runWidth (spaced isBinaryDigit) cs)
      else if c == 'o' || c == 'O' then passed 1 (runWidth (spaced isOctalDigit) cs)
      else none
  | [] => none

def integerWidth : List Char → Option Nat
  | [] => none
  | c :: cs =>
      if isPlainDigit c then
        (if c == '0' then passed 1 (basedWidth cs) else none).or
          (some (1 + (cs.takeWhile (spaced isPlainDigit)).length))
      else none

def exactWidth (p : Char → Bool) (n : Nat) (cs : List Char) : Option Nat :=
  if (cs.take n).length == n && (cs.take n).all p then some n else none

def isSimpleEscape (c : Char) : Bool :=
  ['a', 'b', 'f', 'n', 'r', 't', 'v', '\\', '\''].contains c

def runeBodyWidth : List Char → Option Nat
  | '\\' :: c :: cs =>
      if c == 'x' then passed 2 (exactWidth isHexDigit 2 cs)
      else if c == 'u' then passed 2 (exactWidth isHexDigit 4 cs)
      else if c == 'U' then passed 2 (exactWidth isHexDigit 8 cs)
      else if isOctalDigit c then passed 1 (exactWidth isOctalDigit 3 (c :: cs))
      else if isSimpleEscape c then some 2
      else none
  | c :: _ => if c == '\'' || c == '\\' || c == '\n' then none else some 1
  | [] => none

def runeWidth : List Char → Option Nat
  | '\'' :: cs =>
      (runeBodyWidth cs).bind fun n =>
        if (cs.drop n).head? == some '\'' then some (n + 2) else none
  | _ => none

def stringTailWidth : List Char → Option Nat
  | [] => none
  | '"' :: _ => some 1
  | '\\' :: c :: cs => if c == '\n' then none else passed 2 (stringTailWidth cs)
  | c :: cs => if c == '\\' || c == '\n' then none else passed 1 (stringTailWidth cs)

def stringWidth : List Char → Option Nat
  | '"' :: cs => passed 1 (stringTailWidth cs)
  | _ => none

def rawQuote : Char := Char.ofNat 0x60

def rawStringWidth : List Char → Option Nat
  | [] => none
  | c :: cs =>
      if c == rawQuote then
        let n := (cs.takeWhile (· != rawQuote)).length
        if (cs.drop n).isEmpty then none else some (n + 2)
      else none

/-! ### Text between tokens -/

/-- Brackets, quotes and the slash, which start tokens of their own. -/
def isStructural (c : Char) : Bool :=
  ['(', ')', '[', ']', '\x7b', '\x7d', '"', '\'', rawQuote, '/'].contains c

def isBare (c : Char) : Bool := !(isStructural c || isSpace c || c == ',' || c == ';')

def isGroupText (c : Char) : Bool := !isStructural c

/-- A slash that starts no comment. -/
def slashWidth : List Char → Option Nat
  | '/' :: cs => if cs.head? == some '/' || cs.head? == some '*' then none else some 1
  | _ => none

/-- After blanks the expression ends: by the end of the text or the line, by a comma, semicolon or
closing parenthesis, or by a comment. -/
def expressionEnds (cs : List Char) : Bool :=
  match cs.drop (indentWidth cs) with
  | [] | '\n' :: _ | '\r' :: '\n' :: _ | '/' :: '/' :: _ | '/' :: '*' :: _ => true
  | c :: _ => c == ',' || c == ';' || c == ')'

/-- Characters after which a line goes on: operators, comma and point. -/
def isOpenEnded (c : Char) : Bool :=
  ['-', '+', '*', '/', '%', '&', '|', '^', '<', '>', '=', ',', '.'].contains c

/-- The text before the head, nearest first, ends in an operator that does not close a comment. -/
def continues : List Char → Bool
  | '/' :: '*' :: _ => false
  | c :: _ => isOpenEnded c
  | [] => false

/-! ## Tokens -/

inductive Token where
  | literal (text : List Char)
  | keyword (words : List (List Char))
  | identifier
  | integer
  | rune
  | string
  | rawString
  | slash
  | comment
  | shortComment
  | inlineComment
  | bareText
  | groupText
  | separator
  | semicolon
  | indent
  | blanks
  | trivia
  | gap
  | expressionEnd
  deriving DecidableEq, Repr

def Token.width (behind ahead : List Char) : Token → Option Nat
  | .literal text => wordWidth text ahead
  | .keyword words => keywordWidth words ahead
  | .identifier => identifierWidth ahead
  | .integer => integerWidth ahead
  | .rune => runeWidth ahead
  | .string => stringWidth ahead
  | .rawString => rawStringWidth ahead
  | .slash => slashWidth ahead
  | .comment => commentWidth ahead
  | .shortComment => shortCommentWidth ahead
  | .inlineComment => inlineCommentWidth ahead
  | .bareText => runWidth isBare ahead
  | .groupText => runWidth isGroupText ahead
  | .separator => if ahead.head? == some ',' || ahead.head? == some ';' then some 1 else none
  | .semicolon => some (if ahead.head? == some ';' then 1 else 0)
  | .indent => some (indentWidth ahead)
  | .blanks => runWidth isIndent ahead
  | .trivia => some (triviaWidth ahead)
  | .gap => some (if continues behind then triviaWidth ahead else indentWidth ahead)
  | .expressionEnd => if expressionEnds ahead then some 0 else none

end EnumNames.Grammar
