import EnumNames.Grammar.Token

/-!
The text of comments at the end of a line. Comment marks are dropped, and with
them one blank after a line mark and the blanks at the end; directives to tools
do not count as text.
-/

namespace EnumNames.Comment

open EnumNames.Text EnumNames.Grammar

/-- The comments in a text, after passing over `skip` characters. -/
def piecesFrom (skip : Nat) : List Char → List (List Char)
  | [] => []
  | c :: cs =>
      match skip with
      | skip + 1 => piecesFrom skip cs
      | 0 =>
          match shortCommentWidth (c :: cs) with
          | some n => (c :: cs).take n :: piecesFrom (n - 1) cs
          | none => piecesFrom 0 cs

def pieces (text : List Char) : List (List Char) := piecesFrom 0 text

def isDirectiveChar (c : Char) : Bool := ('a' ≤ c && c ≤ 'z') || ('0' ≤ c && c ≤ '9')

/-- A tool's name, a colon and the start of a command. -/
def isToolCommand (cs : List Char) : Bool :=
  match cs.dropWhile isDirectiveChar with
  | ':' :: c :: _ => (cs.head?.map isDirectiveChar).getD false && isDirectiveChar c
  | _ => false

/-- What follows a line comment's mark is addressed to a tool. -/
def isDirective (body : List Char) : Bool :=
  ['l', 'i', 'n', 'e', ' '].isPrefixOf body || ['e', 'x', 't', 'e', 'r', 'n', ' '].isPrefixOf body ||
    ['e', 'x', 'p', 'o', 'r', 't', ' '].isPrefixOf body || isToolCommand body

def bodyOf? : List Char → Option (List Char)
  | '/' :: '/' :: body =>
      if isDirective body then none
      else
        match body with
        | ' ' :: rest => some (trimEnd rest)
        | rest => some (trimEnd rest)
  | piece => some (trimEnd ((piece.drop 2).dropLast.dropLast))

def stripNewlines (cs : List Char) : List Char :=
  dropEndWhile (· == '\n') (cs.dropWhile (· == '\n'))

/-- The texts of the comments on lines of their own, or nothing if there are only directives. -/
def text (raw : List Char) : Option (List Char) :=
  match (pieces raw).filterMap bodyOf? with
  | [] => none
  | bodies => some (stripNewlines (['\n'].intercalate bodies))

end EnumNames.Comment
