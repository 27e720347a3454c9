/-!
Interpreted string literals of Go. Backslash, double quote, newline and tab are
escaped; every other character stands for itself.
-/

namespace EnumNames.StringLiteral

def escape (c : Char) : List Char :=
  if c == '\\' then ['\\', '\\']
  else if c == '"' then ['\\', '"']
  else if c == '\n' then ['\\', 'n']
  else if c == '\t' then ['\\', 't']
  else [c]

def quoteChars (cs : List Char) : List Char := '"' :: (cs.flatMap escape ++ ['"'])

def quote (s : String) : String := String.ofList (quoteChars s.toList)

end EnumNames.StringLiteral
