/-!
Where a diagnostic points. A span may lack its file, its line or its column;
what is missing is empty or zero and is left out when the span is written.
-/

namespace EnumNames

structure Span where
  file : String := ""
  line : Int := 0
  column : Int := 0
  deriving DecidableEq, Repr

namespace Span

/-- A span of the parts that are known. -/
def ofParts (file : Option String) (line column : Option Int) : Span :=
  { file := file.getD "", line := line.getD 0, column := column.getD 0 }

/-- A column is written only after a line, and neither unless positive. -/
def render (s : Span) : String :=
  if s.file.isEmpty && s.line == 0 then "<unknown location>"
  else
    let file := if s.file.isEmpty then [] else [s.file]
    let line := if 0 < s.line then [toString s.line] else []
    let column := if 0 < s.line && 0 < s.column then [toString s.column] else []
    ":".intercalate (file ++ line ++ column)

end Span
end EnumNames
