import EnumNames.Code.Layout
import EnumNames.Code.StringLiteral
import EnumNames.Enumeration.Table
import EnumNames.Log
import EnumNames.Options

/-!
The generated file: a guard that stops compiling when a constant changes its
value, the `String` method, and on request a map from display texts to values
and a slice of the constants ordered by display text.
-/

namespace EnumNames

namespace Artifact

/-! ## Choices -/

def receiverCandidates : List String := ["i", "_i"]

/-- The first candidate that is not a constant, so that the receiver hides none. -/
def receiver (table : Table) : Except Cause String :=
  match receiverCandidates.find? (!table.contains ·) with
  | some name => .ok name
  | none => .error (.receiverCollision receiverCandidates)

/-- The first record of each value that has not been seen. -/
def firstPerValue (seen : List Int) : List Record → List Record
  | [] => []
  | r :: rs =>
      if seen.contains r.value then firstPerValue seen rs
      else r :: firstPerValue (r.value :: seen) rs

/-- The records that have a case of their own. -/
def cases (records : List Record) : List Record := firstPerValue [] records

def ordered (records : List Record) : List Record :=
  cases ((cases records).mergeSort fun a b => !decide (b.display < a.display))

/-! ## Sections -/

def header : String := "// Code generated by \"stringer\"; DO NOT EDIT."

def guardComment : String :=
  "An \"invalid array index\" compiler error signifies that the constant values have changed.\nRe-run the stringer command to generate them again."

/-- The line that pins a constant: an index that is legal for its value only. -/
def guardLine (r : Record) : Except Numeral.Fault String := do
  let value ← Numeral.write r.value
  let minus := if r.value < 0 then " - " else "-"
  pure s!"_ = x[{r.name}{minus}{value}]"

def guardSection (lines : List String) : Layout :=
  .comment guardComment (.line "var x [1]struct\x7b\x7d" (.lines lines .done))

def caseClause (label result : String) (next : Layout) : Layout :=
  .line label (.nested (.line ("return " ++ result) .done) next)

def defaultResult (type receiver : String) : String :=
  s!"\"{type}(\" + strconv.FormatInt(int64({receiver}), 10) + \")\""

def stringSection (type receiver : String) (records : List Record) : Layout :=
  .line s!"switch {receiver} \x7b"
    ((cases records).foldr
      (fun r => caseClause s!"case {r.name}:" (StringLiteral.quote r.display))
      (caseClause "default:" (defaultResult type receiver) (.line "\x7d" .done)))

def keyWidth (records : List Record) : Nat :=
  (records.map fun r => (StringLiteral.quote r.display).length).foldl max 0

/-- An entry of the map, with its value in the column of all values. -/
def mapLine (width : Nat) (r : Record) : Except Numeral.Fault String := do
  let value ← Numeral.write r.value
  let key := StringLiteral.quote r.display
  pure (key ++ ":" ++ String.ofList (List.replicate (1 + width - key.length) ' ') ++ value ++ ",")

def mapSection (o : Options) (lines : List String) (next : Layout) : Layout :=
  if o.mapName.isEmpty then next
  else
    .blank 1
      (.block s!"var {o.mapName} = map[string]{o.type}\x7b" (.lines lines .done) "\x7d" next)

def sliceSection (o : Options) (records : List Record) (next : Layout) : Layout :=
  if o.sliceName.isEmpty then next
  else
    .blank 1
      (.block s!"var {o.sliceName} = []{o.type}\x7b"
        (.lines ((ordered records).map (·.name ++ ",")) .done) "\x7d" next)

/-! ## The file -/

def layout (o : Options) (package receiver : String) (records : List Record)
    (guardLines mapLines : List String) : Layout :=
  .line header <| .blank 1 <|
  .line s!"package {package}" <| .blank 1 <|
  .line "import \"strconv\"" <| .blank 1 <|
  .block "func _() \x7b" (guardSection guardLines) "\x7d" <| .blank 1 <|
  .block s!"func ({receiver} {o.type}) String() string \x7b" (stringSection o.type receiver records)
    "\x7d" <|
  mapSection o mapLines <| sliceSection o records .done

def code (o : Options) (package : String) (table : Table) : Except Failure String := do
  let records := table.records
  let receiver ← (receiver table).mapError fun cause => .diagnostic { cause }
  let guardLines ← (records.mapM guardLine).mapError .numeral
  let mapLines ← (records.mapM (mapLine (keyWidth records))).mapError .numeral
  pure ((layout o package receiver records guardLines mapLines).write {}).code

end Artifact

def generate (o : Options) (package : String) (table : Table) : Logged String := do
  let code ← Logged.ofResult (Artifact.code o package table)
  Logged.note (.codeGenerated (code.toList.count '\n') o.type)
  pure code

end EnumNames
