import EnumNames.Enumeration.Table
import EnumNames.Log
import EnumNames.Options
import EnumNames.Source.Declaration
import EnumNames.Source.IntLiteral

/-!
Finding the constants of a type and their values. A specification belongs to
the type when the last explicit type at or before it in its block is the type's
name. Within a block a fresh counter gives the values of `iota` and of bare
specifications; references go to constants found before.
-/

namespace EnumNames

open EnumNames.Text

def iotaName : String := "iota"

/-- Constants of this name are evaluated and then dropped. -/
def discardName : String := "_"

def Span.ofLoc (l : Loc) : Span := { file := l.file, line := l.line, column := l.column }

def ConstSpec.span (s : ConstSpec) : Span := .ofLoc s.loc

inductive Obstacle where
  | severalValues (values : List Expr)
  | verbatim (text : String)
  | stray (kind : String)
  | leftOperand (whole left : Expr)
  | rightOperand (whole : Expr)
  | operator (op : String) (whole : Expr)
  | literal (text : String)

def Obstacle.text : Obstacle → String
  | .severalValues values => "expected one value, found " ++ ", ".intercalate (values.map (·.render))
  | .verbatim text => text
  | .stray kind => s!"unexpected expression node {kind}"
  | .leftOperand whole left =>
      s!"expected 'iota' in binary expression {whole.render}; found {left.render}"
  | .rightOperand whole => s!"couldn't parse second argument of binary expression {whole.render}"
  | .operator op whole => s!"unsupported operator {shown op} in {whole.render}"
  | .literal text => s!"malformed integer literal {text}"

namespace Resolve

/-! ## Values -/

def obstructed {α : Type} (name : String) (o : Obstacle) : Except Cause α :=
  .error (.unsupportedExpression name o.text)

def literalValue (name text : String) : Except Cause Int :=
  match IntLiteral.value text with
  | .ok n => .ok n
  | .error _ => obstructed name (.literal text)

def referenceValue (table : Table) (name reference : String) : Except Cause Int :=
  match table.value? reference with
  | some n => .ok n
  | none => .error (.unresolvedReference name reference)

def isIota : Expr → Bool
  | .ident id => id.name == iotaName
  | _ => false

/-- The shift that a sum or difference with `iota` on its left makes. -/
def shift (table : Table) (name op : String) (whole left right : Expr) : Except Cause Int :=
  if isIota left then do
    let delta ←
      match right with
      | .int text _ => literalValue name text
      | .ident id => referenceValue table name id.name
      | _ => obstructed name (.rightOperand whole)
    if op == "-" then pure (-delta)
    else if op == "+" then pure delta
    else obstructed name (.operator op whole)
  else obstructed name (.leftOperand whole left)

def exprValue (table : Table) (counter : Counter) (name : String) :
    Expr → Except Cause (Int × Counter)
  | .int text _ => (literalValue name text).map (·, counter.deactivate)
  | .rune _ value _ => .ok (value, counter.deactivate)
  | .ident id =>
      if id.name == iotaName then .ok counter.activate
      else (referenceValue table name id.name).map (·, counter.deactivate)
  | .binary op left right loc =>
      (shift table name op (.binary op left right loc) left right).map counter.offset
  | .verbatim text _ => obstructed name (.verbatim text)
  | .stray kind _ _ => obstructed name (.stray kind)

/-- The value of a specification with these values, and the counter after it. Without a value it
goes on counting, or is zero when nothing is being counted. -/
def specValue (table : Table) (counter : Counter) (name : String) :
    List Expr → Except Cause (Int × Counter)
  | [] => .ok (if counter.active then counter.take else (0, counter))
  | [e] => exprValue table counter name e
  | es => obstructed name (.severalValues es)

/-! ## Display texts -/

def withoutPrefix (start text : List Char) : List Char :=
  if start.isPrefixOf text then text.drop start.length else text

/-- The name that a constant is displayed by: its own or its comment, without the prefix to trim. -/
def displayText (o : Options) (name : String) (comment : Option String) : String :=
  let text :=
    match o.lineComment, comment with
    | true, some c => trim c.toList
    | _, _ => name.toList
  String.ofList (withoutPrefix o.trimPrefix.toList text)

/-! ## Blocks -/

/-- What is known in the middle of a block. -/
structure State where
  table : Table
  counter : Counter := {}
  belongs : Bool := false
  deriving DecidableEq, Repr

/-- A specification belongs as its explicit type says, and without one as the one before it. -/
def belongs (type : String) (before : Bool) (spec : ConstSpec) : Bool :=
  match spec.type with
  | some t => t.isNamed type
  | none => before

def define (o : Options) (s : State) (spec : ConstSpec) (name : String) : Logged State :=
  match specValue s.table s.counter name spec.values with
  | .error cause => Logged.report { cause, span := some spec.span }
  | .ok (value, counter) => do
      Logged.note (.constantResolved spec.span name value counter)
      if name == discardName then pure { s with counter, belongs := true }
      else
        let display := displayText o name spec.comment
        if display.isEmpty then Logged.note (.emptyDisplay spec.span name)
        pure { table := s.table.record name value display, counter, belongs := true }

def step (o : Options) (s : State) (spec : ConstSpec) : Logged State :=
  if belongs o.type s.belongs spec then
    match spec.names with
    | [id] => define o s spec id.name
    | names =>
        Logged.report
          { cause := .multiName o.type (names.map (·.name)), span := some spec.span }
  else pure { s with belongs := false }

def block (o : Options) (table : Table) (specs : List ConstSpec) : Logged Table := do
  let s ← specs.foldlM (step o) { table }
  pure s.table

end Resolve

def resolve (o : Options) (files : List SourceFile) : Logged Table := do
  let table ← (files.flatMap (·.constBlocks)).foldlM (Resolve.block o) {}
  if table.isEmpty then Logged.report { cause := .insufficientConstants o.type }
  else
    Logged.note (.constantsResolved table.size o.type)
    pure table

end EnumNames
