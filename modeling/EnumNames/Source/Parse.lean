import EnumNames.Failure
import EnumNames.Grammar.Match
import EnumNames.Source.Comment
import EnumNames.Source.Declaration
import EnumNames.Text.Position

/-!
Reading a source file: its text is matched as a whole, and the syntax tree is
read off as declarations. A text that does not match is reported at the furthest
failure, with what stands there on the line.
-/

namespace EnumNames

open EnumNames.Grammar EnumNames.Text

/-- What is needed to place the nodes of a syntax tree. -/
structure Reader where
  file : String
  lines : LineTable

namespace Reader

def ofText (file : String) (text : List Char) : Reader := ⟨file, .ofText text⟩

def locAt (r : Reader) (offset : Nat) : Loc :=
  let p := r.lines.position offset
  { file := r.file, line := p.line, column := p.column }

def loc (r : Reader) (b : Branch) : Loc := r.locAt b.start

def ident (r : Reader) (b : Branch) : Ident := ⟨b.text, r.loc b⟩

def trimmed (b : Branch) : String := String.ofList (trim b.inside.text)

/-! ## Values -/

def operand (r : Reader) (b : Branch) : Except Rune.Fault Expr :=
  match b.first? .intLit, b.first? .charLit with
  | some lit, _ => .ok (.int lit.text (r.loc lit))
  | none, some lit => (Rune.value lit.inside.text).map fun v => .rune lit.text v (r.loc lit)
  | none, none => .ok (.ident (r.ident b))

def verbatim (r : Reader) (b : Branch) : Expr := .verbatim (trimmed b) (r.loc b)

def binary (r : Reader) (b : Branch) : Except Rune.Fault Expr :=
  match b.every .operand, b.first? .addOp with
  | [left, right], some op => do
      let x ← r.operand left
      let y ← r.operand right
      pure (.binary op.text x y (r.loc b))
  | _, _ => .ok (r.verbatim b)

def value (r : Reader) (b : Branch) : Except Rune.Fault Expr :=
  match b.reach? [.simpleExpr, .simpleShape, .binaryExpr],
      b.reach? [.simpleExpr, .simpleShape, .operand] with
  | some e, _ => r.binary e
  | none, some e => r.operand e
  | none, none => .ok (r.verbatim b)

/-! ## Types -/

/-- The type that a node stands for, given the way to the identifier that it may be. -/
def typeRef (r : Reader) (b : Branch) (toIdent : List Rule) : TypeRef :=
  match b.reach? toIdent with
  | some id => .ident (r.ident id)
  | none => .verbatim (trimmed b) (r.loc b)

def typeSpec (r : Reader) (b : Branch) : TypeSpec :=
  { name := ((b.first? .identifier).getD b).text
    type := r.typeRef ((b.first? .typeExpr).getD b) [.namedType, .identifier]
    isAlias := (b.first? .aliasMark).isSome
    loc := r.loc b }

/-! ## Constants -/

def constSpec (r : Reader) (b : Branch) : Except Rune.Fault ConstSpec := do
  let values ← ((b.reach? [.constValues, .exprList]).map (·.every .expr)).getD [] |>.mapM r.value
  pure
    { names := (((b.first? .identifierList).map (·.every .identifier)).getD []).map r.ident
      type := (b.reach? [.constType, .typeName]).map (r.typeRef · [.identifier])
      values
      comment :=
        (b.first? .lineComment).bind fun c => (Comment.text c.inside.text).map String.ofList
      loc := r.loc b }

/-! ## Declarations -/

def specs (body : Option Branch) (bracketed item spec : Rule) : List Branch × Bool :=
  match body with
  | none => ([], false)
  | some body =>
      match body.first? bracketed with
      | some g => ((g.every item).filterMap (·.first? spec), true)
      | none => (body.every spec, false)

def decl (r : Reader) (b : Branch) : Except Rune.Fault Decl :=
  match b.first? .typeDecl, b.first? .constDecl with
  | some d, _ =>
      let (specs, grouped) := specs (d.first? .typeBody) .typeGroup .groupedType .typeSpec
      .ok (.types (specs.map r.typeSpec) grouped (r.loc d))
  | none, some d => do
      let (specs, grouped) := specs (d.first? .constBody) .constGroup .groupedConst .constSpec
      pure (.consts (← specs.mapM r.constSpec) grouped (r.loc d))
  | none, none =>
      let keyword := ((b.reach? [.otherDecl, .otherKw]).map (·.text)).getD ""
      .ok (.other keyword (trimmed b) (r.loc b))

def sourceFile (r : Reader) (b : Branch) : Except Rune.Fault SourceFile := do
  let decls ← ((b.every .topLevel).filterMap (·.first? .topDecl)).mapM r.decl
  let package := ((b.reach? [.packageClause, .identifier]).map (·.text)).getD ""
  pure { package, decls, path := r.file }

end Reader

namespace SourceFile

/-- The text from an offset to the end of its line, forty characters at most. -/
def excerpt (text : List Char) (offset : Nat) : String :=
  String.ofList (((text.drop offset).take 40).takeWhile (· != '\n'))

def unreadable (file : String) (text : List Char) (offset : Nat) : Diagnostic :=
  let found := excerpt text offset
  let p := Position.of text offset
  { cause := .sourceParse s!"cannot parse Go declarations near {shown found}" found
    span := some { file, line := p.line, column := p.column } }

def parse (file text : String) : Except Failure SourceFile :=
  let cs := text.toList
  match Rule.sourceFile.matchRest cs 0 with
  | .error e => .error (.diagnostic (unreadable file cs e.offset))
  | .ok tree => ((Reader.ofText file cs).sourceFile tree).mapError .rune

end SourceFile
end EnumNames
