import EnumNames.Proofs.Reading
import EnumNames.Proofs.RuneValue
import EnumNames.Proofs.Unplaced

/-!
Constant blocks as they are written. A block is given by its parts together
with all that stands between them, so one block of constants has a value here
for each of its layouts. `text` is what is written, `content` is what it
declares, and `tree` is how the grammar takes it apart. The blocks are all read
as their contents.
-/

namespace EnumNames.Written

open EnumNames.Grammar EnumNames.Text

/-! ## Parts of a block -/

structure Blanks where
  chars : List Char
  blank : chars.all isIndent = true

namespace Blanks

def none : Blanks := ⟨[], rfl⟩

def tree (b : Blanks) : Forest := .lexeme .indent b.chars

end Blanks

structure Name where
  chars : List Char
  whole : isIdentifier chars = true

namespace Name

def content (n : Name) : Ident := { name := String.ofList n.chars }

def inside (n : Name) : Forest := .leaf n.chars .nil

end Name

inductive Operand where
  | int (chars : List Char) (whole : integerWidth chars = some chars.length)
  | rune (chars : List Char) (whole : runeWidth chars = some chars.length)
  | name (n : Name)

namespace Operand

def chars : Operand → List Char
  | .int chars _ | .rune chars _ => chars
  | .name n => n.chars

def content : Operand → Expr
  | .int chars _ => .int (String.ofList chars) {}
  | .rune chars _ => .rune (String.ofList chars) (Rune.code chars) {}
  | .name n => .ident n.content

def inside : Operand → Forest
  | .int chars _ => .lexeme .intLit chars
  | .rune chars _ => .lexeme .charLit chars
  | .name n => .lexeme .identifier n.chars

def tree (o : Operand) : Forest := .node .operand o.inside .nil

end Operand

inductive Sign where
  | plus
  | minus

def Sign.char : Sign → Char
  | .plus => '+'
  | .minus => '-'

/-- An operand, or two of them with a sign between. The line may end after the sign. -/
inductive Value where
  | single (operand : Operand)
  | sum (left : Operand) (before : Blanks) (sign : Sign) (after : List Filler) (right : Operand)

namespace Value

def chars : Value → List Char
  | .single o => o.chars
  | .sum left before sign after right =>
      left.chars ++ (before.chars ++ ([sign.char] ++ (Filler.text after ++ right.chars)))

def content : Value → Expr
  | .single o => o.content
  | .sum left _ sign _ right =>
      .binary (String.ofList [sign.char]) left.content right.content {}

def shape : Value → Forest
  | .single o => o.tree
  | .sum left before sign after right =>
      .node .binaryExpr (left.tree.append (before.tree.append
        ((Forest.lexeme .addOp [sign.char]).append
          ((Forest.lexeme .trivia (Filler.text after)).append right.tree)))) .nil

def inside (v : Value) : Forest :=
  .node .simpleExpr ((Forest.node .simpleShape v.shape .nil).append (.lexeme .exprEnd [])) .nil

end Value

/-- Items with commas between them. A comma may stand after blanks, and the line may end after
it. -/
structure Listed (α : Type) where
  head : α
  tail : List (Blanks × List Filler × α)

namespace Listed

variable {α : Type}

def items (l : Listed α) : List α := l.head :: l.tail.map (·.2.2)

def tailText (chars : α → List Char) : List (Blanks × List Filler × α) → List Char
  | [] => []
  | (before, after, a) :: tail =>
      (before.chars ++ ([','] ++ (Filler.text after ++ chars a))) ++ tailText chars tail

def text (chars : α → List Char) (l : Listed α) : List Char :=
  chars l.head ++ tailText chars l.tail

def tailTree (r : Rule) (inside : α → Forest) : List (Blanks × List Filler × α) → Forest
  | [] => .nil
  | (before, after, a) :: tail =>
      (before.tree.append ((Forest.leaf [','] .nil).append
        ((Forest.lexeme .trivia (Filler.text after)).append (.node r (inside a) .nil)))).append
          (tailTree r inside tail)

def tree (r : Rule) (inside : α → Forest) (l : Listed α) : Forest :=
  (Forest.node r (inside l.head) .nil).append (tailTree r inside l.tail)

end Listed

inductive TypeName where
  | plain (name : Name)
  | qualified (scope name : Name)

namespace TypeName

def chars : TypeName → List Char
  | .plain name => name.chars
  | .qualified scope name => scope.chars ++ (['.'] ++ name.chars)

def content : TypeName → TypeRef
  | .plain name => .ident name.content
  | .qualified scope name => .verbatim (String.ofList (scope.chars ++ '.' :: name.chars)) {}

def inside : TypeName → Forest
  | .plain name => .lexeme .identifier name.chars
  | .qualified scope name =>
      .node .qualifiedIdent ((Forest.lexeme .identifier scope.chars).append
        ((Forest.leaf ['.'] .nil).append (.lexeme .identifier name.chars))) .nil

end TypeName

/-! ## Specifications -/

structure TypePart where
  gap : Blanks
  apart : gap.chars ≠ []
  name : TypeName

structure ValuePart where
  before : Blanks
  after : List Filler
  list : Listed Value

inductive Close where
  | line
  | semicolon
  | comment (body : List Char) (oneLine : '\n' ∉ body)

/-- A specification, the end of its line and what comes before the next one. -/
structure Spec where
  names : Listed Name
  type : Option TypePart
  values : Option ValuePart
  before : Blanks
  close : Close
  after : List Filler

namespace TypePart

def text (t : TypePart) : List Char := t.gap.chars ++ t.name.chars

end TypePart

namespace ValuePart

def text (v : ValuePart) : List Char :=
  v.before.chars ++ (['='] ++ (Filler.text v.after ++ v.list.text Value.chars))

end ValuePart

namespace Close

def text : Close → List Char
  | .line => []
  | .semicolon => [';']
  | .comment body _ => '/' :: '/' :: body

def content : Close → Option String
  | .line | .semicolon => none
  | .comment body _ => (Comment.text ('/' :: '/' :: body)).map String.ofList

end Close

namespace Spec

def text (s : Spec) : List Char :=
  s.names.text Name.chars ++ s.type.elim [] TypePart.text ++ s.values.elim [] ValuePart.text ++
    s.before.chars ++ s.close.text ++ '\n' :: Filler.text s.after

def content (s : Spec) : ConstSpec :=
  { names := s.names.items.map Name.content
    type := s.type.map (·.name.content)
    values := s.values.elim [] fun v => v.list.items.map Value.content
    comment := s.close.content }

end Spec

structure Block where
  beforePackage : Blanks
  package : Name
  beforeGroup : Blanks
  opening : List Filler
  specs : List Spec

namespace Block

def text (b : Block) : List Char :=
  "package".toList ++ b.beforePackage.chars ++ b.package.chars ++ '\n' :: "const".toList ++
    b.beforeGroup.chars ++ '(' :: Filler.text b.opening ++ b.specs.flatMap Spec.text ++ [')']

def content (b : Block) (path : String) : SourceFile :=
  { package := String.ofList b.package.chars
    decls := [.consts (b.specs.map Spec.content) true {}]
    path }

end Block

end EnumNames.Written
