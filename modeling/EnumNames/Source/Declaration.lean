/-!
Declarations of a Go source file, as far as enumerations need them. Each part
knows where it was written; `unplaced` forgets that, and two declarations are
alike when they are equal without their places.
-/

namespace EnumNames

/-- Where something was written. Lines and columns that come from sources count from one. -/
structure Loc where
  file : String := "<unknown>"
  line : Int := 0
  column : Int := 0
  deriving DecidableEq, Repr

def Loc.render (l : Loc) : String := s!"{l.file}:{l.line}:{l.column}"

structure Ident where
  name : String
  loc : Loc := {}
  deriving DecidableEq, Repr

/-- Values of constants. Sources give operands without operations in them; `verbatim` holds any
other expression as written, and `stray` a node that is no expression at all. -/
inductive Expr where
  | int (text : String) (loc : Loc)
  | rune (text : String) (value : Int) (loc : Loc)
  | ident (id : Ident)
  | binary (op : String) (left right : Expr) (loc : Loc)
  | verbatim (text : String) (loc : Loc)
  | stray (kind text : String) (loc : Loc)
  deriving DecidableEq, Repr

/-- A type by its name, or any other type as written. -/
inductive TypeRef where
  | ident (id : Ident)
  | verbatim (text : String) (loc : Loc)
  deriving DecidableEq, Repr

structure TypeSpec where
  name : String
  type : TypeRef
  isAlias : Bool := false
  loc : Loc := {}
  deriving DecidableEq, Repr

/-- One specification of a constant declaration. The comment is the text of the comments at the
end of its line. -/
structure ConstSpec where
  names : List Ident
  type : Option TypeRef := none
  values : List Expr := []
  comment : Option String := none
  loc : Loc := {}
  deriving DecidableEq, Repr

inductive Decl where
  | types (specs : List TypeSpec) (grouped : Bool) (loc : Loc)
  | consts (specs : List ConstSpec) (grouped : Bool) (loc : Loc)
  | other (keyword text : String) (loc : Loc)
  deriving DecidableEq, Repr

structure SourceFile where
  package : String
  decls : List Decl := []
  path : String := "<string>"
  deriving DecidableEq, Repr

/-! ## Text -/

namespace Expr

def render : Expr → String
  | .int text _ | .rune text _ _ | .verbatim text _ | .stray _ text _ => text
  | .ident id => id.name
  | .binary op left right _ => s!"{left.render} {op} {right.render}"

def loc : Expr → Loc
  | .int _ loc | .rune _ _ loc | .binary _ _ _ loc | .verbatim _ loc | .stray _ _ loc => loc
  | .ident id => id.loc

end Expr

namespace TypeRef

def render : TypeRef → String
  | .ident id => id.name
  | .verbatim text _ => text

def loc : TypeRef → Loc
  | .ident id => id.loc
  | .verbatim _ loc => loc

def isNamed (name : String) : TypeRef → Bool
  | .ident id => id.name == name
  | .verbatim .. => false

end TypeRef

def Decl.loc : Decl → Loc
  | .types _ _ loc | .consts _ _ loc | .other _ _ loc => loc

namespace SourceFile

def typeSpecs (f : SourceFile) : List TypeSpec :=
  f.decls.flatMap fun
    | .types specs .. => specs
    | _ => []

def constBlocks (f : SourceFile) : List (List ConstSpec) :=
  f.decls.filterMap fun
    | .consts specs .. => some specs
    | _ => none

end SourceFile

/-! ## Forgetting places -/

def Ident.unplaced (id : Ident) : Ident := { name := id.name }

def Expr.unplaced : Expr → Expr
  | .int text _ => .int text {}
  | .rune text value _ => .rune text value {}
  | .ident id => .ident id.unplaced
  | .binary op left right _ => .binary op left.unplaced right.unplaced {}
  | .verbatim text _ => .verbatim text {}
  | .stray kind text _ => .stray kind text {}

def TypeRef.unplaced : TypeRef → TypeRef
  | .ident id => .ident id.unplaced
  | .verbatim text _ => .verbatim text {}

def TypeSpec.unplaced (s : TypeSpec) : TypeSpec :=
  { s with type := s.type.unplaced, loc := {} }

def ConstSpec.unplaced (s : ConstSpec) : ConstSpec :=
  { s with
    names := s.names.map (·.unplaced)
    type := s.type.map (·.unplaced)
    values := s.values.map (·.unplaced)
    loc := {} }

namespace Decl

def unplaced : Decl → Decl
  | .types specs grouped _ => .types (specs.map (·.unplaced)) grouped {}
  | .consts specs grouped _ => .consts (specs.map (·.unplaced)) grouped {}
  | .other keyword text _ => .other keyword text {}

def alike (a b : Decl) : Bool := a.unplaced == b.unplaced

end Decl

namespace SourceFile

def unplaced (f : SourceFile) : SourceFile := { f with decls := f.decls.map (·.unplaced) }

def alike (f g : SourceFile) : Bool := f.unplaced == g.unplaced

end SourceFile
end EnumNames
