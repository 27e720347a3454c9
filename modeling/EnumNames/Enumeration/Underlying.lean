import EnumNames.Enumeration.Resolve

/-!
The type behind an enumeration. Wherever the type is declared it has to be
declared as a built-in integer type. A type that is declared nowhere passes:
its declaration may be in a file that is not at hand.
-/

namespace EnumNames

def integerTypes : List String :=
  ["byte", "int", "int8", "int16", "int32", "int64", "rune", "uint", "uint8", "uint16", "uint32",
   "uint64"]

namespace TypeSpec

def span (s : TypeSpec) : Span := .ofLoc s.loc

/-- The built-in integer type that a declaration gives to the name, or what is wrong with it. -/
def underlying (s : TypeSpec) (type : String) : Except Cause String :=
  match s.type with
  | .ident id =>
      if integerTypes.contains id.name then .ok id.name
      else .error (.typeNotInteger type id.name)
  | .verbatim .. => .error (.typeNotInteger type "")

end TypeSpec

def checkTypeSpec (type : String) (s : TypeSpec) : Logged Unit :=
  if s.name == type then
    match s.underlying type with
    | .ok name => Logged.note (.typeChecked s.span type name)
    | .error cause => Logged.report { cause, span := some s.span }
  else pure ()

def checkType (type : String) (files : List SourceFile) : Logged Unit :=
  (files.flatMap (·.typeSpecs)).forM (checkTypeSpec type)

end EnumNames
