import EnumNames.Text.Quoted

/-!
Codes of diagnostics. Each phase of a run owns a range of numbers. Two codes
are the same code when they are written alike, whatever their phases.
-/

namespace EnumNames

inductive Phase where
  | config
  | source
  | analysis
  | emit
  deriving DecidableEq, Repr

namespace Phase

def all : List Phase := [.config, .source, .analysis, .emit]

def name : Phase → String
  | .config => "config"
  | .source => "source"
  | .analysis => "analysis"
  | .emit => "emit"

def ofName? (s : String) : Option Phase := all.find? (·.name == s)

def unknown (s : String) : String := s!"{Text.shown s} is not a valid ErrorPhase"

end Phase

structure ErrorCode where
  series : String
  number : Int
  phase : Phase
  deriving DecidableEq, Repr

namespace ErrorCode

/-- An integer filled with zeros after its sign, up to four characters. -/
def padded (n : Int) : String :=
  let digits := Nat.toDigits 10 n.natAbs
  if n < 0 then String.ofList ('-' :: List.replicate (3 - digits.length) '0' ++ digits)
  else String.ofList (List.replicate (4 - digits.length) '0' ++ digits)

def render (c : ErrorCode) : String := c.series ++ "-" ++ padded c.number

def describe (c : ErrorCode) : String :=
  s!"ErrorCode({Text.shown c.render}, phase={c.phase.name})"

def sameAs (c d : ErrorCode) : Bool := c.render == d.render

def configuration : ErrorCode := ⟨"STR", 1, .config⟩
def sourceRead : ErrorCode := ⟨"STR", 1000, .source⟩
def sourceParse : ErrorCode := ⟨"STR", 1001, .source⟩
def typeNotInteger : ErrorCode := ⟨"STR", 2000, .analysis⟩
def insufficientConstants : ErrorCode := ⟨"STR", 2001, .analysis⟩
def multiName : ErrorCode := ⟨"STR", 2002, .analysis⟩
def unresolvedReference : ErrorCode := ⟨"STR", 2003, .analysis⟩
def unsupportedExpression : ErrorCode := ⟨"STR", 2004, .analysis⟩
def receiverCollision : ErrorCode := ⟨"STR", 3000, .emit⟩
def outputWrite : ErrorCode := ⟨"STR", 3001, .emit⟩

/-- The codes in use by their published names, in the order of the names. -/
def catalogue : List (String × ErrorCode) :=
  [("CONFIGURATION", configuration),
   ("INSUFFICIENT_CONSTANTS", insufficientConstants),
   ("MULTI_NAME_CONSTANT", multiName),
   ("OUTPUT_WRITE", outputWrite),
   ("RECEIVER_COLLISION", receiverCollision),
   ("SOURCE_PARSE", sourceParse),
   ("SOURCE_READ", sourceRead),
   ("TYPE_NOT_INTEGER_ALIAS", typeNotInteger),
   ("UNRESOLVED_REFERENCE", unresolvedReference),
   ("UNSUPPORTED_EXPRESSION", unsupportedExpression)]

end ErrorCode
end EnumNames
