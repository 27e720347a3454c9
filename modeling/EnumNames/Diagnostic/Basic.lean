import EnumNames.Diagnostic.Code
import EnumNames.Diagnostic.Span

/-!
Diagnostics: what can be wrong with options, sources, constants or output. A
cause fixes the message, and the code and the hint unless others are given. A
diagnostic is written on one line that editors can jump from, with the hint on
a second one.
-/

namespace EnumNames

inductive Family where
  | general
  | configuration
  | source
  | analysis
  | emission
  deriving DecidableEq, Repr

inductive Cause where
  | plain (family : Family) (message : String)
  | sourceRead (path : String) (reason : Option String)
  | sourceParse (message excerpt : String)
  | typeNotInteger (type actual : String)
  | insufficientConstants (type : String)
  | multiName (type : String) (names : List String)
  | unresolvedReference (constant reference : String)
  | unsupportedExpression (constant detail : String)
  | receiverCollision (names : List String)
  | outputWrite (path : String) (reason : Option String)
  deriving DecidableEq, Repr

namespace Cause

def family : Cause → Family
  | .plain family _ => family
  | .sourceRead .. | .sourceParse .. => .source
  | .typeNotInteger .. | .insufficientConstants .. | .multiName .. | .unresolvedReference ..
  | .unsupportedExpression .. => .analysis
  | .receiverCollision .. | .outputWrite .. => .emission

/-- A reason is put after a colon. -/
def because : Option String → String
  | none => ""
  | some reason => ": " ++ reason

def message : Cause → String
  | .plain _ message => message
  | .sourceRead path reason => s!"cannot read {path}{because reason}"
  | .sourceParse message _ => message
  | .typeNotInteger type actual =>
      if actual.isEmpty then s!"expected identifier for definition of type {type}"
      else s!"expected an integer type for definition of type {type}; got {actual}"
  | .insufficientConstants type => s!"did not find enough constant values for type {type}"
  | .multiName type names =>
      s!"expected one name for constant of type {type}; found " ++ ", ".intercalate names
  | .unresolvedReference constant reference =>
      s!"could not find value of {reference} referenced by constant {constant}"
  | .unsupportedExpression constant detail =>
      s!"don't know how to process value of constant {constant}: {detail}"
  | .receiverCollision names =>
      "don't know how to choose a receiver variable because " ++ " and ".intercalate names ++
        " are constant names"
  | .outputWrite path reason => s!"cannot write {path}{because reason}"

def code : Cause → ErrorCode
  | .plain .general _ | .plain .configuration _ => .configuration
  | .plain .source _ | .sourceRead .. => .sourceRead
  | .sourceParse .. => .sourceParse
  | .typeNotInteger .. => .typeNotInteger
  | .insufficientConstants .. => .insufficientConstants
  | .multiName .. => .multiName
  | .unresolvedReference .. => .unresolvedReference
  | .plain .analysis _ | .unsupportedExpression .. => .unsupportedExpression
  | .receiverCollision .. => .receiverCollision
  | .plain .emission _ | .outputWrite .. => .outputWrite

def hint : Cause → String
  | .insufficientConstants type =>
      s!"check the type name and that the constants are declared as {type}"
  | .unresolvedReference constant reference =>
      s!"constants are resolved in declaration order; declare {reference} before {constant}, or list the file that declares it first"
  | _ => ""

/-- Files that cannot be read or written are their own span. -/
def span : Cause → Option Span
  | .sourceRead path _ | .outputWrite path _ => some { file := path }
  | _ => none

end Cause

structure Diagnostic where
  cause : Cause
  span : Option Span := cause.span
  code : ErrorCode := cause.code
  hint : String := cause.hint
  deriving DecidableEq, Repr

namespace Diagnostic

def message (d : Diagnostic) : String := d.cause.message

def phase (d : Diagnostic) : Phase := d.code.phase

def withHint (d : Diagnostic) (hint : String) : Diagnostic := { d with hint := hint }

def render (d : Diagnostic) : String :=
  let line := s!"error: {d.message} [{d.code.render}]"
  let placed :=
    match d.span with
    | some span => s!"{span.render}: {line}"
    | none => line
  if d.hint.isEmpty then placed else s!"{placed}\nhint: {d.hint}"

end Diagnostic
end EnumNames
