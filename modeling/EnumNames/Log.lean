import EnumNames.Enumeration.Counter
import EnumNames.Failure

/-!
What a run reports on its way. A logged computation keeps the events up to its
end or to the failure that stops it; forgetting the events is compatible with
putting computations together.
-/

namespace EnumNames

inductive Level where
  | debug
  | info
  | warning
  | error
  deriving DecidableEq, Repr

def Level.rank : Level → Nat
  | .debug => 0
  | .info => 1
  | .warning => 2
  | .error => 3

def Level.tag : Level → String
  | .debug => "DEBUG"
  | .info => "INFO "
  | .warning => "WARNI"
  | .error => "ERROR"

inductive Event where
  | fileParsed (path package : String) (declarations : Nat)
  | filesParsed (count : Nat) (package : String)
  | typeChecked (span : Span) (type underlying : String)
  | constantResolved (span : Span) (name : String) (value : Int) (counter : Counter)
  | emptyDisplay (span : Span) (name : String)
  | constantsResolved (count : Nat) (type : String)
  | codeGenerated (lines : Nat) (type : String)
  | written (path : String)
  | failed (diagnostic : Diagnostic)
  deriving DecidableEq, Repr

namespace Event

def level : Event → Level
  | .fileParsed .. | .typeChecked .. | .constantResolved .. | .codeGenerated .. => .debug
  | .filesParsed .. | .constantsResolved .. | .written .. => .info
  | .emptyDisplay .. => .warning
  | .failed .. => .error

/-- The part of the program that speaks. -/
def speaker : Event → String
  | .fileParsed .. | .filesParsed .. => "tinystringer.parser"
  | .typeChecked .. => "tinystringer.validator"
  | .constantResolved .. | .emptyDisplay .. | .constantsResolved .. => "tinystringer.resolver"
  | .codeGenerated .. => "tinystringer.codegen"
  | .written .. | .failed .. => "tinystringer"

def message : Event → String
  | .fileParsed path package declarations =>
      s!"Parsed {path}: package {package}, {declarations} declaration(s)"
  | .filesParsed count package => s!"Parsed {count} file(s) in package {package}"
  | .typeChecked span type underlying => s!"{span.render}: type {type} is {underlying}"
  | .constantResolved span name value counter =>
      s!"{span.render}: {name} = {Numeral.decimal value} ({counter.describe})"
  | .emptyDisplay span name => s!"{span.render}: constant {name} has an empty display name"
  | .constantsResolved count type => s!"Resolved {count} constant(s) of type {type}"
  | .codeGenerated lines type => s!"Generated {lines} line(s) for type {type}"
  | .written path => s!"Wrote {path}"
  | .failed diagnostic => diagnostic.render

def render (e : Event) : String := s!"[{e.level.tag}] {e.speaker}: {e.message}"

end Event

structure Logged (α : Type) where
  events : List Event
  result : Except Failure α

namespace Logged

variable {α β : Type}

def andThen (x : Logged α) (next : α → Logged β) : Logged β :=
  match x.result with
  | .error f => ⟨x.events, .error f⟩
  | .ok a => ⟨x.events ++ (next a).events, (next a).result⟩

instance : Monad Logged where
  pure a := ⟨[], .ok a⟩
  bind := andThen

def note (e : Event) : Logged Unit := ⟨[e], .ok ()⟩

def ofResult (r : Except Failure α) : Logged α := ⟨[], r⟩

def report (d : Diagnostic) : Logged α := ⟨[], .error (.diagnostic d)⟩

@[simp] theorem result_pure (a : α) : (pure a : Logged α).result = .ok a := rfl

@[simp] theorem result_bind (x : Logged α) (next : α → Logged β) :
    (x >>= next).result = x.result >>= fun a => (next a).result := by
  show (andThen x next).result = _
  unfold andThen
  cases x.result <;> rfl

@[simp] theorem result_ofResult (r : Except Failure α) : (ofResult r).result = r := rfl

end Logged
end EnumNames
