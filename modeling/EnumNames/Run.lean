import EnumNames.Code.Artifact
import EnumNames.Enumeration.Underlying
import EnumNames.Files.Publish
import EnumNames.Source.Load

/-!
A run from options to output: the options are checked, the files read, the type
and its constants examined and the code generated. Nothing is written unless all
of that succeeds.
-/

namespace EnumNames

/-- What is known before code is generated. -/
structure Analysis where
  files : List SourceFile
  package : String
  table : Table

def analyze (opener : Opener) (o : Options) : Logged Analysis := do
  Logged.ofResult (o.check.mapError fun p => .diagnostic p.diagnostic)
  let (files, package) ← SourceFile.loadAll opener o.files
  checkType o.type files
  let table ← resolve o files
  pure { files, package, table }

def stringify (opener : Opener) (o : Options) : Logged String := do
  let a ← analyze opener o
  generate o a.package a.table

/-- What a run comes to before anything is written. -/
inductive Plan where
  | stop (failure : Failure)
  | print (code : String)
  | publish (destination code : String)
  deriving DecidableEq, Repr

def plan (opener : Opener) (o : Options) : List Event × Plan :=
  let generated := stringify opener o
  (generated.events,
    match generated.result with
    | .error f => .stop f
    | .ok code => if o.toStandardOutput then .print code else .publish o.destination code)

/-- The diagnostic for an output that cannot be written. -/
def unwritable (destination : String) (f : OsFailure) : Diagnostic :=
  { cause := .outputWrite destination (some f.message) }

def exitCode (d : Diagnostic) : Nat :=
  match d.cause with
  | .sourceRead .. | .outputWrite .. => 2
  | _ => 1

/-- A finished run: its exit code or the fault that broke it off, what it printed, the events, the
file system after each step and the place of the file that it left. -/
structure Execution where
  exit : Except Failure Nat
  output : String := ""
  events : List Event := []
  trace : List FileTree := []
  written : Option Place := none

namespace Execution

/-- Diagnostics end a run with an exit code; any other failure breaks it off. -/
def stopped (events : List Event) (trace : List FileTree) : Failure → Execution
  | .diagnostic d => { exit := .ok (exitCode d), events := events ++ [.failed d], trace }
  | f => { exit := .error f, events, trace }

def final (x : Execution) (initial : FileTree) : FileTree := x.trace.getLast?.getD initial

end Execution

def conclude (c : Publish.Conditions) (umask : Nat) (t : FileTree) (events : List Event) :
    Plan → Execution
  | .stop f => .stopped events [] f
  | .print code =>
      match c.surrogates with
      | some surrogates => { exit := .error (.unencodable surrogates), events }
      | none => { exit := .ok 0, output := code, events }
  | .publish destination code =>
      let published := Publish.run c umask t destination code
      match published.result with
      | .error (.system f) =>
          .stopped events published.states (.diagnostic (unwritable destination f))
      | .error (.nullInPath leftover) =>
          { exit := .error .nullInPath, events, trace := published.states, written := leftover }
      | .error (.unencodable surrogates leftover) =>
          { exit := .error (.unencodable surrogates)
            events
            trace := published.states
            written := some leftover }
      | .ok place =>
          { exit := .ok 0
            events := events ++ [.written destination]
            trace := published.states
            written := some place }

/-- Runs the program on files that are had in some way, and writes to a file system. -/
def executeWith (opener : Opener) (c : Publish.Conditions) (umask : Nat) (t : FileTree)
    (o : Options) : Execution :=
  let (events, plan) := plan opener o
  conclude c umask t events plan

def execute (c : Publish.Conditions) (umask : Nat) (t : FileTree) (o : Options) : Execution :=
  executeWith t.open? c umask t o

end EnumNames
