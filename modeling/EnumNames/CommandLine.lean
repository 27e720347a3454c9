import EnumNames.Run
import EnumNames.Text.Digit

/-!
The command line. Every switch has a spelling with one dash and one with two;
a spelling may be cut short where that is unambiguous. Values follow a switch or
are attached by an equals sign. The first run of other arguments names the
files, and what cannot be placed is refused at the end.
-/

namespace EnumNames

namespace CommandLine

inductive Switch where
  | help
  | type
  | output
  | trimPrefix
  | lineComment
  | mapName
  | sliceName
  | verbose
  | version
  deriving DecidableEq, Repr

namespace Switch

def all : List Switch :=
  [.help, .type, .output, .trimPrefix, .lineComment, .mapName, .sliceName, .verbose, .version]

def spellings : Switch → List String
  | .help => ["-h", "--help"]
  | .type => ["-type", "--type"]
  | .output => ["-output", "--output"]
  | .trimPrefix => ["-trimprefix", "--trimprefix"]
  | .lineComment => ["-linecomment", "--linecomment"]
  | .mapName => ["-stringtovaluemapname", "--stringtovaluemapname"]
  | .sliceName => ["-enumvaluesslicename", "--enumvaluesslicename"]
  | .verbose => ["-v", "--verbose"]
  | .version => ["--version"]

def takesValue : Switch → Bool
  | .type | .output | .trimPrefix | .mapName | .sliceName => true
  | .help | .lineComment | .verbose | .version => false

def title (s : Switch) : String := "/".intercalate s.spellings

end Switch

def spelled : List (String × Switch) :=
  Switch.all.flatMap fun s => s.spellings.map (·, s)

inductive Refusal where
  | ambiguous (arg : String) (candidates : List String)
  | missingValue (switch : Switch)
  | unwantedValue (switch : Switch) (value : String)
  | unrecognized (args : List String)
  deriving DecidableEq, Repr

def Refusal.message : Refusal → String
  | .ambiguous arg candidates =>
      s!"ambiguous option: {arg} could match " ++ ", ".intercalate candidates
  | .missingValue switch => s!"argument {switch.title}: expected one argument"
  | .unwantedValue switch value =>
      s!"argument {switch.title}: ignored explicit argument {Text.shown value}"
  | .unrecognized args => "unrecognized arguments: " ++ " ".intercalate args

/-! ## Telling arguments apart -/

structure Use where
  switch : Switch
  spelling : String
  value : Option String
  deriving DecidableEq, Repr

inductive Arg where
  | plain (text : String)
  | rest
  | use (u : Use)
  | unknown (text : String)
  deriving DecidableEq, Repr

/-- The text before the first equals sign and the text after it, if there is one. -/
def splitValue (arg : List Char) : List Char × Option (List Char) :=
  match arg.dropWhile (· != '=') with
  | [] => (arg, none)
  | _ :: value => (arg.takeWhile (· != '='), some value)

def startsWith (spelling : String) (start : List Char) : Bool := start.isPrefixOf spelling.toList

/-- The uses that an argument which is no full spelling can be cut down from. With two dashes a
value may be attached by an equals sign; with one dash it may follow a single letter. -/
def abbreviated (arg : String) : List Use :=
  match arg.toList with
  | '-' :: '-' :: _ =>
      let (start, value) := splitValue arg.toList
      spelled.filterMap fun (spelling, switch) =>
        if startsWith spelling start then some ⟨switch, spelling, value.map String.ofList⟩ else none
  | cs =>
      spelled.filterMap fun (spelling, switch) =>
        if spelling.toList == cs.take 2 then
          some ⟨switch, spelling, some (String.ofList (cs.drop 2))⟩
        else if startsWith spelling cs then some ⟨switch, spelling, none⟩
        else none

/-- Digits, with at most one point that has digits after it. -/
def isNumber (cs : List Char) : Bool :=
  match cs.dropWhile Text.isDecimal with
  | [] => !cs.isEmpty
  | '.' :: fraction => !fraction.isEmpty && fraction.all Text.isDecimal
  | _ => false

/-- A negative number, which a newline may follow. -/
def isNegativeNumber : List Char → Bool
  | '-' :: cs => isNumber (if cs.getLast? == some '\n' then cs.dropLast else cs)
  | _ => false

def classify (arg : String) : Except Refusal Arg :=
  match arg.toList with
  | '-' :: _ :: _ =>
      match spelled.lookup arg with
      | some switch => .ok (.use ⟨switch, arg, none⟩)
      | none =>
          let (start, value) := splitValue arg.toList
          match value, spelled.lookup (String.ofList start) with
          | some v, some switch =>
              .ok (.use ⟨switch, String.ofList start, some (String.ofList v)⟩)
          | _, _ =>
              match abbreviated arg with
              | [u] => .ok (.use u)
              | [] =>
                  if isNegativeNumber arg.toList || arg.toList.contains ' ' then .ok (.plain arg)
                  else .ok (.unknown arg)
              | us => .error (.ambiguous arg (us.map (·.spelling)))
  | _ => .ok (.plain arg)

/-- The arguments of a command line. After two dashes alone none is a switch. -/
def classifyAll : List String → Except Refusal (List Arg)
  | [] => .ok []
  | arg :: args =>
      if arg == "--" then .ok (.rest :: args.map .plain)
      else do
        let first ← classify arg
        let others ← classifyAll args
        pure (first :: others)

/-! ## Collecting settings -/

structure Settings where
  type : Option String := none
  output : Option String := none
  trimPrefix : Option String := none
  lineComment : Bool := false
  mapName : Option String := none
  sliceName : Option String := none
  verbosity : Nat := 0
  files : Option (List String) := none
  unplaced : List String := []
  deriving DecidableEq, Repr

namespace Settings

def set (s : Settings) (switch : Switch) (value : String) : Settings :=
  match switch with
  | .type => { s with type := some value }
  | .output => { s with output := some value }
  | .trimPrefix => { s with trimPrefix := some value }
  | .lineComment => { s with lineComment := true }
  | .mapName => { s with mapName := some value }
  | .sliceName => { s with sliceName := some value }
  | .verbose => { s with verbosity := s.verbosity + 1 }
  | .help | .version => s

def options (s : Settings) : Options :=
  .ofSettings s.type s.output s.trimPrefix (some s.lineComment) s.mapName s.sliceName
    (s.files.getD [])

end Settings

/-- Why no settings come of a command line: it asks for information, or it is refused. -/
inductive Stop where
  | help
  | version
  | refused (r : Refusal)
  deriving DecidableEq, Repr

/-- The switches in a bundle of one-letter switches, of which the first is known and the letters
of the others are given. -/
def unbundle (first : Switch) : List Char → Except Refusal (List Switch)
  | [] => .ok [first]
  | c :: cs =>
      match spelled.lookup (String.ofList ['-', c]) with
      | none => .error (.unwantedValue first (String.ofList (c :: cs)))
      | some next => do
          let others ← unbundle next cs
          pure (first :: others)

/-- The switches that a use without a value of its own sets. A value attached to a spelling with
one dash is taken for further switches of one letter. -/
def bundle (u : Use) : Except Refusal (List Switch) :=
  match u.value with
  | none => .ok [u.switch]
  | some value =>
      if u.spelling.toList.take 2 != ['-', '-'] && !value.isEmpty then unbundle u.switch value.toList
      else .error (.unwantedValue u.switch value)

def setAll (s : Settings) : List Switch → Except Stop Settings
  | [] => .ok s
  | .help :: _ => .error .help
  | .version :: _ => .error .version
  | switch :: switches => setAll (s.set switch "") switches

/-- What has been collected: the settings, the run of arguments that is being read, and the switch
that waits for its value. -/
structure Progress where
  settings : Settings := {}
  run : List String := []
  awaiting : Option Switch := none
  deriving DecidableEq, Repr

/-- Ends a run of arguments that are no switches: the first run names the files, and two dashes
alone are dropped from it once. -/
def Progress.endRun (p : Progress) : Settings :=
  if p.run.isEmpty then p.settings
  else
    match p.settings.files with
    | none => { p.settings with files := some (p.run.erase "--") }
    | some _ => { p.settings with unplaced := p.settings.unplaced ++ p.run }

/-- Takes in a use of a switch. An attached value of two dashes alone counts as empty. -/
def take (s : Settings) (u : Use) : Except Stop Progress :=
  if u.switch.takesValue then
    match u.value with
    | some value => .ok { settings := s.set u.switch (if value == "--" then "" else value) }
    | none => .ok { settings := s, awaiting := some u.switch }
  else
    match bundle u with
    | .error r => .error (.refused r)
    | .ok switches => (setAll s switches).map fun s => { settings := s }

def step (p : Progress) (arg : Arg) : Except Stop Progress :=
  match p.awaiting, arg with
  | some switch, .plain value => .ok { settings := p.settings.set switch value }
  | some switch, _ => .error (.refused (.missingValue switch))
  | none, .plain text => .ok { p with run := p.run ++ [text] }
  | none, .rest => .ok { p with run := p.run ++ ["--"] }
  | none, .unknown text =>
      let s := p.endRun
      .ok { settings := { s with unplaced := s.unplaced ++ [text] } }
  | none, .use u => take p.endRun u

def Progress.finish (p : Progress) : Except Stop Settings :=
  match p.awaiting with
  | some switch => .error (.refused (.missingValue switch))
  | none => .ok p.endRun

def parse (argv : List String) : Except Stop Settings := do
  let args ← (classifyAll argv).mapError .refused
  let p ← args.foldlM step {}
  let s ← p.finish
  if s.unplaced.isEmpty then pure s else .error (.refused (.unrecognized s.unplaced))

/-! ## Running -/

def versionLine : String := "tinystringer 0.1.0\n"

def usage : String :=
  "usage: tinystringer [-type TYPE] [-output FILE] [-trimprefix TEXT] [-linecomment] [-stringtovaluemapname NAME] [-enumvaluesslicename NAME] [-v] [--version] [files ...]\n"

/-- The least level that is reported. -/
def threshold (verbosity : Nat) : Level :=
  match verbosity with
  | 0 => .warning
  | 1 => .info
  | _ => .debug

def textLines (text : String) : List String := (Text.splitAt '\n' text.toList).map String.ofList

def report (verbosity : Nat) (events : List Event) : List String :=
  (events.filter fun e => (threshold verbosity).rank ≤ e.level.rank).flatMap (textLines ·.render)

/-- A finished run of the program: its exit code or the fault that broke it off, what it printed,
its report, whether its arguments were refused, and what it did to the file system. -/
structure Session where
  exit : Except Failure Nat
  output : String := ""
  report : List String := []
  refused : Bool := false
  trace : List FileTree := []
  written : Option Place := none

def Session.final (s : Session) (initial : FileTree) : FileTree := s.trace.getLast?.getD initial

def Session.ofStop : Stop → Session
  | .help => { exit := .ok 0, output := usage }
  | .version => { exit := .ok 0, output := versionLine }
  | .refused r =>
      { exit := .ok 2, report := textLines ("tinystringer: error: " ++ r.message), refused := true }

def runWith (opener : Opener) (c : Publish.Conditions) (umask : Nat) (t : FileTree)
    (argv : List String) : Session :=
  match parse argv with
  | .error stop => .ofStop stop
  | .ok s =>
      let x := executeWith opener c umask t s.options
      { exit := x.exit
        output := x.output
        report := report s.verbosity x.events
        trace := x.trace
        written := x.written }

def run (c : Publish.Conditions) (umask : Nat) (t : FileTree) (argv : List String) : Session :=
  runWith t.open? c umask t argv

end CommandLine
end EnumNames
