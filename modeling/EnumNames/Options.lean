import EnumNames.Diagnostic.Basic
import EnumNames.Path
import EnumNames.Text.Lowercase

/-!
The options of a run: which type, from which files, to which output, and how
names are displayed. All files have to be in one directory, and the output goes
there unless it is named.
-/

namespace EnumNames

structure Options where
  type : String := ""
  files : List String := []
  output : String := ""
  trimPrefix : String := ""
  lineComment : Bool := false
  mapName : String := ""
  sliceName : String := ""
  deriving DecidableEq, Repr

namespace Options

/-- Options of the settings that were given; what was not given is empty. -/
def ofSettings (type output trimPrefix : Option String) (lineComment : Option Bool)
    (mapName sliceName : Option String) (files : List String) : Options :=
  { type := type.getD ""
    files
    output := output.getD ""
    trimPrefix := trimPrefix.getD ""
    lineComment := lineComment.getD false
    mapName := mapName.getD ""
    sliceName := sliceName.getD "" }

inductive Problem where
  | noType
  | noFiles
  | scattered (first firstDir other otherDir : String)
  deriving DecidableEq, Repr

def Problem.message : Problem → String
  | .noType => "must provide --type"
  | .noFiles => "must provide at least one file argument"
  | .scattered first firstDir other otherDir =>
      s!"all input files must be in the same source directory; got input file {first} in directory {firstDir}, but input file {other} in directory {otherDir}"

def Problem.diagnostic (p : Problem) : Diagnostic := { cause := .plain .configuration p.message }

/-- The normalised directory of a file. -/
def directoryOf (file : String) : String :=
  String.ofList (Path.normalize (Path.directory file.toList))

/-- Checks the rest of the files against the first one that has a name, and the directory of the
last one before it. -/
def checkDirectories (first dir : String) : List String → Except Problem Unit
  | [] => .ok ()
  | file :: files =>
      let fileDir := directoryOf file
      if first.isEmpty then checkDirectories file fileDir files
      else if fileDir == dir then checkDirectories first dir files
      else .error (.scattered first dir file fileDir)

def check (o : Options) : Except Problem Unit :=
  if o.type.isEmpty then .error .noType
  else if o.files.isEmpty then .error .noFiles
  else checkDirectories "" "" o.files

def sourceDirectory (o : Options) : String :=
  match o.files with
  | [] => ""
  | file :: _ => String.ofList (Path.directory file.toList)

def destination (o : Options) : String :=
  if o.output.isEmpty then
    let name := Text.lowercase o.type ++ "_string.go"
    String.ofList (Path.join o.sourceDirectory.toList name.toList)
  else o.output

def toStandardOutput (o : Options) : Bool := o.output == "-"

end Options
end EnumNames
