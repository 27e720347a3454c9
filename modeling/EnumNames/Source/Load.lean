import EnumNames.Files.Errno
import EnumNames.Log
import EnumNames.Path
import EnumNames.Source.Parse
import EnumNames.Text.Utf8

/-!
Reading source files. A file is opened by its tidied path and reported by the
path that was given. All files of a run have to be of one package.
-/

namespace EnumNames

/-- How the bytes of the file at a path are had. -/
abbrev Opener := String → Except Errno (List UInt8)

inductive ReadFault where
  | system (failure : OsFailure)
  | encoding (error : Text.Utf8.Error)
  deriving DecidableEq, Repr

def ReadFault.message : ReadFault → String
  | .system failure => failure.message
  | .encoding error => error.message

namespace SourceFile

/-- The text of a file, with its line ends unified. -/
def readText (opener : Opener) (path : String) : Except ReadFault String :=
  let tidied := String.ofList (Path.tidy path.toList)
  match opener tidied with
  | .error errno => .error (.system { errno, path := tidied })
  | .ok bytes =>
      match Text.Utf8.decode bytes with
      | .error error => .error (.encoding error)
      | .ok text => .ok (String.ofList (Text.unifyLineEnds text))

def load (opener : Opener) (path : String) : Logged SourceFile :=
  if Path.hasNull path.toList then Logged.ofResult (.error .nullInPath)
  else
    match readText opener path with
    | .error fault => Logged.report { cause := .sourceRead path (some fault.message) }
    | .ok text => do
        let file ← Logged.ofResult (parse path text)
        Logged.note (.fileParsed path file.package file.decls.length)
        pure file

def packageClash (first firstPackage other otherPackage : String) : Diagnostic :=
  { cause := .plain .configuration
      s!"all input files must have the same package name; got input file {first} w/ 'package {firstPackage}', but input file {other} w/ 'package {otherPackage}'" }

/-- The package of all files, given that of the file before them, if there is one. -/
def commonPackage (first package : String) : List SourceFile → Except Diagnostic String
  | [] => .ok package
  | file :: files =>
      if package.isEmpty then commonPackage file.path file.package files
      else if file.package == package then commonPackage first package files
      else .error (packageClash first package file.path file.package)

def loadAll (opener : Opener) (paths : List String) : Logged (List SourceFile × String) := do
  let files ← paths.mapM (load opener)
  let package ← Logged.ofResult ((commonPackage "" "" files).mapError .diagnostic)
  Logged.note (.filesParsed files.length package)
  pure (files, package)

end SourceFile
end EnumNames
