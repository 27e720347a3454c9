import EnumNames.CommandLine

/-!
The program on the real file system. Files are read before the run and the
output is written after it; what happens in between is `plan`.
-/

namespace EnumNames

def errnoOf : IO.Error → Errno
  | .noFileOrDirectory .. => .notFound
  | .permissionDenied _ 13 _ => .denied
  | .alreadyExists _ code text | .invalidArgument _ code text | .permissionDenied _ code text
  | .resourceExhausted _ code text | .inappropriateType _ code text | .noSuchThing _ code text
  | .interrupted _ code text | .otherError code text | .resourceBusy code text
  | .resourceVanished code text | .unsupportedOperation code text | .hardwareFault code text
  | .unsatisfiedConstraints code text | .illegalOperation code text | .protocolError code text
  | .timeExpired code text => .other code.toNat text
  | .unexpectedEof => .other 5 "Input/output error"
  | .userError text => .other 5 text

/-- The bytes of each file that can be opened. -/
def readFiles (paths : List String) : IO (List (String × Except Errno (List UInt8))) :=
  paths.mapM fun path => do
    let tidied := String.ofList (Path.tidy path.toList)
    try
      let bytes ← IO.FS.readBinFile tidied
      pure (tidied, .ok bytes.toList)
    catch e => pure (tidied, .error (errnoOf e))

def drawnChars : List Char := "abcdefghijklmnopqrstuvwxyz0123456789_".toList

def draw : IO String := do
  let picks ← (List.replicate 8 ()).mapM fun _ => IO.rand 0 (drawnChars.length - 1)
  pure (String.ofList (picks.map (drawnChars.getD · '_')))

def openTemp (dir : List Char) : Nat → IO (Except OsFailure (String × IO.FS.Handle))
  | 0 => pure (.error { errno := .other 17 "No usable temporary file name found" })
  | tries + 1 => do
      let path := Publish.tempPath dir (Publish.tempName (← draw))
      try
        let handle ← IO.FS.Handle.mk path .writeNew
        pure (.ok (path, handle))
      catch
        | .alreadyExists .. => openTemp dir tries
        | e => pure (.error { errno := errnoOf e, path })

/-- Fills the temporary file and moves it to its destination, or removes it. -/
def moveFile (temp : String) (handle : IO.FS.Handle) (destination text : String) :
    IO (Except OsFailure Unit) := do
  try
    handle.putStr text
    handle.flush
    IO.FS.rename temp destination
    pure (.ok ())
  catch e => do
    IO.FS.removeFile temp
    pure (.error { errno := errnoOf e, path := temp, target := some destination })

def publishFile (destination text : String) : IO (Except OsFailure Unit) := do
  let working := (← IO.currentDir).toString
  match ← openTemp (Publish.directoryOf working.toList destination) 10000 with
  | .ok (temp, handle) => moveFile temp handle destination text
  | .error failure => pure (.error failure)

def finish (verbosity : Nat) (events : List Event) (exit : Nat) : IO UInt32 := do
  for line in CommandLine.report verbosity events do
    IO.eprintln line
  pure exit.toUInt32

def runProgram (argv : List String) : IO UInt32 :=
  match CommandLine.parse argv with
  | .error stop => do
      let session := CommandLine.Session.ofStop stop
      IO.print session.output
      for line in session.report do
        IO.eprintln line
      pure (session.exit.toOption.getD 1).toUInt32
  | .ok settings => do
      let contents ← readFiles settings.options.files
      let opener := fun path => (contents.lookup path).getD (.error .notFound)
      let (events, plan) := plan opener settings.options
      let verbosity := settings.verbosity
      match plan with
      | .stop (.diagnostic d) => finish verbosity (events ++ [.failed d]) (exitCode d)
      | .stop f => do
          IO.eprintln f.message
          finish verbosity events 1
      | .print code => do
          IO.print code
          finish verbosity events 0
      | .publish destination code => do
          match ← publishFile destination code with
          | .ok _ => finish verbosity (events ++ [.written destination]) 0
          | .error e =>
              let d := unwritable destination e
              finish verbosity (events ++ [.failed d]) (exitCode d)

end EnumNames

def main (argv : List String) : IO UInt32 := EnumNames.runProgram argv
