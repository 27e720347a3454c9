import EnumNames.Files.Tree
import EnumNames.Text.Utf8

/-!
Writing a file so that its path holds either the old content or all of the new.
The text goes to a temporary file in the same directory, which then replaces the
destination in one step. When the system fails a step the temporary file is
removed. It stays when the text has no encoding, and when the destination has a
null character in its last component: these are found out before the system is
asked, and nothing is done about them.
-/

namespace EnumNames

namespace Publish

inductive Step where
  | create
  | write
  | chmod
  | replace
  deriving DecidableEq, Repr

/-- What a run meets besides its file system: the random parts of the names it tries for its
temporary file, the failures that come from the system and not from the paths, and the surrogates
in the text, which no `String` holds. -/
structure Conditions where
  draws : List String
  faults : Step → Option Errno := fun _ => none
  surrogates : Option Text.Utf8.Surrogates := none

inductive Fault where
  | system (failure : OsFailure)
  | nullInPath (leftover : Option Place)
  | unencodable (surrogates : Text.Utf8.Surrogates) (leftover : Place)
  deriving DecidableEq, Repr

/-- Steps that were taken: the file system after each of them, and what they came to. -/
structure Trace (α : Type) where
  states : List FileTree
  result : Except Fault α

def Trace.andThen {α β : Type} (x : Trace α) (next : α → Trace β) : Trace β :=
  match x.result with
  | .error fault => ⟨x.states, .error fault⟩
  | .ok a => ⟨x.states ++ (next a).states, (next a).result⟩

/-! ## The temporary file -/

/-- A file being written, and its path in messages. -/
structure Temp where
  place : Place
  path : String
  deriving DecidableEq, Repr

def tempName (draw : String) : String := ".tinystringer-" ++ draw ++ ".go"

/-- The directory of a path, seen from the root and normalised as text. -/
def directoryOf (working : List Char) (dest : String) : List Char :=
  Path.normalize (Path.join working (Path.directory dest.toList))

def tempPath (dir : List Char) (name : String) : String :=
  String.ofList (Path.join dir name.toList)

/-- Creates a file under the first of the names that is not in use. -/
def openTemp (t : FileTree) (dir : List Char) (draws : List String) : Except Fault Temp :=
  let paths := draws.map fun draw => tempPath dir (tempName draw)
  match paths.find? (!t.isTaken ·) with
  | none => .error (.system { errno := .other 17 "No usable temporary file name found" })
  | some path =>
      match t.vacancy path with
      | .ok place => .ok { place, path }
      | .error errno => .error (.system { errno, path })

/-- Chooses a temporary file beside a path. The working directory has no null character. -/
def chooseTemp (t : FileTree) (dest : String) (draws : List String) : Except Fault Temp :=
  if Path.hasNull (Path.normalize (Path.directory dest.toList)) then .error (.nullInPath none)
  else openTemp t (directoryOf t.workingPath dest) draws

/-! ## Replacing -/

/-- The place that a file moved to a path goes to. A path that ends in a slash is no place for a
file. -/
def target (t : FileTree) (dest : String) : Except Errno Place :=
  if FileTree.longestPath < dest.utf8ByteSize then .error .nameTooLong
  else
    let parts := ((Text.splitAt '/' dest.toList).filter (· != [])).map String.ofList
    match parts.reverse with
    | [] => .error .busy
    | last :: above => do
        let p ← t.walk (t.origin dest) (above.reverse.filter (· != "."))
        if !t.grants .search p then .error .denied
        else if last == "." || last == ".." then .error .busy
        else if FileTree.longestName < last.utf8ByteSize then .error .nameTooLong
        else if dest.toList.getLast? == some '/' then .error .notDirectory
        else if !t.grants .write p then .error .denied
        else if t.isDirectory (p ++ [last]) then .error .isDirectory
        else .ok (p ++ [last])

/-! ## Steps -/

/-- Creates the temporary file, fills it and opens it to others. -/
def fill (c : Conditions) (umask : Nat) (t : FileTree) (temp : Temp) (text : String) :
    Trace StoredFile :=
  match c.faults .create with
  | some errno => ⟨[], .error (.system { errno, path := temp.path })⟩
  | none =>
      let mode := maskedMode 0o600 umask
      let created := t.put temp.place ⟨[], mode⟩
      match c.surrogates, c.faults .write with
      | some surrogates, _ => ⟨[created], .error (.unencodable surrogates temp.place)⟩
      | none, some errno => ⟨[created, created.remove temp.place], .error (.system { errno })⟩
      | none, none =>
          let written := t.put temp.place ⟨Text.Utf8.encode text, mode⟩
          match c.faults .chmod with
          | some errno =>
              ⟨[created, written, written.remove temp.place],
                .error (.system { errno, path := temp.path })⟩
          | none =>
              let file : StoredFile := ⟨Text.Utf8.encode text, plainFileMode umask⟩
              ⟨[created, written, t.put temp.place file], .ok file⟩

def move (c : Conditions) (t : FileTree) (temp : Temp) (file : StoredFile) (dest : String) :
    Trace Place :=
  let ready := t.put temp.place file
  if Path.hasNull dest.toList then ⟨[], .error (.nullInPath (some temp.place))⟩
  else
    let aim : Except Errno Place :=
      match c.faults .replace with
      | some errno => .error errno
      | none => target ready dest
    match aim with
    | .error errno =>
        ⟨[ready.remove temp.place],
          .error (.system { errno, path := temp.path, target := dest })⟩
    | .ok place => ⟨[(ready.remove temp.place).put place file], .ok place⟩

def run (c : Conditions) (umask : Nat) (t : FileTree) (dest text : String) : Trace Place :=
  match chooseTemp t dest c.draws with
  | .error fault => ⟨[], .error fault⟩
  | .ok temp => (fill c umask t temp text).andThen fun file => move c t temp file dest

end Publish
end EnumNames
