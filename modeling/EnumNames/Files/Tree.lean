import EnumNames.Files.Access
import EnumNames.Files.Errno
import EnumNames.Path

/-!
A file system with a working directory. Places are counted from the root; a path
starts at the root or at the working directory and is followed component by
component, each looked up in a directory that has to grant it. There are no
links.
-/

namespace EnumNames

/-- The components of a path from the root down. -/
abbrev Place := List String

structure StoredFile where
  bytes : List UInt8
  mode : Nat
  deriving DecidableEq, Repr

structure FileTree where
  rootMode : Nat := 0o755
  directories : List (Place × Nat) := []
  files : List (Place × StoredFile) := []
  working : Place := []
  deriving DecidableEq, Repr

namespace FileTree

/-! ## Contents -/

def file? (t : FileTree) (p : Place) : Option StoredFile := t.files.lookup p

def directoryMode? (t : FileTree) (p : Place) : Option Nat :=
  if p.isEmpty then some t.rootMode else t.directories.lookup p

def isDirectory (t : FileTree) (p : Place) : Bool := (t.directoryMode? p).isSome

def remove (t : FileTree) (p : Place) : FileTree :=
  { t with files := t.files.filter (·.1 != p) }

/-- Stores a file, in place of any that was there. -/
def put (t : FileTree) (p : Place) (f : StoredFile) : FileTree :=
  { t with files := (p, f) :: (t.remove p).files }

/-- Writes bytes to a place. A file that was there keeps its mode. -/
def save (t : FileTree) (umask : Nat) (p : Place) (bytes : List UInt8) : FileTree :=
  t.put p { bytes, mode := ((t.file? p).map (·.mode)).getD (plainFileMode umask) }

/-- Adds a directory and the directories that it is in. -/
def mkdir (t : FileTree) (umask : Nat) (p : Place) : FileTree :=
  let path := (List.range p.length).map fun n => p.take (n + 1)
  let added := (path.filter (!t.isDirectory ·)).map (·, directoryMode umask)
  { t with directories := added ++ t.directories }

/-- Removes what is at a place and below it. -/
def prune (t : FileTree) (p : Place) : FileTree :=
  { t with
    directories := t.directories.filter (!p.isPrefixOf ·.1)
    files := t.files.filter (!p.isPrefixOf ·.1) }

/-! ## Paths -/

def longestName : Nat := 255

def longestPath : Nat := 4095

/-- The components of a path that lead anywhere. -/
def parts (path : String) : List String :=
  ((Text.splitAt '/' path.toList).filter fun part => part != [] && part != ['.']).map String.ofList

def origin (t : FileTree) (path : String) : Place :=
  if path.toList.head? == some '/' then [] else t.working

def workingPath (t : FileTree) : List Char :=
  '/' :: Path.joinParts (t.working.map String.toList)

def grants (t : FileTree) (a : Access) (p : Place) : Bool :=
  (t.directoryMode? p).any a.grantedBy

inductive Entry where
  | directory (place : Place)
  | file (f : StoredFile)
  deriving DecidableEq, Repr

/-- Looks a component up in a directory. The root is its own parent. -/
def find (t : FileTree) (p : Place) (part : String) : Except Errno Entry :=
  if !t.isDirectory p then .error .notFound
  else if !t.grants .search p then .error .denied
  else if part == ".." then .ok (.directory p.dropLast)
  else if longestName < part.utf8ByteSize then .error .nameTooLong
  else
    let q := p ++ [part]
    if t.isDirectory q then .ok (.directory q)
    else
      match t.file? q with
      | some f => .ok (.file f)
      | none => .error .notFound

def enter (t : FileTree) (p : Place) (part : String) : Except Errno Place :=
  match t.find p part with
  | .error e => .error e
  | .ok (.directory q) => .ok q
  | .ok (.file _) => .error .notDirectory

def walk (t : FileTree) (start : Place) (parts : List String) : Except Errno Place :=
  parts.foldlM t.enter start

/-- The bytes of an entry. A directory that may be read is still no file. -/
def bytes (t : FileTree) : Entry → Except Errno (List UInt8)
  | .file f => if Access.grantedBy .read f.mode then .ok f.bytes else .error .denied
  | .directory p => .error (if t.grants .read p then .isDirectory else .denied)

def open? (t : FileTree) (path : String) : Except Errno (List UInt8) :=
  if longestPath < path.utf8ByteSize then .error .nameTooLong
  else
    match (parts path).reverse with
    | [] => t.bytes (.directory (t.origin path))
    | last :: above => do
        let p ← t.walk (t.origin path) above.reverse
        let entry ← t.find p last
        t.bytes entry

/-- The place of a file that is to be new at a path. -/
def vacancy (t : FileTree) (path : String) : Except Errno Place :=
  if longestPath < path.utf8ByteSize then .error .nameTooLong
  else
    match (parts path).reverse with
    | [] => .error .alreadyThere
    | last :: above => do
        let p ← t.walk (t.origin path) above.reverse
        match t.find p last with
        | .ok _ => .error .alreadyThere
        | .error .notFound => if t.grants .write p then .ok (p ++ [last]) else .error .denied
        | .error e => .error e

def isTaken (t : FileTree) (path : String) : Bool :=
  match t.vacancy path with
  | .error .alreadyThere => true
  | _ => false

end FileTree
end EnumNames
