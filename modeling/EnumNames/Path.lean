import EnumNames.Text.Blank
import EnumNames.Text.Split

/-!
Paths as text. Components are divided by slashes; a leading slash, or exactly
two of them, marks an absolute path. Normalising works on the text alone and
asks no file system.
-/

namespace EnumNames.Path

open EnumNames.Text

/-- A null character ends a path for the system, so no path may hold one. -/
def hasNull (path : List Char) : Bool := path.contains (Char.ofNat 0)

def joinParts (parts : List (List Char)) : List Char := ['/'].intercalate parts

/-- What stands before the last slash, without slashes at its end unless it has nothing else. -/
def directory (path : List Char) : List Char :=
  let head := dropEndWhile (· != '/') path
  if head.all (· == '/') then head else dropEndWhile (· == '/') head

/-- The number of slashes that a normalised path starts with. -/
def rootSlashes : List Char → Nat
  | '/' :: '/' :: '/' :: _ => 1
  | '/' :: '/' :: _ => 2
  | '/' :: _ => 1
  | _ => 0

/-- Adds a component to those kept so far, last first. A parent mark takes back an ordinary
component; without one it is kept in a relative path and dropped in an absolute one. -/
def keepPart (absolute : Bool) (kept : List (List Char)) (part : List Char) : List (List Char) :=
  if part == [] || part == ['.'] then kept
  else if part == ['.', '.'] then
    match kept with
    | [] => if absolute then [] else [part]
    | last :: rest => if last == ['.', '.'] then part :: kept else rest
  else part :: kept

/-- The shortest path of the same meaning, if no component is a link. -/
def normalize (path : List Char) : List Char :=
  let slashes := rootSlashes path
  let kept := (splitAt '/' path).foldl (keepPart (0 < slashes)) []
  match List.replicate slashes '/' ++ joinParts kept.reverse with
  | [] => ['.']
  | text => text

/-- The second path as seen from the directory that is the first one. -/
def join (dir path : List Char) : List Char :=
  if path.head? == some '/' then path
  else if dir.isEmpty || dir.getLast? == some '/' then dir ++ path
  else dir ++ '/' :: path

/-- The path without components that are empty or stand for the same directory. Parent marks are
kept. -/
def tidy (path : List Char) : List Char :=
  let parts := (splitAt '/' path).filter fun part => part != [] && part != ['.']
  match List.replicate (rootSlashes path) '/' ++ joinParts parts with
  | [] => ['.']
  | text => text

end EnumNames.Path
