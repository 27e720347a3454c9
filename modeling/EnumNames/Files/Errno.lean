import EnumNames.Text.Quoted

/-!
Failures of file operations, with the numbers and words that systems give them.
-/

namespace EnumNames

inductive Errno where
  | notFound
  | denied
  | busy
  | alreadyThere
  | notDirectory
  | isDirectory
  | nameTooLong
  | other (number : Nat) (text : String)
  deriving DecidableEq, Repr

namespace Errno

def number : Errno → Nat
  | .notFound => 2
  | .denied => 13
  | .busy => 16
  | .alreadyThere => 17
  | .notDirectory => 20
  | .isDirectory => 21
  | .nameTooLong => 36
  | .other number _ => number

def text : Errno → String
  | .notFound => "No such file or directory"
  | .denied => "Permission denied"
  | .busy => "Device or resource busy"
  | .alreadyThere => "File exists"
  | .notDirectory => "Not a directory"
  | .isDirectory => "Is a directory"
  | .nameTooLong => "File name too long"
  | .other _ text => text

end Errno

/-- A failed operation on a path, or from a path to a target. An operation on a file that is open
has no path. -/
structure OsFailure where
  errno : Errno
  path : Option String := none
  target : Option String := none
  deriving DecidableEq, Repr

def OsFailure.message (f : OsFailure) : String :=
  let path := (f.path.map fun p => ": " ++ Text.shown p).getD ""
  let target := (f.target.map fun t => " -> " ++ Text.shown t).getD ""
  s!"[Errno {f.errno.number}] {f.errno.text}{path}{target}"

end EnumNames
