/-!
Permissions. A mode has nine bits, of which the first three are the owner's. The
program owns the files that it works on, so these three decide what it may do.
-/

namespace EnumNames

inductive Access where
  | read
  | write
  | search
  deriving DecidableEq, Repr

def Access.bit : Access → Nat
  | .read => 8
  | .write => 7
  | .search => 6

def Access.grantedBy (a : Access) (mode : Nat) : Bool := mode.testBit a.bit

def maskedMode (mode umask : Nat) : Nat := mode &&& (0o777 ^^^ (umask &&& 0o777))

def plainFileMode (umask : Nat) : Nat := maskedMode 0o666 umask

def directoryMode (umask : Nat) : Nat := maskedMode 0o777 umask

end EnumNames
