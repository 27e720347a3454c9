import EnumNames.Diagnostic.Basic
import EnumNames.Source.Rune
import EnumNames.Text.Utf8

/-!
Everything that can stop a run. Diagnostics are meant for the user; the other
failures are faults of a text that should be a number, a rune, a path or bytes.
-/

namespace EnumNames

inductive Failure where
  | diagnostic (d : Diagnostic)
  | numeral (fault : Numeral.Fault)
  | rune (fault : Rune.Fault)
  | nullInPath
  | unencodable (surrogates : Text.Utf8.Surrogates)
  deriving DecidableEq, Repr

namespace Failure

def message : Failure → String
  | .diagnostic d => d.render
  | .numeral fault => fault.message
  | .rune fault => fault.message
  | .nullInPath => "embedded null byte"
  | .unencodable surrogates => surrogates.message

end Failure
end EnumNames
