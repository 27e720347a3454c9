/-!
Sets of characters given by closed ranges of code points. A character class of
a published standard is one such table, with the ASCII part of the class said
in words by the module that owns it.
-/

namespace EnumNames.Text

/-- Closed ranges of code points, in increasing order and not touching. -/
abbrev Ranges := List (Nat × Nat)

namespace Ranges

def has (table : Ranges) (c : Char) : Bool :=
  table.any fun r => r.1 ≤ c.toNat && c.toNat ≤ r.2

theorem has_iff (table : Ranges) (c : Char) :
    table.has c = true ↔ ∃ r ∈ table, r.1 ≤ c.toNat ∧ c.toNat ≤ r.2 := by
  simp [has]

end Ranges
end EnumNames.Text
