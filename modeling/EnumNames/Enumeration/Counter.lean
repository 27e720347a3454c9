import EnumNames.Numeral

/-!
The counter of a constant block. It starts at zero and idle, and moves only when
a constant takes its value.
-/

namespace EnumNames

structure Counter where
  value : Int := 0
  active : Bool := false
  deriving DecidableEq, Repr

namespace Counter

def take (c : Counter) : Int × Counter := (c.value, { c with value := c.value + 1 })

def activate (c : Counter) : Int × Counter := { c with active := true }.take

/-- Shifts the counter for good and then takes its value. -/
def offset (c : Counter) (delta : Int) : Int × Counter :=
  { c with value := c.value + delta }.activate

def deactivate (c : Counter) : Counter := { c with active := false }

def describe (c : Counter) : String :=
  let active := if c.active then "True" else "False"
  s!"ResolutionState(value={Numeral.decimal c.value}, active={active})"

end Counter
end EnumNames
