import EnumNames.Numeral

/-!
The constants found so far: their names in the order of first declaration, and
for each name its value and its display text. Declaring a name again overwrites
both and keeps its place.
-/

namespace EnumNames

structure Record where
  name : String
  value : Int
  display : String
  order : Nat
  deriving DecidableEq, Repr

/-- The maps hold the latest entry of a name first. -/
structure Table where
  names : List String := []
  values : List (String × Int) := []
  displays : List (String × String) := []
  deriving DecidableEq, Repr

namespace Table

def value? (t : Table) (name : String) : Option Int := t.values.lookup name

def display? (t : Table) (name : String) : Option String := t.displays.lookup name

def contains (t : Table) (name : String) : Bool := (t.value? name).isSome

def record (t : Table) (name : String) (value : Int) (display : String) : Table :=
  { names := if t.contains name then t.names else t.names ++ [name]
    values := (name, value) :: t.values
    displays := (name, display) :: t.displays }

def size (t : Table) : Nat := t.names.length

def isEmpty (t : Table) : Bool := t.values.isEmpty || t.displays.isEmpty

def recordsFrom (t : Table) (order : Nat) : List String → List Record
  | [] => []
  | name :: names =>
      { name, value := (t.value? name).getD 0, display := (t.display? name).getD "", order } ::
        t.recordsFrom (order + 1) names

def records (t : Table) : List Record := t.recordsFrom 0 t.names

def describe (t : Table) : String :=
  let pairs := t.records.map fun r => s!"{r.name}={Numeral.decimal r.value}"
  "ResolvedTable(" ++ ", ".intercalate pairs ++ ")"

end Table
end EnumNames
