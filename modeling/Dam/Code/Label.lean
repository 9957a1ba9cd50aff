/-!
# Labels

A label names a place in the code. Labels that belong to one construct share a
number and differ in their stem: `THEN3`, `ELSE3`, `END3`. Two labels are the same
when their names are.
-/

namespace Dam

/-- A place that code can jump to. -/
structure Label where
  name : String
deriving DecidableEq, Repr, Inhabited

namespace Label

/-- The label with a stem and a number. -/
def numbered (stem : String) (n : Nat) : Label := ⟨stem ++ toString n⟩

end Label

end Dam
