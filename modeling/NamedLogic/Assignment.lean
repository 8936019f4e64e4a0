import NamedLogic.Ascending
import NamedLogic.Truth.Value
import NamedLogic.Valuation

/-!
# Assignments

An assignment is a valuation with an identity of its own.  Identities are
numbers drawn in order from a supply, one for each assignment that comes into
being.  Two assignments are the same if their identities are, whatever their
values; changing the values of an assignment does not change its identity.
-/

namespace NamedLogic

/-- The supply of identities, given by the next one to be drawn.  There is no
greatest one: that a counter of fixed width would start over is left out. -/
structure IdSupply where
  next : Nat := 0

/-- A valuation with an identity. -/
structure Assignment (V : Type) where
  id : Nat
  valuation : Valuation V

namespace Assignment

variable {V : Type}

/-- Whether two assignments are the same one. -/
def same (first second : Assignment V) : Bool :=
  first.id == second.id

/-- A new assignment of the given values. -/
def ofValuation (valuation : Valuation V) : StateM IdSupply (Assignment V) :=
  modifyGet fun supply =>
    ({ id := supply.next, valuation }, { next := supply.next + 1 })

/-- A new assignment of no values. -/
def empty : StateM IdSupply (Assignment V) :=
  ofValuation .empty

/-- A new assignment of the listed values. -/
def ofList (entries : List (String × V)) : StateM IdSupply (Assignment V) :=
  ofValuation (.ofList entries)

/-- A new assignment of the same values. -/
def copy (assignment : Assignment V) : StateM IdSupply (Assignment V) :=
  ofValuation assignment.valuation

/-- A new assignment of the values of both, with those of the second
winning. -/
def merge (first second : Assignment V) : StateM IdSupply (Assignment V) :=
  ofValuation (first.valuation.merge second.valuation)

/-- Set the value of a name in place, where no value takes away the present
one. -/
def assign
    (assignment : Assignment V) (name : String) (value : Option V) :
    Assignment V :=
  { assignment with valuation := assignment.valuation.assign name value }

/-- Take the value of a name away in place.  The result is the value, if
any. -/
def remove
    (assignment : Assignment V) (name : String) :
    Option V × Assignment V :=
  (assignment.valuation.get? name,
    { assignment with valuation := assignment.valuation.erase name })

/-- Take any value of a name away in place, and then set it anew. -/
def replace
    (assignment : Assignment V) (name : String) (value : Option V) :
    Assignment V :=
  (assignment.remove name).2.assign name value

/-- Set the value of a name, keeping what is known: if the name has a value
other than the given one, the assignment stays as it is and the change is made
to a copy of it.  The result is the copy, if there is one, and the
assignment. -/
def assignChecked [DecidableEq V]
    (assignment : Assignment V) (name : String) (value : Option V) :
    StateM IdSupply (Option (Assignment V) × Assignment V) :=
  match assignment.valuation.get? name with
  | some present =>
      if some present = value then
        pure (none, assignment.assign name value)
      else do
        let fork ← assignment.copy
        pure (some (fork.assign name value), assignment)
  | none => pure (none, assignment.assign name value)

/-- The number of names given equal values by both assignments.  There is none
if it would be zero, or if there is no second assignment. -/
def agreement? [DecidableEq V]
    (first : Assignment V) (second : Option (Assignment V)) : Option Nat :=
  second.bind fun second => first.valuation.agreement? second.valuation

/-- The text of an assignment: its identity, and its entries in ascending
order of their texts. -/
def text [TruthValue V] (assignment : Assignment V) : String :=
  let entryTexts := assignment.valuation.entries.map fun entry =>
    entry.1 ++ ": " ++ TruthValue.symbol entry.2
  "#" ++ toString assignment.id ++ " \x7b" ++
    ", ".intercalate (ascending entryTexts) ++ "\x7d"

end Assignment

end NamedLogic
