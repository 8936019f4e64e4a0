import NamedLogic.Truth.Four

/-!
# Families of truth values

A family of truth values is closed under negation, conjunction and
disjunction, singles out the designated (true-like) values, and lies within
Belnap's four values.  There are two families: the classical values `Bool`
and the four values themselves.
-/

namespace NamedLogic

/-- A family of truth values. -/
class TruthValue (V : Type) where
  /-- A one-character symbol for the value. -/
  symbol : V → String
  /-- The name of the value. -/
  label : V → String
  /-- Whether the value counts as true. -/
  designated : V → Bool
  negate : V → V
  conjunct : V → V → V
  disjunct : V → V → V
  /-- The unit of conjunction. -/
  truth : V
  /-- The unit of disjunction. -/
  falsity : V
  /-- The value as one of the four values. -/
  toFour : V → Four
  /-- The value of the family closest to one of the four values, or to no
  value at all. -/
  nearest : Option Four → V

/-- Classical values.  Anything but evidence for truth is closest to false. -/
instance : TruthValue Bool where
  symbol value := if value then "1" else "0"
  label value := if value then "TRUE" else "FALSE"
  designated value := value
  negate := not
  conjunct := and
  disjunct := or
  truth := true
  falsity := false
  toFour := Four.ofBool
  nearest value := value.elim false Four.forTruth

/-- The four values.  Evidence for truth designates a value, also beside
evidence for falsity, and no value is read as no evidence. -/
instance : TruthValue Four where
  symbol := Four.symbol
  label := Four.label
  designated := Four.forTruth
  negate := Four.negate
  conjunct := Four.conjunct
  disjunct := Four.disjunct
  truth := Four.truth
  falsity := Four.falsity
  toFour := id
  nearest value := value.getD Four.bottom

namespace TruthValue

/-- The value of one family closest to a perhaps absent value of another. -/
def coerce
    {V W : Type} [TruthValue V] [TruthValue W]
    (value : Option V) : W :=
  nearest (value.map toFour)

end TruthValue

end NamedLogic
