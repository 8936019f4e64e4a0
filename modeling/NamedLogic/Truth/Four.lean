/-!
# Belnap's four values

A value records whether there is evidence for the truth of something and,
independently, whether there is evidence for its falsity.  Conjunction and
disjunction are the meet and the join of the truth ordering: the first lowers
evidence for truth and raises evidence for falsity, the second does the
opposite.
-/

namespace NamedLogic

/-- A pair of independent pieces of evidence. -/
structure Four where
  forTruth : Bool
  forFalsity : Bool
  deriving DecidableEq

namespace Four

/-- Evidence for truth alone. -/
def truth : Four := ⟨true, false⟩

/-- Evidence for falsity alone. -/
def falsity : Four := ⟨false, true⟩

/-- No evidence at all. -/
def bottom : Four := ⟨false, false⟩

/-- Conflicting evidence. -/
def top : Four := ⟨true, true⟩

/-- The classical value read as evidence for exactly one side. -/
def ofBool (value : Bool) : Four := ⟨value, !value⟩

/-- Negation exchanges the two pieces of evidence. -/
def negate (value : Four) : Four := ⟨value.forFalsity, value.forTruth⟩

/-- The meet of the truth ordering. -/
def conjunct (left right : Four) : Four :=
  ⟨left.forTruth && right.forTruth, left.forFalsity || right.forFalsity⟩

/-- The join of the truth ordering. -/
def disjunct (left right : Four) : Four :=
  ⟨left.forTruth || right.forTruth, left.forFalsity && right.forFalsity⟩

/-- A one-character symbol for the value. -/
def symbol : Four → String
  | ⟨true, false⟩ => "t"
  | ⟨false, true⟩ => "f"
  | ⟨false, false⟩ => "⊥"
  | ⟨true, true⟩ => "⊤"

/-- The name of the value. -/
def label : Four → String
  | ⟨true, false⟩ => "TRUE"
  | ⟨false, true⟩ => "FALSE"
  | ⟨false, false⟩ => "BOT"
  | ⟨true, true⟩ => "TOP"

end Four

end NamedLogic
