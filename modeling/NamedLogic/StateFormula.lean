import NamedLogic.Registry.Formation
import NamedLogic.Truth.Value
import NamedLogic.Valuation

/-!
# Valuations as formulas

A valuation is described by the conjunction of its literals: each name is an
atom, negated if the value of the name is not designated.
-/

namespace NamedLogic

namespace Valuation

variable {V : Type} [TruthValue V]

/-- The literal of an entry. -/
def literal (entry : String × V) : Update Key := do
  let atom ← Registry.atom entry.1
  if TruthValue.designated entry.2 then
    pure atom
  else
    Registry.negation atom

/-- The formula of a valuation, with literals in ascending order of names.  A
single literal stands for itself, and without entries there is no formula. -/
def toFormula (valuation : Valuation V) : Update (Option Key) := do
  match ← valuation.entries.mapM literal with
  | [] => pure none
  | [single] => pure (some single)
  | literals => do
      let conjunction ← Registry.junction .conjunction literals
      pure (some conjunction)

end Valuation

end NamedLogic
