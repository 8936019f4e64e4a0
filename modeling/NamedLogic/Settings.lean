/-!
# Settings of a registry

A setting with bounds accepts a new value only between them.  The settings of
a registry are the stems of its generated names and the depth at which its
traversals are abandoned.
-/

namespace NamedLogic

/-- A value together with the bounds within which it may be reset, and the
label under which it is reported. -/
structure Bounded (α : Type) where
  label : String
  min : α
  max : α
  value : α

namespace Bounded

variable {α : Type} [LE α] [DecidableLE α]

/-- The setting with a new value, provided the value respects both bounds. -/
def set? (setting : Bounded α) (value : α) : Option (Bounded α) :=
  if setting.min ≤ value ∧ value ≤ setting.max then
    some { setting with value }
  else
    none

/-- A value respecting the bounds replaces the present one, and any other
value leaves the setting as it is. -/
def offer (setting : Bounded α) (value : α) : Bounded α :=
  (setting.set? value).getD setting

end Bounded

/-- The settings of a registry. -/
structure Settings where
  /-- What the generated names of atoms begin with. -/
  atomStem : String := "A"
  /-- What the generated names of compound formulas begin with. -/
  formulaStem : String := "F"
  /-- The greatest depth of a node visited by a traversal.  The root of a
  traversal has depth zero, and an operand is one deeper than its formula. -/
  depthLimit : Bounded Nat :=
    { label := "depth_limit", min := 1, max := UInt64.size - 1, value := 1024 }

end NamedLogic
