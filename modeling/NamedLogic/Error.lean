/-!
# Refusals

An operation on a registry either yields a result or is refused for one of
the causes below.  Absence is not a refusal: a name without a binding and a
formula without a value are ordinary results.
-/

namespace NamedLogic

/-- The causes for which an operation is refused.  All but the last concern
the arguments of the operation; the last concerns the extent of a traversal. -/
inductive LogicError where
  /-- No node is stored under the key. -/
  | unknownKey
  /-- The node is not a conjunction or disjunction. -/
  | notAJunction
  /-- The node is not an implication. -/
  | notAnImplication
  /-- The node is not an atom. -/
  | notAnAtom
  /-- The node is not a disjunctive normal form. -/
  | notADnf
  /-- A name was required to be a non-empty string. -/
  | emptyName
  /-- A junction would become an operand of itself. -/
  | selfReference
  /-- A traversal went below the configured depth limit. -/
  | depthExceeded
  deriving DecidableEq

namespace LogicError

/-- The word by which a cause is reported. -/
def label : LogicError → String
  | unknownKey => "UnknownKey"
  | notAJunction => "NotAJunction"
  | notAnImplication => "NotAnImplication"
  | notAnAtom => "NotAnAtom"
  | notADnf => "NotADnf"
  | emptyName => "EmptyName"
  | selfReference => "SelfReference"
  | depthExceeded => "DepthExceeded"

/-- The sentence by which a cause is reported.  A refused argument is
reported by its label, an exceeded depth limit in words. -/
def message : LogicError → String
  | depthExceeded => "Depth limit exceeded"
  | refused => "Registry error: " ++ refused.label

end LogicError

end NamedLogic
