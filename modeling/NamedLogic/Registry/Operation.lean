import NamedLogic.NormalForm
import NamedLogic.StateFormula

/-!
# Histories of a registry

Every state of a registry arises from an empty one by operations, refused ones
included.  A property of all states is shown by showing that each operation
keeps it.
-/

namespace NamedLogic

/-- An operation that may change a registry. -/
inductive Operation where
  | configure (settings : Settings)
  | intern (string : String)
  | atom (string : String)
  | freshAtom
  | negation (operand : Key)
  | junction (connective : Connective) (operands : List Key)
  | implication (antecedent consequent : Option Key)
  | setAntecedent (target : Key) (antecedent : Option Key)
  | setConsequent (target : Key) (consequent : Option Key)
  | addOperand (target operand : Key)
  | register (key : Key)
  | remove (string : String)
  | removeKey (key : Key)
  | rename (key : Key) (string : String)
  | setOwner (key : Key) (owner : Option Entity)
  | dnf (atoms : List Key) (rows : UInt64)
  | simplify (key : Key)
  | describe (valuation : Valuation Bool)
  | describeFour (valuation : Valuation Four)
  | clear

namespace Operation

/-- What an operation asks of a registry, which may be refused. -/
def update : Operation → Update PUnit
  | configure settings => modify fun registry => { registry with settings }
  | intern string => ignoreResult (modifyGet (·.intern string))
  | atom string => ignoreResult (Registry.atom string)
  | freshAtom => ignoreResult Registry.freshAtom
  | negation operand => ignoreResult (Registry.negation operand)
  | junction connective operands =>
      ignoreResult (Registry.junction connective operands)
  | implication antecedent consequent =>
      ignoreResult (Registry.implication antecedent consequent)
  | setAntecedent target antecedent =>
      Registry.setAntecedent target antecedent
  | setConsequent target consequent =>
      Registry.setConsequent target consequent
  | addOperand target operand =>
      ignoreResult (Registry.addOperand target operand)
  | register key => ignoreResult (Registry.register key)
  | remove string => ignoreResult (modifyGet (·.remove string))
  | removeKey key => ignoreResult (modifyGet (·.removeKey key))
  | rename key string => Registry.rename key string
  | setOwner key owner => Registry.setOwner key owner
  | dnf atoms rows => ignoreResult (Registry.dnf atoms rows)
  | simplify key => ignoreResult (Registry.simplify key)
  | describe valuation => ignoreResult valuation.toFormula
  | describeFour valuation => ignoreResult valuation.toFormula
  | clear => modify Registry.clear

/-- The registry after an operation, whether refused or not. -/
def apply (operation : Operation) (registry : Registry) : Registry :=
  (operation.update.run.run registry).2

end Operation

/-- The states a registry can come to be in. -/
inductive Registry.Reachable : Registry → Prop where
  | empty (settings : Settings) : Reachable { settings }
  | step
      {registry : Registry} (earlier : Reachable registry)
      (operation : Operation) :
      Reachable (operation.apply registry)

end NamedLogic
