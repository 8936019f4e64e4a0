import NamedLogic.Node

/-!
# Formulas as trees

A tree is what remains of a formula when the names of its compound parts are
forgotten: its connectives, the order of its operands, the strings of its
atoms, and the places where something is missing.
-/

namespace NamedLogic

/-- An ordered tree of connectives over atoms. -/
inductive Tree where
  | atom (string : String)
  /-- A name that stands for nothing. -/
  | unresolved (string : String)
  /-- A side that an implication lacks, or the formula of a disjunctive normal
  form that has none. -/
  | absent
  | negation (operand : Tree)
  | junction (connective : Connective) (operands : List Tree)
  | implication (antecedent consequent : Tree)
  /-- A disjunctive normal form, by the formula generated from it. -/
  | generated (formula : Tree)
  /-- Whatever lies beyond the levels unfolded. -/
  | beyond

namespace Tree

/-! ## Classical truth -/

mutual

/-- The classical truth of a tree in a state giving every string a value.  What
is missing counts as false. -/
def holds (state : String → Bool) : Tree → Bool
  | atom string => state string
  | unresolved _ => false
  | absent => false
  | negation operand => !operand.holds state
  | junction .conjunction operands => allHold state operands
  | junction .disjunction operands => anyHolds state operands
  | implication antecedent consequent =>
      !antecedent.holds state || consequent.holds state
  | generated formula => formula.holds state
  | beyond => false

/-- Whether every tree of a list is true. -/
def allHold (state : String → Bool) : List Tree → Bool
  | [] => true
  | operand :: operands => operand.holds state && allHold state operands

/-- Whether some tree of a list is true. -/
def anyHolds (state : String → Bool) : List Tree → Bool
  | [] => false
  | operand :: operands => operand.holds state || anyHolds state operands

end

/-! ## Duality -/

mutual

/-- Exchange the two connectives, and atoms with their negations.  Operands
keep their order, and nothing else changes. -/
def dual : Tree → Tree
  | atom string => negation (atom string)
  | negation (atom string) => atom string
  | junction connective operands => junction connective.dual (duals operands)
  | other => other

/-- The duals of a list of trees. -/
def duals : List Tree → List Tree
  | [] => []
  | operand :: operands => operand.dual :: duals operands

end

end Tree

end NamedLogic
