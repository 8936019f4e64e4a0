import NamedLogic.Registry.Basic

/-!
# Formulas as text

The text of a formula spells out every operand in its place.  Names that
stand for nothing are marked by `?`, a missing formula is written `∅`, and a
traversal that runs out of levels ends in `…`.
-/

namespace NamedLogic

/-- What is written between the operands of a junction. -/
def Connective.separator : Connective → String
  | .conjunction => " ∧ "
  | .disjunction => " ∨ "

namespace Registry

/-- The text of a node, descending through at most the given number of
levels. -/
def nodeText (registry : Registry) : (levels : Nat) → Node → String
  | 0, _ => "…"
  | levels + 1, node =>
      let operandText (name : Name) : String :=
        match registry.referent? name with
        | some operand => registry.nodeText levels operand
        | none => "?" ++ registry.string name
      match node.body with
      | .atom => registry.string node.name
      | .negation operand => "¬" ++ operandText operand
      | .junction connective operands =>
          "(" ++ connective.separator.intercalate (operands.map operandText) ++
            ")"
      | .implication antecedent consequent =>
          "(" ++ (antecedent.map operandText).getD "∅" ++ " → " ++
            (consequent.map operandText).getD "∅" ++ ")"
      | .dnf _ _ generated =>
          match generated.bind registry.node? with
          | some formula => registry.nodeText levels formula
          | none => "∅"

/-- The text of the formula stored under a key. -/
def text (registry : Registry) (key : Key) : String :=
  match registry.node? key with
  | some node => registry.nodeText (registry.levels 0) node
  | none => "∅"

end Registry

end NamedLogic
