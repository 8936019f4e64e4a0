import NamedLogic.Registry.Basic
import NamedLogic.Tree

/-!
# Unfolding nodes into trees

Unfolding a node follows the names of its operands down to atoms.  What it
yields depends on the registry only through the nodes met on the way.
-/

namespace NamedLogic

namespace Registry

/-- The tree of a node, down to the given number of levels. -/
def unfold (registry : Registry) : (levels : Nat) → Node → Tree
  | 0, _ => .beyond
  | levels + 1, node =>
      let nameTree (name : Name) : Tree :=
        match registry.referent? name with
        | some operand => registry.unfold levels operand
        | none => .unresolved (registry.string name)
      match node.body with
      | .atom => .atom (registry.string node.name)
      | .negation operand => .negation (nameTree operand)
      | .junction connective operands =>
          .junction connective (operands.map nameTree)
      | .implication antecedent consequent =>
          .implication ((antecedent.map nameTree).getD .absent)
            ((consequent.map nameTree).getD .absent)
      | .dnf _ _ generated =>
          match generated.bind registry.node? with
          | some formula => .generated (registry.unfold levels formula)
          | none => .generated .absent

/-- One step of a traversal: from a node to what one of its names stands for,
or to the formula generated from it. -/
inductive Descends (registry : Registry) : Node → Node → Prop where
  | operand
      {node operand : Node} {name : Name}
      (named : name ∈ node.lookups)
      (stands : registry.referent? name = some operand) :
      Descends registry node operand
  | generated
      {node formula : Node} {atoms : List Name} {rows : UInt64} {key : Key}
      (body : node.body = .dnf atoms rows (some key))
      (present : registry.node? key = some formula) :
      Descends registry node formula

/-- A node met by a traversal, the first node included. -/
inductive Meets (registry : Registry) : Node → Node → Prop where
  | here (node : Node) : Meets registry node node
  | further
      {node next last : Node}
      (step : Descends registry node next)
      (rest : Meets registry next last) :
      Meets registry node last

end Registry

end NamedLogic
