import NamedLogic.Registry.Text
import NamedLogic.Proofs.Unfolding

/-!
# Texts of trees

The text of a node is the text of its tree: it spells out the strings of atoms
and of names that stand for nothing, and never the names of compound parts.
-/

namespace NamedLogic

namespace Tree

mutual

/-- The text of a tree.  What lies beyond the levels unfolded is left out. -/
def text : Tree → String
  | atom string => string
  | unresolved string => "?" ++ string
  | absent => "∅"
  | negation operand => "¬" ++ operand.text
  | junction connective operands =>
      "(" ++ connective.separator.intercalate (texts operands) ++ ")"
  | implication antecedent consequent =>
      "(" ++ antecedent.text ++ " → " ++ consequent.text ++ ")"
  | generated formula => formula.text
  | beyond => "…"

/-- The texts of a list of trees. -/
def texts : List Tree → List String
  | [] => []
  | operand :: operands => operand.text :: texts operands

end

theorem texts_eq_map (operands : List Tree) :
    texts operands = operands.map text := by
  induction operands with
  | nil => rfl
  | cons operand operands inductionHypothesis =>
      rw [texts, inductionHypothesis, List.map_cons]

end Tree

namespace Registry

section NodeText

variable (registry : Registry)

/-- The text in the place of an operand. -/
def operandText (levels : Nat) (name : Name) : String :=
  match registry.referent? name with
  | some operand => registry.nodeText levels operand
  | none => "?" ++ registry.string name

theorem nodeText_succ (levels : Nat) (node : Node) :
    registry.nodeText (levels + 1) node =
      match node.body with
      | .atom => registry.string node.name
      | .negation operand => "¬" ++ registry.operandText levels operand
      | .junction connective operands =>
          "(" ++ connective.separator.intercalate
            (operands.map (registry.operandText levels)) ++ ")"
      | .implication antecedent consequent =>
          "(" ++ (antecedent.map (registry.operandText levels)).getD "∅" ++
            " → " ++
            (consequent.map (registry.operandText levels)).getD "∅" ++ ")"
      | .dnf _ _ generated =>
          match generated.bind registry.node? with
          | some formula => registry.nodeText levels formula
          | none => "∅" := by
  rw [nodeText]
  rfl

/-- The text in the place of an operand is that of its tree, a gap included. -/
theorem operandText_eq_text
    {levels : Nat}
    (nodes : ∀ node,
      registry.nodeText levels node = (registry.unfold levels node).text) :
    registry.operandText levels = Tree.text ∘ registry.nameTree levels := by
  funext name
  cases stands : registry.referent? name with
  | none =>
      simp [operandText, stands, nameTree_of_no_referent stands, Tree.text]
  | some operand =>
      simp [operandText, stands, nameTree_of_referent stands, nodes]

/-- The text in the place of a side is that of its tree, also if the side is
missing. -/
theorem getD_map_text (levels : Nat) (side : Option Name) :
    (side.map (Tree.text ∘ registry.nameTree levels)).getD "∅" =
      (registry.sideTree levels side).text := by
  cases side <;> rfl

/-- The text of a node is the text of its tree. -/
theorem nodeText_eq_text (levels : Nat) (node : Node) :
    registry.nodeText levels node = (registry.unfold levels node).text := by
  induction levels generalizing node with
  | zero => rfl
  | succ levels inductionHypothesis =>
      rw [nodeText_succ, registry.operandText_eq_text inductionHypothesis]
      cases body : node.body with
      | atom => rw [unfold_atom body, Tree.text]
      | negation operand =>
          rw [unfold_negation body, Tree.text]
          rfl
      | junction connective operands =>
          rw [unfold_junction body, Tree.text, Tree.texts_eq_map,
            List.map_map]
      | implication antecedent consequent =>
          rw [unfold_implication body, Tree.text]
          dsimp only
          rw [getD_map_text, getD_map_text]
      | dnf atoms rows recorded =>
          rw [unfold_dnf body, Tree.text, recordedTree]
          dsimp only
          cases recorded.bind registry.node? with
          | none => rfl
          | some formula => exact inductionHypothesis formula

theorem text_eq_text_unfold
    {key : Key} {node : Node} (stored : registry.node? key = some node) :
    registry.text key =
      (registry.unfold (registry.levels 0) node).text := by
  rw [text, stored]
  exact registry.nodeText_eq_text _ node

end NodeText

end Registry

end NamedLogic
