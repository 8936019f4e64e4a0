import NamedLogic.Registry.Alike
import NamedLogic.Registry.ReferenceGraph
import NamedLogic.Proofs.ShiftedKeys
import NamedLogic.Proofs.TreeText
import NamedLogic.Proofs.TreeValue
import NamedLogic.Proofs.UnfoldingLevels

/-!
# Traversals of registries with shifted keys

Formulas unfold to the same trees when all keys are shifted, so that they have
the same values and texts.  Structural equality compares names rather than
their strings, and so is followed on its own; so are references between names,
which never involve keys.
-/

namespace NamedLogic

namespace Registry

section Trees

variable (registry : Registry) (offset : Nat)

theorem shift_bind_referent? (side : Option Name) :
    side.bind (registry.shift offset).referent? =
      (side.bind registry.referent?).map
        (Node.rekey (Key.shift offset)) := by
  cases side with
  | none => rfl
  | some name => exact shift_referent? registry offset name

theorem shift_bind_node? (recorded : Option Key) :
    (recorded.map (Key.shift offset)).bind
        (registry.shift offset).node? =
      (recorded.bind registry.node?).map (Node.rekey (Key.shift offset)) := by
  cases recorded with
  | none => rfl
  | some key => exact shift_node? registry offset key

/-- The tree of a node is the same with shifted keys. -/
theorem shift_unfold (levels : Nat) (node : Node) :
    (registry.shift offset).unfold levels (node.rekey (Key.shift offset)) =
      registry.unfold levels node := by
  induction levels generalizing node with
  | zero => rfl
  | succ levels inductionHypothesis =>
      have names : (registry.shift offset).nameTree levels =
          registry.nameTree levels := by
        funext name
        unfold nameTree
        rw [shift_referent?, shift_string]
        cases registry.referent? name with
        | none => rfl
        | some operand => exact inductionHypothesis operand
      obtain ⟨name, owner, body⟩ := node
      cases body with
      | atom => rfl
      | negation operand =>
          rw [unfold_negation rfl, unfold_negation rfl, names]
      | junction connective operands =>
          rw [unfold_junction rfl, unfold_junction rfl, names]
      | implication antecedent consequent =>
          rw [unfold_implication rfl, unfold_implication rfl]
          unfold sideTree
          rw [names]
      | dnf atoms rows recorded =>
          rw [unfold_dnf rfl, unfold_dnf rfl]
          unfold recordedTree
          rw [shift_bind_node?]
          cases recorded.bind registry.node? with
          | none => rfl
          | some formula =>
              exact congrArg Tree.generated (inductionHypothesis formula)

section Values

variable {V : Type} [Interpretation V] [Extensional V]
  (valuation : Valuation V)

theorem shift_nodeValue (levels : Nat) (node : Node) :
    (registry.shift offset).nodeValue valuation levels
        (node.rekey (Key.shift offset)) =
      registry.nodeValue valuation levels node := by
  rw [nodeValue_eq_value, shift_unfold, nodeValue_eq_value]

theorem shift_evaluate (key : Key) :
    (registry.shift offset).evaluate valuation (key.shift offset) =
      registry.evaluate valuation key := by
  unfold evaluate
  rw [shift_node?]
  cases registry.node? key with
  | none => rfl
  | some node => exact shift_nodeValue registry offset valuation _ node

theorem shift_nameValue (depth : Nat) (name : Option Name) :
    (registry.shift offset).nameValue valuation depth name =
      registry.nameValue valuation depth name := by
  unfold nameValue
  rw [shift_bind_referent?]
  cases name.bind registry.referent? with
  | none => rfl
  | some node => exact shift_nodeValue registry offset valuation _ node

end Values

theorem shift_text (key : Key) :
    (registry.shift offset).text (key.shift offset) = registry.text key := by
  unfold text
  rw [shift_node?]
  cases registry.node? key with
  | none => rfl
  | some node =>
      dsimp only [Option.map_some]
      rw [nodeText_eq_text, shift_unfold, nodeText_eq_text, shift_levels]

/-! ## Structural equality -/

theorem shift_nodesAlike (levels : Nat) (left right : Node) :
    (registry.shift offset).nodesAlike levels
        (left.rekey (Key.shift offset)) (right.rekey (Key.shift offset)) =
      registry.nodesAlike levels left right := by
  induction levels generalizing left right with
  | zero => rfl
  | succ levels inductionHypothesis =>
      have sides : ∀ first second,
          (registry.shift offset).sidesAlike levels first second =
            registry.sidesAlike levels first second := by
        intro first second
        unfold sidesAlike
        rw [shift_bind_referent?, shift_bind_referent?]
        cases first.bind registry.referent? with
        | none => cases second.bind registry.referent? <;> rfl
        | some first =>
            cases second.bind registry.referent? with
            | none => rfl
            | some second => exact inductionHypothesis first second
      cases leftBody : left.body with
      | dnf atoms rows recorded =>
          rw [nodesAlike_dnf_left (by rw [Node.rekey_body, leftBody]; rfl),
            nodesAlike_dnf_left leftBody, shift_bind_node?, Option.any_map]
          exact congrArg (Option.any · _)
            (funext fun formula => inductionHypothesis formula right)
      | _ =>
          cases rightBody : right.body with
          | dnf atoms rows recorded =>
              rw [nodesAlike_dnf_right (by simp [leftBody, Body.rekey])
                  (by rw [Node.rekey_body, rightBody]; rfl),
                nodesAlike_dnf_right (by simp [leftBody]) rightBody,
                shift_bind_node?, Option.any_map]
              exact congrArg (Option.any · _)
                (funext fun formula => inductionHypothesis left formula)
          | _ =>
              rw [nodesAlike_succ, nodesAlike_succ, Node.rekey_body,
                Node.rekey_body, leftBody, rightBody]
              simp only [Body.rekey, Node.rekey_name, sides]

theorem shift_alike (left right : Key) :
    (registry.shift offset).alike (left.shift offset) (right.shift offset) =
      registry.alike left right := by
  unfold alike
  rw [shift_node?, shift_node?]
  cases registry.node? left with
  | none => cases registry.node? right <;> rfl
  | some leftNode =>
      cases registry.node? right with
      | none => rfl
      | some rightNode => exact shift_nodesAlike registry offset _ _ _

/-! ## References -/

theorem shift_referencesOf :
    (registry.shift offset).referencesOf = registry.referencesOf := by
  funext name
  unfold referencesOf
  rw [shift_referent?, Option.map_map]
  exact congrArg (fun shown => (Option.map shown _).getD [])
    (funext fun node => node.rekey_references _)

theorem shift_standing :
    (registry.shift offset).standing = registry.standing := by
  unfold standing
  rw [shift_bindings_size]
  refine List.filter_congr fun name _ => ?_
  rw [shift_referent?, Option.isSome_map]

theorem shift_cyclicNames :
    (registry.shift offset).cyclicNames = registry.cyclicNames := by
  unfold cyclicNames referenceNodes reachedFrom
  rw [shift_referencesOf, shift_standing]
  rfl

theorem shift_referenceGraph :
    (registry.shift offset).referenceGraph = registry.referenceGraph := by
  unfold referenceGraph graphOf
  rw [shift_bindings_size]
  refine congrArg (List.foldl · _ _) (funext₂ fun graph name => ?_)
  rw [shift_referent?]
  cases registry.referent? name with
  | none => rfl
  | some node =>
      exact congrArg (graph.addName name) (node.rekey_references _)

end Trees

end Registry

end NamedLogic
