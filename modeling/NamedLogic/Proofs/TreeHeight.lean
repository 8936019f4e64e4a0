import NamedLogic.Proofs.UnfoldingLevels

/-!
# The height of a tree

The height of a tree is the number of levels it extends through.  A tree that
is not cut off is found as soon as that many levels are unfolded.
-/

namespace NamedLogic

namespace Tree

mutual

/-- The number of levels a tree extends through.  A gap takes up none. -/
def height : Tree → Nat
  | atom _ => 1
  | negation operand => operand.height + 1
  | junction _ operands => heightAmong operands + 1
  | implication antecedent consequent =>
      max antecedent.height consequent.height + 1
  | generated formula => formula.height + 1
  | _ => 0

/-- The greatest height in a list of trees. -/
def heightAmong : List Tree → Nat
  | [] => 0
  | operand :: operands => max operand.height (heightAmong operands)

end

theorem heightAmong_le_iff {operands : List Tree} {bound : Nat} :
    heightAmong operands ≤ bound ↔
      ∀ operand ∈ operands, operand.height ≤ bound := by
  induction operands with
  | nil => simp [heightAmong]
  | cons operand operands inductionHypothesis =>
      simp [heightAmong, inductionHypothesis]

theorem height_junction_le_iff
    {connective : Connective} {operands : List Tree} {bound : Nat} :
    (junction connective operands).height ≤ bound + 1 ↔
      ∀ operand ∈ operands, operand.height ≤ bound := by
  rw [height, Nat.add_le_add_iff_right, heightAmong_le_iff]

end Tree

namespace Registry

section Height

variable {registry : Registry}

theorem height_unfold_pos (levels : Nat) (node : Node) :
    0 < (registry.unfold (levels + 1) node).height := by
  cases body : node.body with
  | atom => simp [unfold_atom body, Tree.height]
  | negation => simp [unfold_negation body, Tree.height]
  | junction => simp [unfold_junction body, Tree.height]
  | implication => simp [unfold_implication body, Tree.height]
  | dnf => simp [unfold_dnf body, Tree.height]

theorem nameTree_eq_of_height_le
    {small large : Nat}
    (nodes : ∀ node : Node, (registry.unfold large node).Settled →
      (registry.unfold large node).height ≤ small →
        registry.unfold small node = registry.unfold large node)
    {name : Name} (settled : (registry.nameTree large name).Settled)
    (shallow : (registry.nameTree large name).height ≤ small) :
    registry.nameTree small name = registry.nameTree large name := by
  cases stands : registry.referent? name with
  | some operand =>
      rw [nameTree_of_referent stands] at settled shallow
      rw [nameTree_of_referent stands, nameTree_of_referent stands,
        nodes operand settled shallow]
  | none =>
      rw [nameTree_of_no_referent stands, nameTree_of_no_referent stands]

theorem sideTree_eq_of_height_le
    {small large : Nat}
    (names : ∀ name, (registry.nameTree large name).Settled →
      (registry.nameTree large name).height ≤ small →
        registry.nameTree small name = registry.nameTree large name)
    {side : Option Name} (settled : (registry.sideTree large side).Settled)
    (shallow : (registry.sideTree large side).height ≤ small) :
    registry.sideTree small side = registry.sideTree large side := by
  cases side with
  | none => rfl
  | some name => exact names name settled shallow

/-- As many levels as the height of a tree show all of it. -/
theorem unfold_eq_of_height_le
    {small large : Nat} {node : Node}
    (settled : (registry.unfold large node).Settled)
    (shallow : (registry.unfold large node).height ≤ small) :
    registry.unfold small node = registry.unfold large node := by
  induction large generalizing small node with
  | zero => exact (settled rfl).elim
  | succ large inductionHypothesis =>
      obtain _ | small := small
      · exact absurd shallow (Nat.not_le.mpr (height_unfold_pos large node))
      have names : ∀ name, (registry.nameTree large name).Settled →
          (registry.nameTree large name).height ≤ small →
            registry.nameTree small name = registry.nameTree large name :=
        fun _ => nameTree_eq_of_height_le
          fun _ => @inductionHypothesis small _
      cases body : node.body with
      | atom => rw [unfold_atom body, unfold_atom body]
      | negation operand =>
          rw [unfold_negation body] at settled shallow
          rw [unfold_negation body, unfold_negation body,
            names operand settled.2 (Nat.le_of_succ_le_succ shallow)]
      | junction connective operands =>
          rw [unfold_junction body] at settled shallow
          obtain ⟨_, parts⟩ := Tree.every_junction_iff.mp settled
          rw [Tree.height_junction_le_iff] at shallow
          rw [unfold_junction body, unfold_junction body]
          refine congrArg _ (List.map_congr_left fun name member => ?_)
          have among := List.mem_map_of_mem (f := registry.nameTree large)
            member
          exact names name (parts _ among) (shallow _ among)
      | implication antecedent consequent =>
          rw [unfold_implication body] at settled shallow
          obtain ⟨premise, conclusion⟩ :=
            Nat.max_le.mp (Nat.le_of_succ_le_succ shallow)
          rw [unfold_implication body, unfold_implication body,
            sideTree_eq_of_height_le names settled.2.1 premise,
            sideTree_eq_of_height_le names settled.2.2 conclusion]
      | dnf atoms rows recorded =>
          rw [unfold_dnf body] at settled shallow
          rw [unfold_dnf body, unfold_dnf body, recordedTree, recordedTree]
          rw [recordedTree] at settled shallow
          cases found : recorded.bind registry.node? with
          | none => rfl
          | some formula =>
              rw [found] at settled shallow
              exact congrArg _ (inductionHypothesis settled.2
                (Nat.le_of_succ_le_succ shallow))

end Height

end Registry

end NamedLogic
