import NamedLogic.Proofs.TreeHeight

/-!
# The tiers of a tree

Simplification passes an atom and the negation of an atom in one step, though
the latter is higher by a level.  The tiers of a tree count the steps: dual
trees have equally many, and so do a negation and its operand.
-/

namespace NamedLogic

namespace Tree

mutual

/-- The number of tiers of a tree.  A literal takes up one, and a junction one
more than its operands. -/
def tiers : Tree → Nat
  | junction _ operands => tiersAmong operands + 1
  | negation operand => operand.tiers
  | _ => 1

/-- The greatest number of tiers in a list of trees. -/
def tiersAmong : List Tree → Nat
  | [] => 0
  | operand :: operands => max operand.tiers (tiersAmong operands)

end

theorem tiersAmong_eq_foldr (operands : List Tree) :
    tiersAmong operands = (operands.map tiers).foldr max 0 := by
  induction operands with
  | nil => rfl
  | cons operand operands inductionHypothesis =>
      rw [tiersAmong, inductionHypothesis, List.map_cons, List.foldr_cons]

theorem tiersAmong_le_iff {operands : List Tree} {bound : Nat} :
    tiersAmong operands ≤ bound ↔
      ∀ operand ∈ operands, operand.tiers ≤ bound := by
  induction operands with
  | nil => simp [tiersAmong]
  | cons operand operands inductionHypothesis =>
      simp [tiersAmong, inductionHypothesis]

theorem tiers_junction_le_iff
    {connective : Connective} {operands : List Tree} {bound : Nat} :
    (junction connective operands).tiers ≤ bound + 1 ↔
      ∀ operand ∈ operands, operand.tiers ≤ bound := by
  rw [tiers, Nat.add_le_add_iff_right, tiersAmong_le_iff]

theorem tiers_pos (tree : Tree) : 0 < tree.tiers := by
  induction tree using Tree.inductionOn with
  | junction => exact Nat.succ_pos _
  | negation operand inductionHypothesis => exact inductionHypothesis
  | _ => exact Nat.one_pos

/-- Exchanging connectives and literals keeps the tiers. -/
theorem tiers_dual (tree : Tree) : tree.dual.tiers = tree.tiers := by
  induction tree using Tree.inductionOn with
  | junction connective operands inductionHypothesis =>
      have same : operands.map (tiers ∘ dual) = operands.map tiers :=
        List.map_congr_left inductionHypothesis
      rw [dual_junction, tiers, tiers, tiersAmong_eq_foldr,
        tiersAmong_eq_foldr, List.map_map, same]
  | negation operand => cases operand <;> rfl
  | _ => rfl

theorem tiers_le_of_mem_contributed
    {connective : Connective} {tree operand : Tree}
    (member : operand ∈ tree.contributed connective) :
    operand.tiers ≤ tree.tiers := by
  cases tree with
  | junction inner operands =>
      rw [contributed] at member
      split at member
      · have shallow := tiersAmong_le_iff.mp (Nat.le_refl _) operand member
        exact shallow.trans (Nat.le_succ _)
      · rw [List.mem_singleton.mp member]
  | _ => rw [List.mem_singleton.mp member]

theorem NegationNormal.tiers_le_height
    {tree : Tree} (negationNormal : tree.NegationNormal) :
    tree.tiers ≤ tree.height := by
  induction negationNormal with
  | positive => exact Nat.le_refl _
  | negative => exact Nat.le_succ _
  | joined _ inductionHypothesis =>
      rw [height, tiers_junction_le_iff]
      exact fun operand member => (inductionHypothesis operand member).trans
        (heightAmong_le_iff.mp (Nat.le_refl _) operand member)

end Tree

end NamedLogic
