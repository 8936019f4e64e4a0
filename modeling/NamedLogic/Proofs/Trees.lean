import NamedLogic.Tree

/-!
# Induction on trees

A tree is built from the trees of its operands, which come in a list.  What
recursions say of lists of operands is restated by the usual functions on
lists, so that proofs go by induction on trees alone.
-/

namespace NamedLogic

theorem Connective.dual_dual (connective : Connective) :
    connective.dual.dual = connective := by
  cases connective <;> rfl

theorem Connective.dual_injective
    {first second : Connective} (same : first.dual = second.dual) :
    first = second := by
  rw [← first.dual_dual, same, second.dual_dual]

namespace Tree

/-- Induction on a tree, with one hypothesis for each operand of a junction. -/
theorem inductionOn
    {motive : Tree → Prop}
    (tree : Tree)
    (atom : ∀ string, motive (.atom string))
    (unresolved : ∀ string, motive (.unresolved string))
    (absent : motive .absent)
    (negation : ∀ operand, motive operand → motive (.negation operand))
    (junction : ∀ connective operands,
      (∀ operand ∈ operands, motive operand) →
        motive (.junction connective operands))
    (implication : ∀ antecedent consequent, motive antecedent →
      motive consequent → motive (.implication antecedent consequent))
    (generated : ∀ formula, motive formula → motive (.generated formula))
    (beyond : motive .beyond) :
    motive tree := by
  refine @Tree.rec motive
    (fun operands => ∀ operand ∈ operands, motive operand)
    atom unresolved absent negation junction implication generated beyond
    ?_ ?_ tree
  · intro operand member
    cases member
  · intro head tail headHypothesis tailHypothesis operand member
    rcases List.mem_cons.mp member with rfl | later
    · exact headHypothesis
    · exact tailHypothesis operand later

/-! ## Lists of operands -/

theorem allHold_eq_all (state : String → Bool) (operands : List Tree) :
    allHold state operands = operands.all (holds state) := by
  induction operands with
  | nil => rfl
  | cons operand operands inductionHypothesis =>
      rw [allHold, inductionHypothesis, List.all_cons]

theorem anyHolds_eq_any (state : String → Bool) (operands : List Tree) :
    anyHolds state operands = operands.any (holds state) := by
  induction operands with
  | nil => rfl
  | cons operand operands inductionHypothesis =>
      rw [anyHolds, inductionHypothesis, List.any_cons]

theorem duals_eq_map (operands : List Tree) :
    duals operands = operands.map dual := by
  induction operands with
  | nil => rfl
  | cons operand operands inductionHypothesis =>
      rw [duals, inductionHypothesis, List.map_cons]

theorem dual_junction (connective : Connective) (operands : List Tree) :
    (junction connective operands).dual =
      junction connective.dual (operands.map dual) := by
  rw [dual, duals_eq_map]

/-- The truth of a junction by the truth of its operands. -/
def joined : Connective → List Bool → Bool
  | .conjunction, values => values.all id
  | .disjunction, values => values.any id

/-- The truth of a junction depends only on which values its operands have. -/
theorem joined_eq_of_mem_iff
    {connective : Connective} {first second : List Bool}
    (same : ∀ value, value ∈ first ↔ value ∈ second) :
    joined connective first = joined connective second := by
  rw [Bool.eq_iff_iff]
  cases connective <;> simp [joined, same]

theorem holds_junction
    (state : String → Bool) (connective : Connective)
    (operands : List Tree) :
    (junction connective operands).holds state =
      joined connective (operands.map (holds state)) := by
  cases connective with
  | conjunction =>
      simp only [holds, allHold_eq_all, joined, List.all_map,
        Function.id_comp]
  | disjunction =>
      simp only [holds, anyHolds_eq_any, joined, List.any_map,
        Function.id_comp]

/-! ## Conditions on all parts of a tree -/

mutual

/-- Whether every part of a tree, the tree itself included, meets a
condition. -/
def Every (meets : Tree → Prop) : Tree → Prop
  | atom string => meets (atom string)
  | unresolved string => meets (unresolved string)
  | absent => meets absent
  | negation operand => meets (negation operand) ∧ operand.Every meets
  | junction connective operands =>
      meets (junction connective operands) ∧ EveryAmong meets operands
  | implication antecedent consequent =>
      meets (implication antecedent consequent) ∧
        antecedent.Every meets ∧ consequent.Every meets
  | generated formula => meets (generated formula) ∧ formula.Every meets
  | beyond => meets beyond

/-- Whether every part of every tree in a list meets a condition. -/
def EveryAmong (meets : Tree → Prop) : List Tree → Prop
  | [] => True
  | operand :: operands =>
      operand.Every meets ∧ EveryAmong meets operands

end

theorem everyAmong_iff {meets : Tree → Prop} {operands : List Tree} :
    EveryAmong meets operands ↔
      ∀ operand ∈ operands, operand.Every meets := by
  induction operands with
  | nil => simp [EveryAmong]
  | cons operand operands inductionHypothesis =>
      simp [EveryAmong, inductionHypothesis]

theorem every_junction_iff
    {meets : Tree → Prop} {connective : Connective} {operands : List Tree} :
    (junction connective operands).Every meets ↔
      meets (junction connective operands) ∧
        ∀ operand ∈ operands, operand.Every meets := by
  rw [Every, everyAmong_iff]

theorem Every.imp
    {weaker stronger : Tree → Prop} {tree : Tree}
    (every : tree.Every stronger)
    (implies : ∀ part, stronger part → weaker part) :
    tree.Every weaker := by
  induction tree using Tree.inductionOn with
  | atom | unresolved | absent | beyond => exact implies _ every
  | negation operand inductionHypothesis =>
      exact ⟨implies _ every.1, inductionHypothesis every.2⟩
  | junction connective operands inductionHypothesis =>
      obtain ⟨whole, parts⟩ := every_junction_iff.mp every
      exact every_junction_iff.mpr ⟨implies _ whole, fun operand member =>
        inductionHypothesis operand member (parts operand member)⟩
  | implication antecedent consequent premise conclusion =>
      exact ⟨implies _ every.1, premise every.2.1, conclusion every.2.2⟩
  | generated formula inductionHypothesis =>
      exact ⟨implies _ every.1, inductionHypothesis every.2⟩

end Tree

end NamedLogic
