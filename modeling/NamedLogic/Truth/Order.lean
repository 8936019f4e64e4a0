import Mathlib.Order.BooleanAlgebra.Basic
import NamedLogic.Truth.Four

/-!
# The truth ordering of the four values

A value is below another if it has no evidence for truth that the other lacks,
and lacks no evidence for falsity that the other has.  The values form a lattice
between evidence for falsity alone and evidence for truth alone, with conjunction
for its meet and disjunction for its join.
-/

namespace NamedLogic

namespace Four

instance : PartialOrder Four where
  le first second :=
    first.forTruth ≤ second.forTruth ∧ second.forFalsity ≤ first.forFalsity
  le_refl _ := ⟨le_rfl, le_rfl⟩
  le_trans _ _ _ lower upper :=
    ⟨lower.1.trans upper.1, upper.2.trans lower.2⟩
  le_antisymm first second below above := by
    obtain ⟨_, _⟩ := first
    obtain ⟨_, _⟩ := second
    exact congrArg₂ _ (le_antisymm below.1 above.1)
      (le_antisymm above.2 below.2)

instance : Lattice Four where
  inf := conjunct
  sup := disjunct
  inf_le_left _ _ := ⟨inf_le_left, le_sup_left⟩
  inf_le_right _ _ := ⟨inf_le_right, le_sup_right⟩
  le_inf _ _ _ left right :=
    ⟨le_inf left.1 right.1, sup_le left.2 right.2⟩
  le_sup_left _ _ := ⟨le_sup_left, inf_le_left⟩
  le_sup_right _ _ := ⟨le_sup_right, inf_le_right⟩
  sup_le _ _ _ left right :=
    ⟨sup_le left.1 right.1, le_inf left.2 right.2⟩

instance : BoundedOrder Four where
  top := truth
  le_top _ := ⟨le_top, bot_le⟩
  bot := falsity
  bot_le _ := ⟨bot_le, le_top⟩

/-- A meet has evidence for truth if both values have. -/
theorem forTruth_inf (first second : Four) :
    (first ⊓ second).forTruth = (first.forTruth && second.forTruth) := rfl

/-- A join has evidence for truth if either value has. -/
theorem forTruth_sup (first second : Four) :
    (first ⊔ second).forTruth = (first.forTruth || second.forTruth) := rfl

end Four

end NamedLogic
