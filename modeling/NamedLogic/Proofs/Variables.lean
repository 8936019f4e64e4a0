import NamedLogic.Program

/-!
# Variables of a program

What a program finds in a variable is described by what was last put there, and by
the family or world that is asked for.
-/

namespace NamedLogic

/-! ## What is held -/

namespace Holding

variable {holding : Holding} {family : Family}
  {assignment : Assignment family.Value} {world : World}

theorem own?_alone
    (family : Family) (assignment : Assignment family.Value) :
    (alone family assignment).own? family = some assignment := by
  cases family <;> rfl

theorem eq_of_own? (found : holding.own? family = some assignment) :
    holding = .alone family assignment := by
  cases holding with
  | within => cases family <;> cases found
  | alone other held =>
      cases family <;> cases other <;> cases found <;> rfl

theorem eq_of_world? (found : holding.world? = some world) :
    holding = .within world := by
  cases holding with
  | within => exact congrArg within (Option.some.inj found)
  | alone => cases found

/-- An assignment that is read has the identity of what it is read from. -/
theorem id_of_read? (found : holding.read? family = some assignment) :
    holding.id = assignment.id := by
  cases holding with
  | alone other held =>
      cases family <;> cases other <;> cases found <;> rfl
  | within world =>
      cases family <;> cases found
      rfl

end Holding

/-! ## What is found -/

namespace Program

variable {program : Program} {place : Place} {family : Family}
  {assignment : Assignment family.Value} {world : World}

theorem holds_of_own? (found : program.own? family place = some assignment) :
    ∃ held, program.held place = some held ∧
      held.holding = .alone family assignment := by
  obtain ⟨held, here, own⟩ := Option.bind_eq_some_iff.mp found
  exact ⟨held, here, Holding.eq_of_own? own⟩

theorem holds_of_world? (found : program.world? place = some world) :
    ∃ held, program.held place = some held ∧
      held.holding = .within world := by
  obtain ⟨held, here, within⟩ := Option.bind_eq_some_iff.mp found
  exact ⟨held, here, Holding.eq_of_world? within⟩

theorem holds_of_read?
    (found : program.read? family place = some assignment) :
    ∃ held, program.held place = some held ∧
      held.holding.id = assignment.id := by
  obtain ⟨held, here, read⟩ := Option.bind_eq_some_iff.mp found
  exact ⟨held, here, Holding.id_of_read? read⟩

/-! ## What is put into a variable -/

theorem held_hold
    (program : Program) (target place : Place) (content : Option Held) :
    (program.hold target content).held place =
      if place = target then content else program.held place := rfl

/-- What is found was put there, or was there before. -/
theorem held_hold_eq_some_iff
    {target : Place} {content : Option Held} {held : Held} :
    (program.hold target content).held place = some held ↔
      place = target ∧ content = some held ∨
        place ≠ target ∧ program.held place = some held := by
  rw [held_hold]
  by_cases here : place = target
  · simp [here]
  · simp [here]

theorem held_make
    (program : Program) (target place : Place)
    (making : StateM IdSupply Holding) :
    (program.make target making).held place =
      if place = target then
        some ⟨program.made.length, (making.run program.supply).1⟩
      else program.held place := rfl

/-- An assignment that is made is found in its variable. -/
theorem own?_make
    (program : Program) (target : Place) (family : Family)
    (making : StateM IdSupply (Assignment family.Value)) :
    (program.make target (.alone family <$> making)).own? family target =
      some (making.run program.supply).1 := by
  rw [own?, held_make, if_pos rfl]
  exact Holding.own?_alone family _

end Program

end NamedLogic
