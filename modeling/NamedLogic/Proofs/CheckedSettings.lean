import NamedLogic.Assignment
import NamedLogic.Proofs.Valuations

/-!
# Checked settings

A checked setting takes nothing away from an assignment.  Where the value to be set
contradicts what is known, it is set in a copy; elsewhere it is known already or new,
and is set in place.  Hence what an assignment gives grows along every sequence of
checked settings.
-/

namespace NamedLogic

namespace Assignment

variable {V : Type} {assignment : Assignment V} {name : String}
  {value : Option V}

/-- The name has a value other than the given one, which may be no value. -/
def Contradicts
    (assignment : Assignment V) (name : String) (value : Option V) : Prop :=
  ∃ present, assignment.valuation.get? name = some present ∧
    some present ≠ value

/-! ## Single settings -/

theorem get?_assign
    (assignment : Assignment V) (name other : String) (value : Option V) :
    (assignment.assign name value).valuation.get? other =
      if other = name then value else assignment.valuation.get? other :=
  Valuation.get?_assign assignment.valuation name other value

/-- What does not contradict an assignment may be set in it. -/
theorem extends_assign
    (agreeing : ¬ assignment.Contradicts name value) :
    assignment.valuation.Extends
      (assignment.assign name value).valuation := by
  intro other present given
  rw [get?_assign]
  by_cases same : other = name
  · subst same
    rw [if_pos rfl]
    by_contra different
    exact agreeing ⟨present, given, Ne.symm different⟩
  · rw [if_neg same]
    exact given

variable [DecidableEq V]

/-- A value that contradicts the assignment is set in a copy. -/
theorem run_assignChecked_of_contradicts
    (contradicts : assignment.Contradicts name value) (supply : IdSupply) :
    (assignment.assignChecked name value).run supply =
      ((some (assign { assignment with id := supply.next } name value),
        assignment), { next := supply.next + 1 }) := by
  obtain ⟨present, given, different⟩ := contradicts
  unfold assignChecked
  rw [given]
  dsimp only
  rw [if_neg different]
  rfl

/-- Any other value is set in place. -/
theorem run_assignChecked_of_agreeing
    (agreeing : ¬ assignment.Contradicts name value) (supply : IdSupply) :
    (assignment.assignChecked name value).run supply =
      ((none, assignment.assign name value), supply) := by
  unfold assignChecked
  cases given : assignment.valuation.get? name with
  | none => rfl
  | some present =>
      have same : some present = value := by
        by_contra different
        exact agreeing ⟨present, given, different⟩
      dsimp only
      rw [if_pos same]
      rfl

/-- One checked setting keeps every value. -/
theorem extends_assignChecked
    (assignment : Assignment V) (name : String) (value : Option V)
    (supply : IdSupply) :
    assignment.valuation.Extends
      ((assignment.assignChecked name value).run supply).1.2.valuation := by
  by_cases contradicts : assignment.Contradicts name value
  · rw [run_assignChecked_of_contradicts contradicts]
    exact .refl assignment.valuation
  · rw [run_assignChecked_of_agreeing contradicts]
    exact extends_assign contradicts

/-! ## Sequences of settings -/

/-- What becomes of an assignment by a sequence of checked settings, the copies
being left aside. -/
def assignAllChecked
    (assignment : Assignment V) :
    List (String × Option V) → StateM IdSupply (Assignment V)
  | [] => pure assignment
  | (name, value) :: rest => do
      let (_, kept) ← assignment.assignChecked name value
      kept.assignAllChecked rest

theorem run_assignAllChecked_append
    (assignment : Assignment V) (early late : List (String × Option V))
    (supply : IdSupply) :
    (assignment.assignAllChecked (early ++ late)).run supply =
      let middle := (assignment.assignAllChecked early).run supply
      (middle.1.assignAllChecked late).run middle.2 := by
  induction early generalizing assignment supply with
  | nil => rfl
  | cons setting early inductionHypothesis =>
      exact inductionHypothesis _ _

/-- A sequence of checked settings keeps every value. -/
theorem extends_assignAllChecked
    (assignment : Assignment V) (settings : List (String × Option V))
    (supply : IdSupply) :
    assignment.valuation.Extends
      ((assignment.assignAllChecked settings).run supply).1.valuation := by
  induction settings generalizing assignment supply with
  | nil => exact .refl assignment.valuation
  | cons setting settings inductionHypothesis =>
      obtain ⟨name, value⟩ := setting
      exact (extends_assignChecked assignment name value supply).trans
        (inductionHypothesis _ _)

/-- A longer part of a sequence keeps every value that a shorter one gives. -/
theorem extends_of_take_le
    (assignment : Assignment V) (settings : List (String × Option V))
    (supply : IdSupply) {shorter longer : Nat} (order : shorter ≤ longer) :
    ((assignment.assignAllChecked
        (settings.take shorter)).run supply).1.valuation.Extends
      ((assignment.assignAllChecked
        (settings.take longer)).run supply).1.valuation := by
  obtain ⟨more, rfl⟩ := Nat.exists_eq_add_of_le order
  rw [List.take_add, run_assignAllChecked_append]
  exact extends_assignAllChecked _ _ _

/-- Along a sequence of checked settings what an assignment gives after a longer
part extends what it gives after a shorter one.  A setting makes a copy exactly if the
name has another value than the one to be set.  The assignment then stays as it is,
and the copy differs from it in the value of the name only; otherwise the value is
set in the assignment itself. -/
theorem checked_settings_keep_values
    (assignment : Assignment V) (settings : List (String × Option V))
    (supply : IdSupply) :
    let after count :=
      (assignment.assignAllChecked (settings.take count)).run supply
    (∀ shorter longer, shorter ≤ longer →
      (after shorter).1.valuation.Extends (after longer).1.valuation) ∧
    ∀ count name value, settings[count]? = some (name, value) →
      let present := (after count).1
      let outcome :=
        ((present.assignChecked name value).run (after count).2).1
      (after (count + 1)).1 = outcome.2 ∧
      (outcome.1.isSome ↔ ∃ known,
        present.valuation.get? name = some known ∧ some known ≠ value) ∧
      (∀ fork, outcome.1 = some fork → outcome.2 = present ∧
        ∀ other, fork.valuation.get? other =
          if other = name then value else present.valuation.get? other) ∧
      (outcome.1 = none → outcome.2.id = present.id ∧
        ∀ other, outcome.2.valuation.get? other =
          if other = name then value
          else present.valuation.get? other) := by
  intro after
  refine ⟨fun _ _ => extends_of_take_le assignment settings supply, ?_⟩
  intro count name value position present outcome
  constructor
  · have next : settings.take (count + 1) =
        settings.take count ++ [(name, value)] := by
      rw [List.take_add_one, position]
      rfl
    change ((assignment.assignAllChecked
      (settings.take (count + 1))).run supply).1 = outcome.2
    rw [next, run_assignAllChecked_append]
    rfl
  · by_cases contradicts : present.Contradicts name value
    · have made : outcome = (some (assign { present with
          id := (after count).2.next } name value), present) :=
        congrArg Prod.fst (run_assignChecked_of_contradicts contradicts _)
      rw [made]
      refine ⟨⟨fun _ => contradicts, fun _ => rfl⟩, ?_, nofun⟩
      intro fork copied
      obtain rfl := Option.some.inj copied
      exact ⟨rfl, fun other => get?_assign _ name other value⟩
    · have made : outcome = (none, present.assign name value) :=
        congrArg Prod.fst (run_assignChecked_of_agreeing contradicts _)
      rw [made]
      refine ⟨⟨nofun, fun known => (contradicts known).elim⟩, nofun, ?_⟩
      exact fun _ => ⟨rfl, fun other => get?_assign _ name other value⟩

/-- A new value is set in place, and taking it away again takes it from a copy. -/
theorem checked_settings_keep_new_value :
    let assignment : Assignment Bool :=
      { id := 0, valuation := .ofList [("a", true)] }
    let settings := [("b", some false), ("a", some false), ("b", none)]
    let after count : Assignment Bool × IdSupply :=
      (assignment.assignAllChecked (settings.take count)).run { next := 1 }
    (after 1).1.valuation.Extends (after 3).1.valuation ∧
      (after 3).1 = (after 2).1 ∧
      ∃ fork, (((after 2).1.assignChecked "b" none).run (after 2).2).1.1 =
          some fork ∧
        fork.valuation.get? "b" = none ∧
        fork.valuation.get? "a" = some true := by
  intro assignment settings after
  obtain ⟨grows, single⟩ :=
    assignment.checked_settings_keep_values settings { next := 1 }
  obtain ⟨next, copies, copied, _⟩ := single 2 "b" none rfl
  have known : (after 2).1.valuation.get? "b" = some false := by
    decide +kernel
  obtain ⟨fork, copy⟩ := Option.isSome_iff_exists.mp
    (copies.mpr ⟨false, known, by decide⟩)
  obtain ⟨kept, values⟩ := copied fork copy
  refine ⟨grows 1 3 (by decide), next.trans kept, fork, copy,
    values "b", (values "a").trans ?_⟩
  decide +kernel

end Assignment

end NamedLogic
