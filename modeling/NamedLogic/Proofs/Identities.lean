import NamedLogic.Proofs.CheckedSettings
import NamedLogic.Proofs.Variables
import NamedLogic.Proofs.WorldHistories

/-!
# Identities of assignments

Identities are drawn from one supply by everything that makes an assignment, also
where it is made on the way, as by a checked setting or the reset of a world.  An
invariant of the record of a run says that the identity of every assignment was
fixed by its number when it was made.
-/

namespace NamedLogic

/-! ## What makes an assignment -/

/-- Something is made that has the next identity of the supply, and no other
identity is drawn. -/
def Draws {α : Type} (identity : α → Nat) (making : StateM IdSupply α) : Prop :=
  ∀ supply : IdSupply,
    identity (making.run supply).1 = supply.next ∧
      (making.run supply).2.next = supply.next + 1

theorem Draws.map
    {α β : Type} {identity : α → Nat} {making : StateM IdSupply α}
    (draws : Draws identity making) {wrap : α → β} {identified : β → Nat}
    (same : ∀ value, identified (wrap value) = identity value) :
    Draws identified (wrap <$> making) := by
  intro supply
  obtain ⟨drawn, left⟩ := draws supply
  exact ⟨(same _).trans drawn, left⟩

namespace Assignment

variable {V : Type}

theorem draws_ofValuation (valuation : Valuation V) :
    Draws Assignment.id (ofValuation valuation) :=
  fun _ => ⟨rfl, rfl⟩

theorem id_change (assignment : Assignment V) (change : Change V) :
    (assignment.change change).id = assignment.id := by
  cases change <;> rfl

end Assignment

namespace World

theorem draws_new (settings : Settings) :
    Draws (fun world => world.current.id) (new settings) :=
  fun _ => ⟨rfl, rfl⟩

theorem draws_reset (world : World) :
    Draws (fun world => world.current.id) world.reset :=
  fun _ => ⟨rfl, rfl⟩

/-- Setting a rule does not touch the current state. -/
theorem current_addRule
    (world : World) (antecedent consequent : Option Key) :
    ((addRule antecedent consequent).run.run world).2.current =
      world.current := by
  rw [addRule, run_bind, run_onRegistry]
  cases ((Registry.implication antecedent consequent).run.run
    world.registry).1 <;> rfl

theorem id_current_change (world : World) (change : Change) :
    (world.change change).current.id = world.current.id := by
  cases change with
  | addRule antecedent consequent =>
      exact congrArg Assignment.id
        (current_addRule world antecedent consequent)
  | operate | addGoal | update | stateFormula => rfl

end World

namespace Program

variable {before middle after program : Program} {start : Nat}
  {place other target source : Place}

/-! ## What an action can do -/

/-- Nothing new is made.  Whatever is held afterwards was held before, with the
same number and identity, and what is in two places was in two places before. -/
structure Carries (before after : Program) : Prop where
  made : after.made = before.made
  supply : after.supply = before.supply
  held : ∃ origin : Place → Place,
    (∀ place held, after.held place = some held →
      ∃ old, before.held (origin place) = some old ∧
        held.number = old.number ∧ held.holding.id = old.holding.id) ∧
    ∀ place other held more, after.held place = some held →
      after.held other = some more → origin place = origin other →
        place = other

/-- An action makes an assignment, as what it is for or on the way. -/
def Makes (program : Program) : Action → Prop
  | .world _ _ | .empty _ _ | .ofList _ _ _ => True
  | .reset target => (program.world? target).isSome
  | .copy _ family source => (program.read? family source).isSome
  | .merge _ family first second =>
      (program.read? family first).isSome ∧
        (program.read? family second).isSome
  | .assignChecked _ target family name value =>
      ∃ assignment, program.own? family target = some assignment ∧
        assignment.Contradicts name value
  | .setCurrent _ _ | .changeWorld _ _ | .change _ _ _ | .forget _ => False

/-- An action that makes no assignment carries on what there is.  One that makes an
assignment carries on what there is and then adds one assignment, which has the next
identity of the supply. -/
inductive Advances (before : Program) (makes : Prop) : Program → Prop where
  | idle {after : Program} (nothing : ¬ makes)
      (carries : before.Carries after) : Advances before makes after
  | making
      {middle : Program} {holding : Holding} {supply : IdSupply}
      (something : makes) (carries : before.Carries middle)
      (target : Place) (drawn : holding.id = before.supply.next)
      (left : supply.next = before.supply.next + 1) :
      Advances before makes (middle.enter target holding supply)

theorem Carries.refl (program : Program) : program.Carries program where
  made := rfl
  supply := rfl
  held := ⟨id, fun _ held here => ⟨held, here, rfl, rfl⟩,
    fun _ _ _ _ _ _ => id⟩

/-- A place may be emptied. -/
theorem carries_forget (program : Program) (target : Place) :
    program.Carries (program.hold target none) := by
  refine ⟨rfl, rfl, id, ?_, fun _ _ _ _ _ _ => id⟩
  intro place held here
  rcases held_hold_eq_some_iff.mp here with ⟨_, nothing⟩ | ⟨_, there⟩
  · cases nothing
  · exact ⟨held, there, rfl, rfl⟩

/-- What is revised keeps its identity. -/
theorem carries_revise
    {old : Held} (there : program.held target = some old)
    {holding : Holding} (same : holding.id = old.holding.id) :
    program.Carries (program.revise target holding) := by
  refine ⟨rfl, rfl, id, ?_, fun _ _ _ _ _ _ => id⟩
  intro place held here
  rw [revise, there] at here
  rcases held_hold_eq_some_iff.mp here with ⟨rfl, revised⟩ | ⟨_, kept⟩
  · cases revised
    exact ⟨old, there, rfl, same⟩
  · exact ⟨held, kept, rfl, rfl⟩

/-- What is moved leaves its place and takes that of something else. -/
theorem carries_move
    {old moved : Held} (there : program.held source = some old)
    (different : source ≠ target) (number : moved.number = old.number)
    (same : moved.holding.id = old.holding.id) :
    program.Carries
      ((program.hold source none).hold target (some moved)) := by
  let origin place := if place = target then source else place
  have origin_target : origin target = source := if_pos rfl
  have origin_other {place : Place} (other : place ≠ target) :
      origin place = place := if_neg other
  -- Nothing is left where the thing moved was before.
  have found : ∀ {place held},
      ((program.hold source none).hold target (some moved)).held place =
        some held →
      place = target ∧ moved = held ∨
        place ≠ target ∧ place ≠ source ∧
          program.held place = some held := by
    intro place held here
    rcases held_hold_eq_some_iff.mp here with ⟨atTarget, put⟩ | ⟨other, left⟩
    · exact Or.inl ⟨atTarget, Option.some.inj put⟩
    · rcases held_hold_eq_some_iff.mp left with ⟨_, nothing⟩ | ⟨kept, old⟩
      · cases nothing
      · exact Or.inr ⟨other, kept, old⟩
  refine ⟨rfl, rfl, origin, ?_, ?_⟩
  · intro place held here
    rcases found here with ⟨rfl, rfl⟩ | ⟨other, _, kept⟩
    · rw [origin_target]
      exact ⟨old, there, number, same⟩
    · rw [origin_other other]
      exact ⟨held, kept, rfl, rfl⟩
  · intro place other held more here also origins
    rcases found here with ⟨rfl, _⟩ | ⟨one, first, _⟩
    · rcases found also with ⟨rfl, _⟩ | ⟨two, second, _⟩
      · rfl
      · rw [origin_target, origin_other two] at origins
        exact (second origins.symm).elim
    · rcases found also with ⟨rfl, _⟩ | ⟨two, second, _⟩
      · rw [origin_target, origin_other one] at origins
        exact (first origins).elim
      · rwa [origin_other one, origin_other two] at origins

section Actions

variable {makes : Prop} (something : makes)

include something

theorem advances_make
    {making : StateM IdSupply Holding} (draws : Draws Holding.id making)
    (program : Program) (target : Place) :
    program.Advances makes (program.make target making) := by
  obtain ⟨drawn, left⟩ := draws program.supply
  exact .making something (.refl program) target drawn left

/-- An assignment of a family is made. -/
theorem advances_alone
    {family : Family} {making : StateM IdSupply (Assignment family.Value)}
    (draws : Draws Assignment.id making) (program : Program)
    (target : Place) :
    program.Advances makes
      (program.make target (.alone family <$> making)) :=
  advances_make something (draws.map fun _ => rfl) program target

/-- A world is made, and with it its current state. -/
theorem advances_within
    {making : StateM IdSupply World}
    (draws : Draws (fun world => world.current.id) making)
    (program : Program) (target : Place) :
    program.Advances makes (program.make target (.within <$> making)) :=
  advances_make something (draws.map fun _ => rfl) program target

end Actions

/-- A checked setting changes an assignment in place or makes a copy of it. -/
theorem advances_assignChecked
    (program : Program) (fork target : Place) (family : Family)
    (name : String) (value : Option family.Value) :
    let action := Action.assignChecked fork target family name value
    program.Advances (program.Makes action) (program.step action) := by
  simp only [step]
  cases found : program.own? family target with
  | none => exact .idle (by simp [Makes, found]) (.refl program)
  | some assignment =>
      obtain ⟨held, there, alone⟩ := holds_of_own? found
      have carries {kept : Assignment family.Value}
          (same : kept.id = assignment.id) :
          program.Carries (program.revise target (.alone family kept)) := by
        apply carries_revise there
        rw [alone]
        exact same
      have makes_iff :
          program.Makes (.assignChecked fork target family name value) ↔
            assignment.Contradicts name value := by
        simp [Makes, found]
      rw [makes_iff]
      dsimp only
      by_cases contradicts : assignment.Contradicts name value
      · rw [Assignment.run_assignChecked_of_contradicts contradicts]
        exact .making contradicts (carries rfl) fork rfl rfl
      · rw [Assignment.run_assignChecked_of_agreeing contradicts]
        exact .idle contradicts (carries rfl)

/-- What an action can do. -/
theorem advances_step (program : Program) (action : Action) :
    program.Advances (program.Makes action) (program.step action) := by
  cases action with
  | world target settings =>
      exact advances_within trivial (World.draws_new settings) program target
  | reset target =>
      simp only [step, Makes]
      cases program.world? target with
      | none => exact .idle nofun (.refl program)
      | some world =>
          exact advances_within rfl (World.draws_reset world) program target
  | setCurrent target source =>
      simp only [step]
      split
      · rename_i world number assignment found there
        obtain ⟨held, here, within⟩ := holds_of_world? found
        have different : source ≠ target := by
          rintro rfl
          rw [there] at here
          cases here
          cases within
        exact .idle id (carries_move there different rfl rfl)
      · exact .idle id (.refl program)
  | changeWorld target change =>
      simp only [step]
      cases found : program.world? target with
      | none => exact .idle id (.refl program)
      | some world =>
          obtain ⟨held, here, within⟩ := holds_of_world? found
          apply Advances.idle id
          apply carries_revise here
          rw [within]
          exact World.id_current_change world change
  | empty target family =>
      exact advances_alone trivial (Assignment.draws_ofValuation _) program
        target
  | ofList target family entries =>
      exact advances_alone trivial (Assignment.draws_ofValuation _) program
        target
  | copy target family source =>
      simp only [step, Makes]
      cases program.read? family source with
      | none => exact .idle nofun (.refl program)
      | some assignment =>
          exact advances_alone rfl
            (Assignment.draws_ofValuation assignment.valuation) program
            target
  | merge target family first second =>
      simp only [step, Makes]
      cases program.read? family first with
      | none => exact .idle nofun (.refl program)
      | some one =>
          cases program.read? family second with
          | none => exact .idle nofun (.refl program)
          | some two =>
              exact advances_alone ⟨rfl, rfl⟩
                (Assignment.draws_ofValuation _) program target
  | change target family change =>
      simp only [step]
      cases found : program.own? family target with
      | none => exact .idle id (.refl program)
      | some assignment =>
          obtain ⟨held, here, alone⟩ := holds_of_own? found
          apply Advances.idle id
          apply carries_revise here
          rw [alone]
          exact assignment.id_change change
  | assignChecked fork target family name value =>
      exact advances_assignChecked program fork target family name value
  | forget target => exact .idle id (carries_forget program target)

theorem made_of_advances
    {makes : Prop} (advances : before.Advances makes after) :
    (makes → after.made = before.made ++ [before.supply.next]) ∧
      (¬ makes → after.made = before.made) := by
  cases advances with
  | idle nothing carries =>
      exact ⟨fun something => (nothing something).elim,
        fun _ => carries.made⟩
  | making something carries target drawn left =>
      refine ⟨fun _ => ?_, fun nothing => (nothing something).elim⟩
      rw [← carries.made, ← drawn]
      rfl

/-! ## The invariant -/

/-- The assignments made so far have the identities that follow the first one, an
assignment has the identity that belongs to its number wherever it is held, and
no assignment is in two places. -/
structure Identified (start : Nat) (program : Program) : Prop where
  made : program.made = List.range' start program.made.length
  next : program.supply.next = start + program.made.length
  known : ∀ {place held}, program.held place = some held →
    held.number < program.made.length ∧
      held.holding.id = start + held.number
  apart : ∀ {place other held more}, program.held place = some held →
    program.held other = some more → held.number = more.number →
      place = other

namespace Identified

theorem initial (start : IdSupply) :
    Identified start.next { supply := start } where
  made := rfl
  next := rfl
  known here := nomatch here
  apart here := nomatch here

variable (identified : before.Identified start)

include identified

theorem of_carries (carries : before.Carries after) :
    after.Identified start := by
  obtain ⟨origin, origins, distinct⟩ := carries.held
  constructor
  case made =>
    rw [carries.made]
    exact identified.made
  case next =>
    rw [carries.made, carries.supply]
    exact identified.next
  case known =>
    intro place held here
    obtain ⟨old, there, number, identity⟩ := origins place held here
    rw [carries.made, number, identity]
    exact identified.known there
  case apart =>
    intro place other held more here there numbers
    obtain ⟨_, first, firstNumber, _⟩ := origins place held here
    obtain ⟨_, second, secondNumber, _⟩ := origins other more there
    apply distinct place other held more here there
    apply identified.apart first second
    rw [← firstNumber, ← secondNumber, numbers]

/-- A new assignment takes the next number and the next identity. -/
theorem enter
    {holding : Holding} {supply : IdSupply} (target : Place)
    (drawn : holding.id = before.supply.next)
    (left : supply.next = before.supply.next + 1) :
    (before.enter target holding supply).Identified start := by
  have next := identified.next
  have length : (before.enter target holding supply).made.length =
      before.made.length + 1 := by
    simp [Program.enter]
  constructor
  case made =>
    rw [length, List.range'_concat, ← identified.made, Nat.one_mul, ← next,
      ← drawn]
    rfl
  case next =>
    rw [length]
    change supply.next = _
    omega
  case known =>
    intro place found here
    rw [length]
    rcases held_hold_eq_some_iff.mp here with ⟨_, made⟩ | ⟨_, kept⟩
    · cases made
      exact ⟨Nat.lt_succ_self _, drawn.trans next⟩
    · obtain ⟨inside, identity⟩ := identified.known kept
      exact ⟨Nat.lt_succ_of_lt inside, identity⟩
  case apart =>
    intro place other found more here there numbers
    rcases held_hold_eq_some_iff.mp here with ⟨rfl, made⟩ | ⟨_, kept⟩
    · rcases held_hold_eq_some_iff.mp there with ⟨rfl, _⟩ | ⟨_, also⟩
      · rfl
      · cases made
        exact absurd numbers (Nat.ne_of_gt (identified.known also).1)
    · rcases held_hold_eq_some_iff.mp there with ⟨rfl, made⟩ | ⟨_, also⟩
      · cases made
        exact absurd numbers (Nat.ne_of_lt (identified.known kept).1)
      · exact identified.apart kept also numbers

theorem of_advances
    {makes : Prop} (advances : before.Advances makes after) :
    after.Identified start := by
  cases advances with
  | idle nothing carries => exact identified.of_carries carries
  | making something carries target drawn left =>
      apply (identified.of_carries carries).enter target
      · rw [carries.supply]
        exact drawn
      · rw [carries.supply]
        exact left

/-- Every action keeps the invariant. -/
theorem step (action : Action) :
    (before.step action).Identified start :=
  identified.of_advances (advances_step before action)

/-- So does every list of actions. -/
theorem foldl (actions : List Action) :
    (actions.foldl Program.step before).Identified start := by
  induction actions generalizing before with
  | nil => exact identified
  | cons action actions inductionHypothesis =>
      exact inductionHypothesis (identified.step action)

/-! ## What the invariant says -/

/-- The identity of an assignment is the one recorded when it was made. -/
theorem made_getElem?
    {held : Held} (here : before.held place = some held) :
    before.made[held.number]? = some held.holding.id := by
  obtain ⟨inside, identity⟩ := identified.known here
  rw [identified.made, List.getElem?_range' inside, identity, Nat.one_mul]

/-- Assignments of one identity are in one place. -/
theorem id_eq_iff
    {held more : Held} (here : before.held place = some held)
    (there : before.held other = some more) :
    held.holding.id = more.holding.id ↔ place = other := by
  constructor
  · intro same
    have one := (identified.known here).2
    have two := (identified.known there).2
    apply identified.apart here there
    omega
  · rintro rfl
    rw [Option.some.inj (here.symm.trans there)]

/-- Assignments that compare equal are in one place. -/
theorem same_iff
    {family : Family} {one two : Assignment family.Value}
    (here : before.read? family place = some one)
    (there : before.read? family other = some two) :
    one.same two = true ↔ place = other := by
  obtain ⟨held, heldHere, idHere⟩ := holds_of_read? here
  obtain ⟨more, heldThere, idThere⟩ := holds_of_read? there
  rw [Assignment.same, beq_iff_eq, ← idHere, ← idThere]
  exact identified.id_eq_iff heldHere heldThere

end Identified

/-! ## Every run -/

/-- In every run the assignments made so far, dropped ones included, have the
identities that follow the first one, each once and in the order of their making.
An action that makes an assignment makes one, with the next identity, and no other
action makes any.  Wherever an assignment is and whatever was done to it, it has the
identity with which it was made, and so two assignments compare equal only if they
are one in one place. -/
theorem identities_are_unique (start : IdSupply) (actions : List Action) :
    let program := run start actions
    program.made = List.range' start.next program.made.length ∧
      program.made.Nodup ∧
      program.supply.next = start.next + program.made.length ∧
      (∀ action,
        (program.Makes action → (program.step action).made =
          program.made ++ [program.supply.next]) ∧
        (¬ program.Makes action →
          (program.step action).made = program.made)) ∧
      (∀ place held, program.held place = some held →
        program.made[held.number]? = some held.holding.id) ∧
      (∀ action place other held later,
        program.held place = some held →
        (program.step action).held other = some later →
        later.number = held.number →
          later.holding.id = held.holding.id) ∧
      (∀ place other held more, program.held place = some held →
        program.held other = some more →
          (held.holding.id = more.holding.id ↔ place = other)) ∧
      ∀ family place other one more,
        program.read? family place = some one →
        program.read? family other = some more →
          (one.same more = true ↔ place = other) := by
  intro program
  have identified : program.Identified start.next :=
    (Identified.initial start).foldl actions
  refine ⟨identified.made, ?_, identified.next,
    fun action => made_of_advances (advances_step program action),
    fun _ _ => identified.made_getElem?, ?_,
    fun _ _ _ _ => identified.id_eq_iff,
    fun _ _ _ _ _ => identified.same_iff⟩
  · rw [identified.made]
    exact List.nodup_range'
  · intro action place other held later here there numbers
    have known := (identified.known here).2
    have laterKnown := ((identified.step action).known there).2
    omega

/-- A state moved into a world and a copy of it have equal values, and remain two
assignments when they are merged and when the copy is changed. -/
theorem identities_of_state_and_copy :
    let assignment id : Assignment Bool :=
      { id, valuation := .ofList [("a", true)] }
    let program := run {}
      [.world 0 {}, .ofList 1 .classical [("a", true)], .copy 2 .classical 1,
        .setCurrent 0 1, .assignChecked 3 2 .classical "a" (some false)]
    let merged := program.step (.merge 4 .classical 0 2)
    let changed := program.step (.change 2 .classical (.replace "a" none))
    program.made = [0, 1, 2, 3] ∧
      merged.made = [0, 1, 2, 3, 4] ∧ changed.made = [0, 1, 2, 3] ∧
      program.read? .classical 0 = some (assignment 1) ∧
      program.read? .classical 2 = some (assignment 2) ∧
      (assignment 1).same (assignment 2) = false ∧
      ∃ copy later, program.held 2 = some copy ∧
        changed.held 2 = some later ∧ later.holding.id = copy.holding.id ∧
        program.made[copy.number]? = some copy.holding.id ∧
        ∃ fork, program.held 3 = some fork ∧
          copy.holding.id ≠ fork.holding.id := by
  intro assignment program merged changed
  obtain ⟨_, _, next, steps, recorded, kept, apart, compared⟩ :=
    identities_are_unique {}
      [.world 0 {}, .ofList 1 .classical [("a", true)], .copy 2 .classical 1,
        .setCurrent 0 1, .assignChecked 3 2 .classical "a" (some false)]
  have made : program.made = [0, 1, 2, 3] := by decide +kernel
  have supply : program.supply.next = 4 := by
    rw [next, made]
    rfl
  have mergedMade : merged.made = program.made ++ [program.supply.next] :=
    (steps (.merge 4 .classical 0 2)).1 ⟨rfl, rfl⟩
  have changedMade : changed.made = program.made :=
    (steps (.change 2 .classical (.replace "a" none))).2 id
  have state : program.read? .classical 0 = some (assignment 1) := rfl
  have read : program.read? .classical 2 = some (assignment 2) := rfl
  have copy : program.held 2 =
      some ⟨2, .alone .classical (assignment 2)⟩ := rfl
  have later : changed.held 2 = some ⟨2, .alone .classical
      ((assignment 2).change (.replace "a" none))⟩ := rfl
  have fork : program.held 3 = some ⟨3, .alone .classical
      ((assignment 3).assign "a" (some false))⟩ := rfl
  refine ⟨made, ?_, changedMade.trans made, state, read, ?_, _, _, copy,
    later, kept _ 2 2 _ _ copy later rfl, recorded 2 _ copy, _, fork, ?_⟩
  · rw [mergedMade, supply, made]
    rfl
  · rw [Bool.eq_false_iff, Ne, compared .classical 0 2 _ _ state read]
    decide
  · rw [Ne, apart 2 3 _ _ copy fork]
    decide

end Program

end NamedLogic
