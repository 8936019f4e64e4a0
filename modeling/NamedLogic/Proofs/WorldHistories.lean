import NamedLogic.World
import NamedLogic.Proofs.Representation

/-!
# Histories of a world

Every state of a world arises from a new one by changes of its registry, of its
rules and goals, and of its current state.  So the registry of a world is always
one that can come to be on its own.
-/

namespace NamedLogic

namespace World

/-- The states a world can come to be in while it has the registry it was made
with.  The registry is changed by operations and cleared by resetting the world;
exchanging it for the registry of another world is left out, as a key belongs to the
registry that issued it. -/
inductive Reachable : World → Prop where
  | new (settings : Settings) (supply : IdSupply) :
      Reachable ((World.new settings).run supply).1
  | operate
      {world : World} (earlier : Reachable world) (operation : Operation) :
      Reachable { world with registry := operation.apply world.registry }
  | addRule
      {world : World} (earlier : Reachable world)
      (antecedent consequent : Option Key) :
      Reachable ((World.addRule antecedent consequent).run.run world).2
  | addGoal {world : World} (earlier : Reachable world) (goal : Key) :
      Reachable (world.addGoal goal)
  | setCurrent
      {world : World} (earlier : Reachable world)
      (current : Assignment Bool) :
      Reachable (world.setCurrent current)
  | update
      {world : World} (earlier : Reachable world)
      (name : String) (value : Option Bool) :
      Reachable (world.update name value)
  | stateFormula {world : World} (earlier : Reachable world) :
      Reachable (World.stateFormula.run.run world).2
  | reset
      {world : World} (earlier : Reachable world) (supply : IdSupply) :
      Reachable (world.reset.run supply).1

variable {α β : Type} {world : World}

theorem run_onRegistry (update : Update α) (world : World) :
    (onRegistry update).run.run world =
      ((update.run.run world.registry).1,
        { world with registry := world.registry.after update }) := rfl

theorem run_bind
    (request : WorldUpdate α) (next : α → WorldUpdate β) (world : World) :
    (request >>= next).run.run world =
      match request.run.run world with
      | (.ok value, middle) => (next value).run.run middle
      | (.error cause, middle) => (.error cause, middle) := by
  change (match request.run.run world with
    | (outcome, middle) => (ExceptT.bindCont next outcome).run middle) = _
  rcases request.run.run world with ⟨outcome, middle⟩
  cases outcome <;> rfl

/-- A rule is added to the world and its implication to the registry. -/
theorem registry_addRule (antecedent consequent : Option Key) :
    ((addRule antecedent consequent).run.run world).2.registry =
      world.registry.after
        (Registry.implication antecedent consequent) := by
  rw [addRule, run_bind, run_onRegistry]
  cases ((Registry.implication antecedent consequent).run.run
    world.registry).1 <;> rfl

/-- The registry of a world comes to be by operations on the registry. -/
theorem Reachable.registry
    (reachable : world.Reachable) : world.registry.Reachable := by
  induction reachable with
  | new settings supply => exact .empty settings
  | operate _ operation inductionHypothesis =>
      exact .step inductionHypothesis operation
  | addRule _ antecedent consequent inductionHypothesis =>
      rw [registry_addRule]
      exact .step inductionHypothesis (.implication antecedent consequent)
  | addGoal _ _ inductionHypothesis => exact inductionHypothesis
  | setCurrent _ _ inductionHypothesis => exact inductionHypothesis
  | update _ _ _ inductionHypothesis => exact inductionHypothesis
  | @stateFormula world _ inductionHypothesis =>
      exact .step inductionHypothesis (.describe world.current.valuation)
  | reset _ _ inductionHypothesis => exact .step inductionHypothesis .clear

end World

end NamedLogic
