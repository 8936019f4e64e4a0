import NamedLogic.Assignment
import NamedLogic.Evaluation
import NamedLogic.StateFormula

/-!
# Worlds

A world has rules, goals and a current state.  A rule is an implication, read
as saying that its consequent is implied whenever its antecedent holds; a goal
describes a desired state; and the current state is a classical assignment,
under which rules and goals are evaluated.
-/

namespace NamedLogic

/-- Rules, goals and a current state over one registry. -/
structure World where
  registry : Registry
  /-- The rules in the order of their addition. -/
  rules : List Key := []
  /-- The goals in the order of their addition. -/
  goals : List Key := []
  current : Assignment Bool

/-- An operation on a world that may be refused.  A refusal does not undo the
changes made before it. -/
abbrev WorldUpdate (α : Type) := ExceptT LogicError (StateM World) α

namespace World

/-! ## Changing a world -/

/-- A world with an empty registry and an empty current state. -/
def new (settings : Settings) : StateM IdSupply World := do
  let current ← Assignment.empty
  pure { registry := { settings }, current }

/-- Carry out an operation on the registry of a world. -/
def onRegistry {α : Type} (update : Update α) : WorldUpdate α :=
  ExceptT.mk <| modifyGet fun world =>
    let { registry, rules, goals, current } := world
    let (result, registry) := update.run.run registry
    (result, { registry, rules, goals, current })

/-- Add the rule between two formulas, either of which may be absent. -/
def addRule (antecedent consequent : Option Key) : WorldUpdate Key := do
  let rule ← onRegistry (Registry.implication antecedent consequent)
  modify fun world => { world with rules := world.rules ++ [rule] }
  pure rule

/-- Add a goal. -/
def addGoal (world : World) (goal : Key) : World :=
  { world with goals := world.goals ++ [goal] }

/-- Replace the current state. -/
def setCurrent (world : World) (current : Assignment Bool) : World :=
  { world with current }

/-- Set or take away the value of a name in the current state. -/
def update (world : World) (name : String) (value : Option Bool) : World :=
  { world with current := world.current.assign name value }

/-- The formula of the current state. -/
def stateFormula : WorldUpdate (Option Key) := do
  onRegistry (← get).current.valuation.toFormula

/-- Clear the registry and forget all rules, all goals and the current
state. -/
def reset (world : World) : StateM IdSupply World := do
  let current ← Assignment.empty
  pure { registry := world.registry.clear, current }

/-! ## Rules and goals on the current state -/

/-- The keys of a list for which the test holds.  The first test that is
refused refuses the whole. -/
def select (test : Key → Traversed Bool) :
    List Key → Traversed (List Key)
  | [] => .ok []
  | key :: rest => do
      let holds ← test key
      let selected ← select test rest
      pure (if holds then key :: selected else selected)

/-- The value of a formula on the current state. -/
def value (world : World) (key : Key) : Traversed (Option Bool) :=
  world.registry.evaluate world.current.valuation key

/-- Whether a rule applies: it is an implication, and its antecedent is absent
or true. -/
def triggers (world : World) (rule : Key) : Traversed Bool :=
  match (world.registry.node? rule).map Node.body with
  | some (.implication none _) => .ok true
  | some (.implication antecedent _) => do
      let premise ←
        world.registry.nameValue world.current.valuation 0 antecedent
      pure (premise == some true)
  | _ => .ok false

/-- What the consequent of a rule is bound to. -/
def consequence (world : World) (rule : Key) : Option Key :=
  match (world.registry.node? rule).map Node.body with
  | some (.implication _ consequent) => consequent.bind world.registry.binding
  | _ => none

/-- The rules that apply. -/
def triggeredRules (world : World) : Traversed (List Key) :=
  select world.triggers world.rules

/-- The consequents of the rules that apply. -/
def implied (world : World) : Traversed (List Key) := do
  let triggered ← world.triggeredRules
  pure (triggered.filterMap world.consequence)

/-- The rules that are false. -/
def violatedRules (world : World) : Traversed (List Key) :=
  select (fun rule => return (← world.value rule) == some false) world.rules

/-- The goals that are true. -/
def satisfiedGoals (world : World) : Traversed (List Key) :=
  select (fun goal => return (← world.value goal) == some true) world.goals

/-- The goals that are not true, including those without a value. -/
def unsatisfiedGoals (world : World) : Traversed (List Key) :=
  select (fun goal => return (← world.value goal) != some true) world.goals

end World

end NamedLogic
