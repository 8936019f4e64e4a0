import NamedLogic.Registry.Operation
import NamedLogic.World

/-!
# Programs

A program makes assignments and worlds, keeps them in variables, and changes them.
An assignment is in one place at a time: in a variable, or in a world as its
current state, to which it may be moved from a variable.

A run keeps a record of the assignments made so far, in which they are numbered in
the order of their making.  The number of an assignment stays with it, wherever it
is moved and however its values change, so that two places hold the same assignment
if they hold the same number.
-/

namespace NamedLogic

/-- The families of truth values. -/
inductive Family where
  | classical
  | four

/-- The values of a family. -/
abbrev Family.Value : Family → Type
  | classical => Bool
  | four => Four

instance (family : Family) : DecidableEq family.Value :=
  match family with
  | .classical => inferInstanceAs (DecidableEq Bool)
  | .four => inferInstanceAs (DecidableEq Four)

/-- A change of an assignment in place. -/
inductive Assignment.Change (V : Type) where
  | assign (name : String) (value : Option V)
  | replace (name : String) (value : Option V)
  | remove (name : String)

/-- An assignment after a change in place. -/
def Assignment.change
    {V : Type} (assignment : Assignment V) : Change V → Assignment V
  | .assign name value => assignment.assign name value
  | .replace name value => assignment.replace name value
  | .remove name => (assignment.remove name).2

/-- A change of a world other than putting another current state in place. -/
inductive World.Change where
  | operate (operation : Operation)
  | addRule (antecedent consequent : Option Key)
  | addGoal (goal : Key)
  | update (name : String) (value : Option Bool)
  | stateFormula

/-- What a change asks of a world, which may be refused. -/
def World.Change.request : Change → WorldUpdate PUnit
  | .operate operation => World.onRegistry operation.update
  | .addRule antecedent consequent =>
      ignoreResult (World.addRule antecedent consequent)
  | .addGoal goal => modify (·.addGoal goal)
  | .update name value => modify (·.update name value)
  | .stateFormula => ignoreResult World.stateFormula

/-- A world after a change, whether refused or not. -/
def World.change (world : World) (change : Change) : World :=
  (change.request.run.run world).2

/-- What a variable may hold. -/
inductive Holding where
  | alone (family : Family) (assignment : Assignment family.Value)
  | within (world : World)

namespace Holding

/-- The identity of the assignment held, which for a world is that of its
current state. -/
def id : Holding → Nat
  | .alone _ assignment => assignment.id
  | .within world => world.current.id

/-- The assignment held, if it is of the given family. -/
def own? : (family : Family) → Holding → Option (Assignment family.Value)
  | .classical, .alone .classical assignment => some assignment
  | .four, .alone .four assignment => some assignment
  | _, _ => none

/-- The world held. -/
def world? : Holding → Option World
  | .within world => some world
  | .alone _ _ => none

/-- The assignment that may be read, if it is of the given family.  Of a world it
is the current state. -/
def read? : (family : Family) → Holding → Option (Assignment family.Value)
  | .classical, .within world => some world.current
  | family, holding => holding.own? family

end Holding

/-- What is in a variable, with the number of the assignment there. -/
structure Held where
  number : Nat
  holding : Holding

namespace Program

/-- Variables, by their number. -/
abbrev Place := Nat

/-- What a program may do.  Whatever is made is put into the variable named
first. -/
inductive Action where
  | world (target : Place) (settings : Settings)
  | reset (target : Place)
  | setCurrent (target source : Place)
  | changeWorld (target : Place) (change : World.Change)
  | empty (target : Place) (family : Family)
  | ofList
      (target : Place) (family : Family)
      (entries : List (String × family.Value))
  | copy (target : Place) (family : Family) (source : Place)
  | merge (target : Place) (family : Family) (first second : Place)
  | change
      (target : Place) (family : Family)
      (change : Assignment.Change family.Value)
  | assignChecked
      (fork target : Place) (family : Family) (name : String)
      (value : Option family.Value)
  | forget (target : Place)

end Program

/-- The state of a program. -/
structure Program where
  supply : IdSupply
  /-- The identities of the assignments made so far, in the order of their
  making. -/
  made : List Nat := []
  held : Program.Place → Option Held := fun _ => none

namespace Program

/-- The program with another content of a variable. -/
def hold
    (program : Program) (target : Place) (content : Option Held) :
    Program :=
  { program with
    held := fun place =>
      if place = target then content else program.held place }

/-- The program after an assignment was made, held on its own or by a world. -/
def enter
    (program : Program) (target : Place) (holding : Holding)
    (supply : IdSupply) : Program :=
  { program.hold target (some { number := program.made.length, holding }) with
    supply, made := program.made ++ [holding.id] }

/-- Make an assignment, on its own or with a world that holds it. -/
def make
    (program : Program) (target : Place)
    (making : StateM IdSupply Holding) : Program :=
  let (holding, supply) := making.run program.supply
  program.enter target holding supply

/-- Put what has become of the assignment or world in a variable in its place. -/
def revise
    (program : Program) (target : Place) (holding : Holding) : Program :=
  program.hold target <|
    (program.held target).map fun held => { held with holding }

/-- The assignment of a family in a variable. -/
def own?
    (program : Program) (family : Family) (place : Place) :
    Option (Assignment family.Value) :=
  (program.held place).bind fun held => held.holding.own? family

/-- The world in a variable. -/
def world? (program : Program) (place : Place) : Option World :=
  (program.held place).bind fun held => held.holding.world?

/-- The assignment of a family that may be read in a variable. -/
def read?
    (program : Program) (family : Family) (place : Place) :
    Option (Assignment family.Value) :=
  (program.held place).bind fun held => held.holding.read? family

/-- The program after an action.  An action on variables that do not hold what it
needs does nothing. -/
def step (program : Program) : Action → Program
  | .world target settings =>
      program.make target (.within <$> World.new settings)
  | .reset target =>
      match program.world? target with
      | some world => program.make target (.within <$> world.reset)
      | none => program
  | .setCurrent target source =>
      match program.world? target, program.held source with
      | some world, some ⟨number, .alone .classical assignment⟩ =>
          (program.hold source none).hold target
            (some ⟨number, .within (world.setCurrent assignment)⟩)
      | _, _ => program
  | .changeWorld target change =>
      match program.world? target with
      | some world => program.revise target (.within (world.change change))
      | none => program
  | .empty target family =>
      program.make target (.alone family <$> Assignment.empty)
  | .ofList target family entries =>
      program.make target (.alone family <$> Assignment.ofList entries)
  | .copy target family source =>
      match program.read? family source with
      | some assignment =>
          program.make target (.alone family <$> assignment.copy)
      | none => program
  | .merge target family first second =>
      match program.read? family first, program.read? family second with
      | some first, some second =>
          program.make target (.alone family <$> first.merge second)
      | _, _ => program
  | .change target family change =>
      match program.own? family target with
      | some assignment =>
          program.revise target (.alone family (assignment.change change))
      | none => program
  | .assignChecked fork target family name value =>
      match program.own? family target with
      | some assignment =>
          let ((copy, kept), supply) :=
            (assignment.assignChecked name value).run program.supply
          let revised := program.revise target (.alone family kept)
          match copy with
          | some copy => revised.enter fork (.alone family copy) supply
          | none => { revised with supply }
      | none => program
  | .forget target => program.hold target none

/-- The program after a list of actions, from a supply of identities. -/
def run (start : IdSupply) (actions : List Action) : Program :=
  actions.foldl step { supply := start }

end Program

end NamedLogic
