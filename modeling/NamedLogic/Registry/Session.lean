import NamedLogic.Evaluation
import NamedLogic.NormalForm
import NamedLogic.Registry.ReferenceGraph
import NamedLogic.Registry.Text
import NamedLogic.StateFormula

/-!
# Sessions

In a session requests are put to a registry one after another, and each is
answered or refused.  Whoever puts them knows of no keys but those handed out
in earlier answers, and so refers to a key by its place among these.
-/

namespace NamedLogic

namespace Session

/-- The place of a key among those handed out in a session. -/
abbrev Handle := Nat

/-- A request to a registry. -/
inductive Request where
  | configure (settings : Settings)
  | clear
  | atom (string : String)
  | freshAtom
  | negation (operand : Handle)
  | junction (connective : Connective) (operands : List Handle)
  | implication (antecedent consequent : Option Handle)
  | setAntecedent (target : Handle) (antecedent : Option Handle)
  | setConsequent (target : Handle) (consequent : Option Handle)
  | addOperand (target operand : Handle)
  | dnf (atoms : List Handle) (rows : UInt64)
  | dnfFormula (target : Handle)
  | describe (valuation : Valuation Bool)
  | describeFour (valuation : Valuation Four)
  | simplify (target : Handle)
  | intern (string : String)
  | lookup (string : String)
  | stringOf (name : Name)
  | isEmpty
  | binding (name : Name)
  | keyOf (string : String)
  | resolve (name : Name)
  | node (target : Handle)
  | nameOf (target : Handle)
  | register (target : Handle)
  | rename (target : Handle) (string : String)
  | remove (string : String)
  | removeKey (target : Handle)
  | setOwner (target : Handle) (owner : Option Entity)
  | ownedBy (entity : Entity)
  | text (target : Handle)
  | alike (left right : Handle)
  | evaluate (valuation : Valuation Bool) (target : Handle)
  | evaluateFour (valuation : Valuation Four) (target : Handle)
  | nameValue
      (valuation : Valuation Bool) (depth : Nat) (name : Option Name)
  | nameValueFour
      (valuation : Valuation Four) (depth : Nat) (name : Option Name)
  | referenceGraph
  | cyclicNames

/-- What a request that is not refused is answered with. -/
inductive Reply where
  | nothing
  | flag (answer : Bool)
  | value (value : Bool)
  | fourValue (value : Four)
  | addition (outcome : Addition)
  | name (name : Name)
  | string (string : String)
  | strings (strings : List String)
  | graph (graph : ReferenceGraph)
  | key (key : Key)
  | keys (keys : List Key)
  | node (node : Node)
  | resolved (key : Key) (node : Node)

namespace Reply

/-- A reply that may be lacking. -/
def ofOption {α : Type} (reply : α → Reply) (value : Option α) : Reply :=
  (value.map reply).getD nothing

/-- The keys handed out in a node that is shown. -/
def shownKeys (node : Node) : List Key :=
  match node.body with
  | .dnf _ _ generated => generated.toList
  | _ => []

/-- The keys handed out in a reply. -/
def handedOut : Reply → List Key
  | key issued => [issued]
  | keys issued => issued
  | node shown => shownKeys shown
  | resolved bound shown => bound :: shownKeys shown
  | _ => []

end Reply

/-- A reply made of what an update yields. -/
def answering {α : Type} (reply : α → Reply) (update : Update α) :
    Update Reply := do
  let value ← update
  pure (reply value)

/-- A reply read off the registry. -/
def consulting (view : Registry → Reply) : Update Reply := do
  pure (view (← get))

/-- A reply found by a traversal, which may be refused. -/
def traversing {V : Type}
    (reply : V → Reply) (traversal : Registry → Traversed (Option V)) :
    Update Reply := do
  match traversal (← get) with
  | .ok value => pure (.ofOption reply value)
  | .error cause => throw cause

/-- The key in the given place.  A place at which no key was handed out is
refused. -/
def keyAt (issued : List Key) (handle : Handle) : Update Key :=
  match issued[handle]? with
  | some key => pure key
  | none => throw .unknownKey

/-- The key in the given place, if a place is given. -/
def sideAt (issued : List Key) : Option Handle → Update (Option Key)
  | none => pure none
  | some handle => do
      let key ← keyAt issued handle
      pure (some key)

/-- Carry out a request, given the keys handed out so far. -/
def perform (issued : List Key) : Request → Update Reply
  | .configure settings =>
      answering (fun _ => .nothing) <|
        modify fun registry => { registry with settings }
  | .clear => answering (fun _ => .nothing) (modify Registry.clear)
  | .atom string => answering .key (Registry.atom string)
  | .freshAtom => answering .key Registry.freshAtom
  | .negation operand => do
      let operand ← keyAt issued operand
      answering .key (Registry.negation operand)
  | .junction connective operands => do
      let operands ← operands.mapM (keyAt issued)
      answering .key (Registry.junction connective operands)
  | .implication antecedent consequent => do
      let antecedent ← sideAt issued antecedent
      let consequent ← sideAt issued consequent
      answering .key (Registry.implication antecedent consequent)
  | .setAntecedent target antecedent => do
      let target ← keyAt issued target
      let antecedent ← sideAt issued antecedent
      answering (fun _ => .nothing) (Registry.setAntecedent target antecedent)
  | .setConsequent target consequent => do
      let target ← keyAt issued target
      let consequent ← sideAt issued consequent
      answering (fun _ => .nothing) (Registry.setConsequent target consequent)
  | .addOperand target operand => do
      let target ← keyAt issued target
      let operand ← keyAt issued operand
      answering .addition (Registry.addOperand target operand)
  | .dnf atoms rows => do
      let atoms ← atoms.mapM (keyAt issued)
      answering .key (Registry.dnf atoms rows)
  | .dnfFormula target => do
      let target ← keyAt issued target
      answering (.ofOption .key) (Registry.dnfFormula target)
  | .describe valuation => answering (.ofOption .key) valuation.toFormula
  | .describeFour valuation => answering (.ofOption .key) valuation.toFormula
  | .simplify target => do
      let target ← keyAt issued target
      answering (.ofOption .key) (Registry.simplify target)
  | .intern string => answering .name (modifyGet (·.intern string))
  | .lookup string => consulting fun registry =>
      .ofOption .name (registry.lookup string)
  | .stringOf name => consulting fun registry =>
      .string (registry.string name)
  | .isEmpty => consulting fun registry => .flag registry.isEmpty
  | .binding name => consulting fun registry =>
      .ofOption .key (registry.binding name)
  | .keyOf string => consulting fun registry =>
      .ofOption .key (registry.get? string)
  | .resolve name => consulting fun registry =>
      .ofOption (fun found => .resolved found.1 found.2)
        (registry.resolve name)
  | .node target => do
      let target ← keyAt issued target
      consulting fun registry => .ofOption .node (registry.node? target)
  | .nameOf target => do
      let target ← keyAt issued target
      consulting fun registry => .ofOption .string (registry.nameOf? target)
  | .register target => do
      let target ← keyAt issued target
      answering (.ofOption .key) (Registry.register target)
  | .rename target string => do
      let target ← keyAt issued target
      answering (fun _ => .nothing) (Registry.rename target string)
  | .remove string =>
      answering (.ofOption .node) (modifyGet (·.remove string))
  | .removeKey target => do
      let target ← keyAt issued target
      answering (.ofOption .node) (modifyGet (·.removeKey target))
  | .setOwner target owner => do
      let target ← keyAt issued target
      answering (fun _ => .nothing) (Registry.setOwner target owner)
  | .ownedBy entity => consulting fun registry =>
      .keys (registry.ownedBy entity)
  | .text target => do
      let target ← keyAt issued target
      consulting fun registry => .string (registry.text target)
  | .alike left right => do
      let left ← keyAt issued left
      let right ← keyAt issued right
      consulting fun registry => .flag (registry.alike left right)
  | .evaluate valuation target => do
      let target ← keyAt issued target
      traversing .value fun registry => registry.evaluate valuation target
  | .evaluateFour valuation target => do
      let target ← keyAt issued target
      traversing .fourValue fun registry =>
        registry.evaluate valuation target
  | .nameValue valuation depth name =>
      traversing .value fun registry =>
        registry.nameValue valuation depth name
  | .nameValueFour valuation depth name =>
      traversing .fourValue fun registry =>
        registry.nameValue valuation depth name
  | .referenceGraph => consulting fun registry =>
      .graph registry.referenceGraph
  | .cyclicNames => consulting fun registry => .strings registry.cyclicNames

/-- What is seen of one step of a session: the reply or the cause of the
refusal, and the strings of all names, the number of bound names and the number
of stored nodes afterwards. -/
structure Observation where
  outcome : Except LogicError Reply
  strings : List String
  size : Nat
  nodeCount : Nat

/-- The keys handed out in one step of a session. -/
def Observation.handedOut (observation : Observation) : List Key :=
  match observation.outcome with
  | .ok reply => reply.handedOut
  | .error _ => []

/-- One step of a session: what is seen of it, and the registry afterwards. -/
def step (issued : List Key) (registry : Registry) (request : Request) :
    Observation × Registry :=
  let (outcome, next) := (perform issued request).run.run registry
  ({ outcome, strings := next.strings.toList, size := next.size,
     nodeCount := next.nodeCount }, next)

/-- What is seen of a session, given the keys handed out so far. -/
def observe : List Key → Registry → List Request → List Observation
  | _, _, [] => []
  | issued, registry, request :: rest =>
      let (observation, next) := step issued registry request
      observation :: observe (issued ++ observation.handedOut) next rest

end Session

end NamedLogic
