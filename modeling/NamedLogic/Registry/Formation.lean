import NamedLogic.Error
import NamedLogic.Registry.Basic

/-!
# Formation of formulas

Operands are given by key and recorded by name.  A new node is stored and its
name bound in one step, under a generated name unless it is an atom named by
the caller.

An update that is refused keeps whatever it did before, and so the operations
below look at all their arguments first.
-/

namespace NamedLogic

/-- An operation on a registry that may be refused.  A refusal does not undo
the changes made before it. -/
abbrev Update (α : Type) := ExceptT LogicError (StateM Registry) α

/-- What may be refused, without what it results in otherwise. -/
def ignoreResult
    {State α : Type} (update : ExceptT LogicError (StateM State) α) :
    ExceptT LogicError (StateM State) PUnit :=
  ExceptT.mk <| Except.map (fun _ => ⟨⟩) <$> update.run

/-- What came of adding a formula to a junction. -/
inductive Addition where
  /-- The name of the formula became the last operand. -/
  | added
  /-- The operands of a junction of the same kind were added one by one. -/
  | flattened
  /-- The name was an operand already. -/
  | duplicate
  /-- The name was that of the junction itself. -/
  | selfReference
  deriving DecidableEq

/-- Add a name to the operands of a junction called `own`.  Neither a name
already present nor the junction's own name is added. -/
def appendOperand
    (own : Name) (operands : List Name) (name : Name) :
    Addition × List Name :=
  if name = own then
    (.selfReference, operands)
  else if operands.contains name then
    (.duplicate, operands)
  else
    (.added, operands ++ [name])

/-- What the operands of a junction become when a formula is added to it.  A
junction of the same connective adds its operands in place of itself, and a
formula carrying the junction's own name adds nothing. -/
def extendOperands
    (own : Name) (connective : Connective) (operands : List Name)
    (addition : Node) : Addition × List Name :=
  if addition.name = own then
    (.selfReference, operands)
  else
    match addition.operandsUnder? connective with
    | some names =>
        (.flattened, names.foldl
          (fun present name => (appendOperand own present name).2) operands)
    | none => appendOperand own operands addition.name

namespace Registry

/-- The node stored under a key, which has to be there. -/
def stored (key : Key) : Update Node := do
  match (← get).node? key with
  | some node => pure node
  | none => throw .unknownKey

/-- The name to record for an operand. -/
def operandName (key : Key) : Update Name := do
  let node ← stored key
  pure node.name

/-- The name to record for a side of an implication, which may be absent. -/
def sideName : Option Key → Update (Option Name)
  | none => pure none
  | some key => do
      let name ← operandName key
      pure (some name)

/-- Store a node with the given body under a generated name, and bind the
name. -/
def insertFresh
    (flavour : Flavour) (owner : Option Entity) (body : Body) : Update Key := do
  let name ← modifyGet (·.freshName flavour)
  modifyGet (·.insert { name, owner, body })

/-! ## Constructors -/

/-- The atom with the given name.  An atom bound to the name is returned as it
is, and anything else loses the name to a new atom. -/
def atom (string : String) : Update Key := do
  if string.isEmpty then
    throw .emptyName
  let name ← modifyGet (·.intern string)
  match ((← get).resolve name).filter (·.2.isAtom) with
  | some (key, _) => pure key
  | none => modifyGet (·.insert { name, body := .atom })

/-- An atom with a generated name. -/
def freshAtom : Update Key :=
  insertFresh .atom none .atom

/-- The negation of a formula. -/
def negation (operand : Key) : Update Key := do
  let name ← operandName operand
  insertFresh .compound none (.negation name)

/-- The implication between two formulas, either of which may be absent. -/
def implication (antecedent consequent : Option Key) : Update Key := do
  let antecedentName ← sideName antecedent
  let consequentName ← sideName consequent
  insertFresh .compound none (.implication antecedentName consequentName)

/-- Add a formula to a junction.  A junction of the same kind is flattened:
its operands are added instead of itself. -/
def addOperand (junction operand : Key) : Update Addition := do
  let addition ← stored operand
  let target ← stored junction
  match target.body with
  | .junction connective operands =>
      let (outcome, extended) :=
        extendOperands target.name connective operands addition
      modify (·.replace junction
        { target with body := .junction connective extended })
      pure outcome
  | _ => throw .notAJunction

/-- The junction of the given formulas, added in order to an empty one. -/
def junction (connective : Connective) (operands : List Key) : Update Key := do
  operands.forM fun operand => do
    let _ ← stored operand
  let key ← insertFresh .compound none (.junction connective [])
  operands.forM fun operand => do
    let _ ← addOperand key operand
  pure key

/-! ## Changing stored nodes -/

/-- Apply a change to the sides of a stored implication. -/
def reviseImplication
    (implication : Key)
    (revise : Option Name → Option Name → Body) : Update Unit := do
  let node ← stored implication
  match node.body with
  | .implication antecedent consequent =>
      modify (·.replace implication
        { node with body := revise antecedent consequent })
  | _ => throw .notAnImplication

/-- Set or clear the antecedent of an implication. -/
def setAntecedent
    (implication : Key) (antecedent : Option Key) : Update Unit := do
  let name ← sideName antecedent
  reviseImplication implication fun _ consequent =>
    .implication name consequent

/-- Set or clear the consequent of an implication. -/
def setConsequent
    (implication : Key) (consequent : Option Key) : Update Unit := do
  let name ← sideName consequent
  reviseImplication implication fun antecedent _ =>
    .implication antecedent name

/-- Set or clear the owner of a node. -/
def setOwner (key : Key) (owner : Option Entity) : Update Unit := do
  let node ← stored key
  modify (·.replace key { node with owner })

/-- Bind the name of a node to the node.  The result is the key bound to the
name before, if it was another one. -/
def register (key : Key) : Update (Option Key) := do
  let name ← operandName key
  modifyGet (·.bind name key)

/-- Give a node another name.  The old name is unbound if it was bound to the
node, and the new one is bound to it.  A junction does not take the name of
one of its operands.  The new name stays in the table of names even if the
renaming is refused. -/
def rename (key : Key) (string : String) : Update Unit := do
  if string.isEmpty then
    throw .emptyName
  let name ← modifyGet (·.intern string)
  let node ← stored key
  if node.junction?.any fun junction => junction.2.contains name then
    throw .selfReference
  modify fun registry =>
    (((registry.replace key { node with name }).release node.name key).bind
      name key).2

end Registry

end NamedLogic
