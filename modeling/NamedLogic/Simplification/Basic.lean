import NamedLogic.Registry.Alike
import NamedLogic.Registry.Formation
import NamedLogic.Simplification.Pairing

/-!
# Simplification

Simplification pushes negations down to atoms, replaces implications by
disjunctions, flattens nested junctions of one kind, and drops operands that
cancel or repeat.  Nothing may remain: of a conjunction with opposed operands,
of a junction whose operands all went, or of a formula that refers to
nothing.

New nodes are stored on the way, but no existing node or binding is changed.
The simplification of a junction carries the name and the owner of that
junction without being bound to the name, so that registering it puts it in
the place of the junction.  Every other new node has a generated name.
-/

namespace NamedLogic

/-- The name under which a junction of simplified operands is stored. -/
inductive Placement where
  /-- The name of the junction simplified, which is not bound to the result. -/
  | detached
  /-- A generated name, bound to the result. -/
  | named
  deriving DecidableEq

namespace Registry

/-- What the simplification of an operand contributes to a junction: itself,
or the operands of a junction of the same kind. -/
def contribution
    (registry : Registry) (connective : Connective) (operand : Key) :
    List Key :=
  match (registry.node? operand).bind (·.operandsUnder? connective) with
  | some names => names.filterMap registry.binding
  | none => [operand]

/-- Whether the left formula is the negation of something like the right
one. -/
def negates (registry : Registry) (left right : Key) : Bool :=
  (((registry.node? left).bind Node.negated?).bind registry.binding).any
    fun operand => registry.alike operand right

/-- Simplify the formulas the names are bound to, and collect what they
contribute to a junction. -/
def simplifyOperands
    (simplify : Key → Update (Option Key)) (connective : Connective) :
    List Name → Update (List Key)
  | [] => pure []
  | name :: names => do
      match (← get).binding name with
      | none => simplifyOperands simplify connective names
      | some operand =>
          match ← simplify operand with
          | none => simplifyOperands simplify connective names
          | some simplified => do
              let front := (← get).contribution connective simplified
              let back ← simplifyOperands simplify connective names
              pure (front ++ back)

/-- Simplify the negations of the formulas the names are bound to. -/
def simplifyNegations
    (simplify : Key → Update (Option Key)) : List Name → Update (List Key)
  | [] => pure []
  | name :: names => do
      match (← get).binding name with
      | none => simplifyNegations simplify names
      | some operand => do
          let negated ← negation operand
          let front ← simplify negated
          let back ← simplifyNegations simplify names
          pure (front.toList ++ back)

/-- Store the junction of the operands remaining of a node, whose owner it
keeps. -/
def rebuild
    (placement : Placement) (node : Node) (connective : Connective)
    (operands : List Key) : Update Key := do
  let registry ← get
  let names := operands.filterMap fun operand =>
    (registry.node? operand).map Node.name
  match placement with
  | .detached =>
      modifyGet (·.store
        { node with body := .junction connective names })
  | .named =>
      insertFresh .compound node.owner (.junction connective names)

/-- The simplification of a junction: operands are simplified and flattened,
then reduced in pairs.  A single remaining operand stands for itself. -/
def simplifyJunction
    (simplify : Key → Update (Option Key)) (placement : Placement)
    (key : Key) (connective : Connective) (names : List Name) :
    Update (Option Key) := do
  let operands ← simplifyOperands simplify connective names
  let registry ← get
  match Pairing.reduce? connective registry.negates registry.alike operands with
  | none => pure none
  | some [] => pure none
  | some [single] => pure (some single)
  | some remaining =>
      match registry.node? key with
      | none => pure none
      | some node => do
          let rebuilt ← rebuild placement node connective remaining
          pure (some rebuilt)

/-- The simplification of a negation.  The negation of an atom is simple.
Otherwise the operand is simplified first; then two negations cancel, and a
junction is negated operand by operand under the dual connective. -/
def simplifyNegation
    (simplify : Key → Update (Option Key))
    (key : Key) (operand : Name) : Update (Option Key) := do
  match (← get).resolve operand with
  | none => pure none
  | some (operandKey, operandNode) =>
      if operandNode.isAtom then
        pure (some key)
      else
        match ← simplify operandKey with
        | none => pure none
        | some simplified => do
            let registry ← get
            match (registry.node? simplified).map Node.body with
            | none => pure none
            | some (.negation inner) => pure (registry.binding inner)
            | some (.junction connective names) =>
                match ← simplifyNegations simplify names with
                | [] => pure none
                | [single] => pure (some single)
                | negated => do
                    let dual ← junction connective.dual negated
                    pure (some dual)
            | some _ => do
                let negated ← negation simplified
                pure (some negated)

/-- The simplification of an implication, as the disjunction of the negated
antecedent and the consequent.  A side that is absent or simplifies to nothing
is left out. -/
def simplifyImplication
    (simplify : Key → Update (Option Key))
    (antecedent consequent : Option Name) : Update (Option Key) := do
  let registry ← get
  match antecedent.bind registry.binding, consequent.bind registry.binding with
  | none, none => pure none
  | none, some conclusion => simplify conclusion
  | some premise, none => do
      let negated ← negation premise
      simplify negated
  | some premise, some conclusion => do
      let negated ← negation premise
      let left ← simplify negated
      let right ← simplify conclusion
      match left, right with
      | some left, some right => do
          let disjunction ← junction .disjunction [left, right]
          simplify disjunction
      | left, none => pure left
      | none, right => pure right

/-- Simplify the formula stored under a key, descending through at most the
given number of levels. -/
def simplifyWithin :
    (levels : Nat) → Placement → Key → Update (Option Key)
  | 0, _, _ => throw .depthExceeded
  | levels + 1, placement, key => do
      match ((← get).node? key).map Node.body with
      | none => pure none
      | some .atom => pure (some key)
      | some (.negation operand) =>
          simplifyNegation (simplifyWithin levels .named) key operand
      | some (.junction connective names) =>
          simplifyJunction (simplifyWithin levels .named) placement key
            connective names
      | some (.implication antecedent consequent) =>
          simplifyImplication (simplifyWithin levels .named) antecedent
            consequent
      | some (.dnf _ _ generated) => pure generated

/-- The simplification of the formula stored under a key, if anything remains
of it. -/
def simplify (key : Key) : Update (Option Key) := do
  simplifyWithin ((← get).levels 0) .detached key

end Registry

end NamedLogic
