/-!
# Nodes

A formula is a network of nodes.  A node never holds its operands: it holds
their names, and what a name stands for is settled by the registry at the
moment of asking.
-/

namespace NamedLogic

/-- The position of a string in the table of names of a registry. -/
abbrev Name := Nat

/-- Whatever a node belongs to, used only for grouping. -/
abbrev Entity := UInt64

/-- A handle to a stored node.  A handle is issued once, so that the handle of
a dropped node never leads to another node. -/
structure Key where
  id : Nat
  deriving DecidableEq

/-- The handle that is never issued, and so leads nowhere. -/
def Key.null : Key := ⟨0⟩

/-- The connective joining the operands of a junction. -/
inductive Connective where
  | conjunction
  | disjunction
  deriving DecidableEq

/-- De Morgan's exchange of the two connectives. -/
def Connective.dual : Connective → Connective
  | .conjunction => .disjunction
  | .disjunction => .conjunction

/-- What a node says, with operands given by name. -/
inductive Body where
  | atom
  | negation (operand : Name)
  | junction (connective : Connective) (operands : List Name)
  /-- An implication may lack either side. -/
  | implication (antecedent consequent : Option Name)
  /-- The rows of the truth table over `atoms` whose bit is set in `rows`.  The
  formula generated from them is stored when the node is built; there is none
  if its simplification left nothing. -/
  | dnf (atoms : List Name) (rows : UInt64) (generated : Option Key)
  deriving DecidableEq

/-- The names a body refers to, in order. -/
def Body.references : Body → List Name
  | .atom => []
  | .negation operand => [operand]
  | .junction _ operands => operands
  | .implication antecedent consequent =>
      antecedent.toList ++ consequent.toList
  | .dnf atoms _ _ => atoms

/-- A stored formula: its own name, its owner, and what it says. -/
structure Node where
  name : Name
  owner : Option Entity := none
  body : Body
  deriving DecidableEq

namespace Node

/-- Whether the node is an atom. -/
def isAtom (node : Node) : Bool :=
  match node.body with
  | .atom => true
  | _ => false

/-- The operand of a negation. -/
def negated? (node : Node) : Option Name :=
  match node.body with
  | .negation operand => some operand
  | _ => none

/-- The connective and the operands of a junction. -/
def junction? (node : Node) : Option (Connective × List Name) :=
  match node.body with
  | .junction connective operands => some (connective, operands)
  | _ => none

/-- The operands of a junction, provided it is one of the given connective. -/
def operandsUnder? (node : Node) (connective : Connective) :
    Option (List Name) :=
  match node.body with
  | .junction inner operands =>
      if inner = connective then some operands else none
  | _ => none

/-- The names the node refers to, in order and without its own name. -/
def references (node : Node) : List Name :=
  node.body.references

/-- The names a traversal of the node looks up.  A disjunctive normal form is
traversed through its generated formula, and so looks up none. -/
def lookups (node : Node) : List Name :=
  match node.body with
  | .dnf _ _ _ => []
  | body => body.references

end Node

end NamedLogic
