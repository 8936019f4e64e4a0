import NamedLogic.Simplification.Basic

/-!
# Disjunctive normal forms

Given a list of atoms, a row is a number whose bit at each position tells
whether the atom at that position holds, and a set of rows is a number whose
bit at each position tells whether the row of that number belongs to it.  The
disjunctive normal form of a set of rows is the disjunction of their
minterms, each the conjunction of the atoms that hold and the negations of
those that do not.
-/

namespace NamedLogic

/-- The rows that belong to a set, in ascending order. -/
def selectedRows (rows : UInt64) : List Nat :=
  (List.range 64).filter rows.toNat.testBit

namespace Registry

/-- The name of an atom stored under a key. -/
def atomName (key : Key) : Update Name := do
  let node ← stored key
  if node.isAtom then
    pure node.name
  else
    throw .notAnAtom

/-- The literals of a row.  Every negative literal is a new negation. -/
def rowLiterals (row : Nat) : List (Key × Nat) → Update (List Key)
  | [] => pure []
  | (atom, position) :: rest => do
      let literal ←
        if row.testBit position then pure atom else negation atom
      let literals ← rowLiterals row rest
      pure (literal :: literals)

/-- The simplified disjunction of the minterms of the given rows, bound to a
name of its own. -/
def minterms (atoms : List Key) (rows : List Nat) : Update (Option Key) := do
  let disjunction ← junction .disjunction []
  rows.forM fun row => do
    let literals ← rowLiterals row atoms.zipIdx
    let minterm ← junction .conjunction literals
    let _ ← addOperand disjunction minterm
  simplifyWithin ((← get).levels 1) .named disjunction

/-- The disjunctive normal form of a set of rows over the given atoms.  The
formula is generated at once and recorded in the node. -/
def dnf (atoms : List Key) (rows : UInt64) : Update Key := do
  let names ← atoms.mapM atomName
  let generated ← minterms atoms (selectedRows rows)
  insertFresh .compound none (.dnf names rows generated)

/-- The formula generated for a disjunctive normal form. -/
def dnfFormula (key : Key) : Update (Option Key) := do
  let node ← stored key
  match node.body with
  | .dnf _ _ generated => pure generated
  | _ => throw .notADnf

end Registry

end NamedLogic
