import NamedLogic.Error
import NamedLogic.Registry.Basic
import NamedLogic.Truth.Value
import NamedLogic.Valuation

/-!
# Evaluation

The value of a formula under a valuation is found by walking down to its
atoms.  Each family of truth values reads the connectives in its own way, and
in particular decides what becomes of operands without a value.
-/

namespace NamedLogic

/-- What comes of a traversal that may be refused. -/
abbrev Traversed (α : Type) := Except LogicError α

/-- A reading of the connectives in a family of truth values.  Operands are
evaluated on demand and from left to right, so that an operand that is not
needed is not visited. -/
class Interpretation (V : Type) extends TruthValue V where
  /-- The value of a conjunction of the given operands. -/
  conjunction {α : Type} :
    (α → Traversed (Option V)) → List α → Traversed (Option V)
  /-- The value of a disjunction of the given operands. -/
  disjunction {α : Type} :
    (α → Traversed (Option V)) → List α → Traversed (Option V)
  /-- The value of an implication from the first operand to the second. -/
  implication {α : Type} :
    (α → Traversed (Option V)) → α → α → Traversed (Option V)

/-! ## The classical reading -/

namespace Classical

variable {α : Type}

/-- The first operand that is not true decides a conjunction: one without a
value leaves it without a value, and a false one makes it false. -/
def conjunction (value : α → Traversed (Option Bool)) :
    List α → Traversed (Option Bool)
  | [] => .ok (some true)
  | operand :: rest => do
      match ← value operand with
      | none => pure none
      | some false => pure (some false)
      | some true => conjunction value rest

/-- A disjunction is true if some operand is, and false otherwise, also if
some operand has no value. -/
def disjunction (value : α → Traversed (Option Bool)) :
    List α → Traversed (Option Bool)
  | [] => .ok (some false)
  | operand :: rest => do
      match ← value operand with
      | some true => pure (some true)
      | _ => disjunction value rest

/-- An implication with a true consequent is true.  With a false one it is the
negation of the antecedent.  A required side without a value leaves the
implication without one. -/
def implication
    (value : α → Traversed (Option Bool)) (antecedent consequent : α) :
    Traversed (Option Bool) := do
  match ← value consequent with
  | none => pure none
  | some true => pure (some true)
  | some false => do
      let premise ← value antecedent
      pure (premise.map not)

end Classical

instance : Interpretation Bool where
  conjunction := Classical.conjunction
  disjunction := Classical.disjunction
  implication := Classical.implication

/-! ## The four-valued reading -/

namespace Belnap

variable {α : Type}

/-- Meet the values of the operands with a running value.  Once the running
value is not designated, the conjunction is false outright. -/
def conjunctionFrom (value : α → Traversed (Option Four)) :
    Four → List α → Traversed (Option Four)
  | running, [] => .ok (some running)
  | running, operand :: rest => do
      let met := running.conjunct (TruthValue.coerce (← value operand))
      if met.forTruth then
        conjunctionFrom value met rest
      else
        pure (some Four.falsity)

/-- Join the values of the operands with a running value.  Once the running
value is designated, the disjunction is true outright. -/
def disjunctionFrom (value : α → Traversed (Option Four)) :
    Four → List α → Traversed (Option Four)
  | running, [] => .ok (some running)
  | running, operand :: rest => do
      let joined := running.disjunct (TruthValue.coerce (← value operand))
      if joined.forTruth then
        pure (some Four.truth)
      else
        disjunctionFrom value joined rest

/-- The join of the negated antecedent and the consequent.  A side without a
value leaves the implication without one. -/
def implication
    (value : α → Traversed (Option Four)) (antecedent consequent : α) :
    Traversed (Option Four) := do
  let premise ← value antecedent
  let conclusion ← value consequent
  pure <| premise.bind fun premise =>
    conclusion.map fun conclusion => premise.negate.disjunct conclusion

end Belnap

instance : Interpretation Four where
  conjunction value := Belnap.conjunctionFrom value Four.truth
  disjunction value := Belnap.disjunctionFrom value Four.falsity
  implication := Belnap.implication

/-! ## Values of formulas -/

namespace Registry

variable {V : Type} [Interpretation V]

/-- The value of a node, descending through at most the given number of
levels.  A name that stands for nothing has no value. -/
def nodeValue (registry : Registry) (valuation : Valuation V) :
    (levels : Nat) → Node → Traversed (Option V)
  | 0, _ => .error .depthExceeded
  | levels + 1, node =>
      let nameValue (name : Option Name) : Traversed (Option V) :=
        match name.bind registry.referent? with
        | some operand => registry.nodeValue valuation levels operand
        | none => .ok none
      match node.body with
      | .atom => .ok (valuation.get? (registry.string node.name))
      | .negation operand =>
          (nameValue (some operand)).map (Option.map TruthValue.negate)
      | .junction .conjunction operands =>
          Interpretation.conjunction (nameValue ∘ some) operands
      | .junction .disjunction operands =>
          Interpretation.disjunction (nameValue ∘ some) operands
      | .implication antecedent consequent =>
          Interpretation.implication nameValue antecedent consequent
      | .dnf _ _ generated =>
          match generated.bind registry.node? with
          | some formula => registry.nodeValue valuation levels formula
          | none => .ok none

/-- The value of the formula a name stands for, when the name is met at the
given depth. -/
def nameValue
    (registry : Registry) (valuation : Valuation V)
    (depth : Nat) (name : Option Name) : Traversed (Option V) :=
  match name.bind registry.referent? with
  | some operand =>
      registry.nodeValue valuation (registry.levels (depth + 1)) operand
  | none => .ok none

/-- The value of the formula stored under a key.  A key that leads nowhere has
no value. -/
def evaluate
    (registry : Registry) (valuation : Valuation V) (key : Key) :
    Traversed (Option V) :=
  match registry.node? key with
  | some node => registry.nodeValue valuation (registry.levels 0) node
  | none => .ok none

end Registry

end NamedLogic
