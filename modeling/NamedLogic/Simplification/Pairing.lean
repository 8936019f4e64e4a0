import NamedLogic.Node

/-!
# Pairs of opposed and of equal operands

The operands of a junction are compared in pairs.  A pair of opposed operands
decides a conjunction and cancels out of a disjunction; of equal operands only
the first is kept.

Operands are struck out by position.  The outer pass takes each operand not
struck out so far as the left of a pair, and the inner pass runs through all
others not struck out so far as its right.
-/

namespace NamedLogic

namespace Pairing

variable {α : Type}

/-- One inner pass, with `left` at the given position.  The result lists the
positions struck out, or is nothing if an opposed pair decides the
junction. -/
def strikeAgainst
    (connective : Connective) (opposed equal : α → α → Bool)
    (left : α) (position : Nat) :
    List (α × Nat) → List Nat → Option (List Nat)
  | [], struck => some struck
  | (right, other) :: rest, struck =>
      let proceed := strikeAgainst connective opposed equal left position rest
      if position = other ∨ other ∈ struck then
        proceed struck
      else if opposed left right then
        match connective with
        | .conjunction => none
        | .disjunction => proceed (other :: position :: struck)
      else if equal left right then
        proceed (other :: struck)
      else
        proceed struck

/-- The outer pass over the operands, each with its position. -/
def strike
    (connective : Connective) (opposed equal : α → α → Bool)
    (operands : List (α × Nat)) :
    List (α × Nat) → List Nat → Option (List Nat)
  | [], struck => some struck
  | (left, position) :: rest, struck =>
      if position ∈ struck then
        strike connective opposed equal operands rest struck
      else
        (strikeAgainst connective opposed equal left position operands
          struck).bind
            (strike connective opposed equal operands rest)

/-- The operands left after comparing all pairs, or nothing if an opposed pair
decides the junction. -/
def reduce?
    (connective : Connective) (opposed equal : α → α → Bool)
    (operands : List α) : Option (List α) :=
  let placed := operands.zipIdx
  (strike connective opposed equal placed placed []).map fun struck =>
    (placed.filter fun operand => operand.2 ∉ struck).map Prod.fst

end Pairing

end NamedLogic
