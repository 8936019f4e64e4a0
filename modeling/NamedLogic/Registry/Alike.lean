import NamedLogic.Registry.Basic

/-!
# Structural equality

Two formulas are alike if they have the same shape down to the names of their
atoms.  Junctions are compared as collections: they have equally many
operands, and each operand of the first is like some operand of the second.
A disjunctive normal form is compared through the formula generated from it.
-/

namespace NamedLogic

namespace Registry

/-- Whether two nodes are alike, descending through at most the given number
of levels.  Nothing is alike when no level is left. -/
def nodesAlike (registry : Registry) : (levels : Nat) → Node → Node → Bool
  | 0, _, _ => false
  | levels + 1, left, right =>
      let sidesAlike (first second : Option Name) : Bool :=
        match first.bind registry.referent?, second.bind registry.referent? with
        | some first, some second => registry.nodesAlike levels first second
        | none, none => true
        | _, _ => false
      match left.body, right.body with
      | .dnf _ _ generated, _ =>
          match generated.bind registry.node? with
          | some formula => registry.nodesAlike levels formula right
          | none => false
      | _, .dnf _ _ generated =>
          match generated.bind registry.node? with
          | some formula => registry.nodesAlike levels left formula
          | none => false
      | .atom, .atom => left.name == right.name
      | .negation first, .negation second =>
          sidesAlike (some first) (some second)
      | .junction leftConnective firsts, .junction rightConnective seconds =>
          leftConnective == rightConnective &&
            firsts.length == seconds.length &&
            firsts.all fun first =>
              seconds.any fun second => sidesAlike (some first) (some second)
      | .implication firstAntecedent firstConsequent,
          .implication secondAntecedent secondConsequent =>
          sidesAlike firstAntecedent secondAntecedent &&
            sidesAlike firstConsequent secondConsequent
      | _, _ => false

/-- Whether the formulas stored under two keys are alike.  Two keys that lead
nowhere are. -/
def alike (registry : Registry) (left right : Key) : Bool :=
  match registry.node? left, registry.node? right with
  | some left, some right =>
      registry.nodesAlike (registry.levels 0) left right
  | none, none => true
  | _, _ => false

end Registry

end NamedLogic
