import NamedLogic.Ascending
import NamedLogic.Registry.Basic

/-!
# References between names

A bound name refers to the names its node refers to.  A traversal that
follows references comes to an end only if it meets no name that refers,
directly or through others, to itself.  The names of that kind are listed
here ahead of any traversal.
-/

namespace NamedLogic

namespace Registry

/-- The names a name refers to: none unless it stands for a node. -/
def referencesOf (registry : Registry) (name : Name) : List Name :=
  ((registry.referent? name).map Node.references).getD []

/-- The names that stand for a node, in ascending order. -/
def standing (registry : Registry) : List Name :=
  (List.range registry.bindings.size).filter fun name =>
    (registry.referent? name).isSome

/-- The names that stand for a node and the names these refer to, in ascending
order. -/
def referenceNodes (registry : Registry) : List Name :=
  ascending <|
    registry.standing ++ registry.standing.flatMap registry.referencesOf

/-- The pairs of a name and a name it refers to, in ascending order, each
once. -/
def referenceEdges (registry : Registry) : List (Name × Name) :=
  registry.standing.flatMap fun name =>
    (ascending (registry.referencesOf name)).map fun reference =>
      (name, reference)

end Registry

/-- The names met from the frontier by following references, added to those
already met.  Each unit of fuel pays for one name not met before, so that fuel
for every name there is suffices. -/
def explore
    (references : Name → List Name) :
    (fuel : Nat) → (frontier met : List Name) → List Name
  | 0, _, met => met
  | fuel + 1, frontier, met =>
      match frontier.dropWhile met.contains with
      | [] => met
      | name :: rest =>
          explore references fuel (references name ++ rest) (name :: met)

namespace Registry

/-- The names met by following references from a name at least once. -/
def reachedFrom
    (registry : Registry) (fuel : Nat) (name : Name) : List Name :=
  explore registry.referencesOf fuel (registry.referencesOf name) []

/-- The strings of the names reached from themselves, in ascending order. -/
def cyclicNames (registry : Registry) : List String :=
  let fuel := registry.referenceNodes.length
  let cyclic := registry.standing.filter fun name =>
    (registry.reachedFrom fuel name).contains name
  ascending (cyclic.map registry.string)

end Registry

end NamedLogic
