import NamedLogic.Proofs.Composition
import NamedLogic.Proofs.Junction

/-!
# Simplification only adds

Whatever simplification does, and wherever it is refused, it keeps every node
and every binding there was.
-/

namespace NamedLogic

namespace Registry

/-! ## Rebuilding a junction -/

/-- The names of stored operands, in order. -/
def operandNames (registry : Registry) (operands : List Key) : List Name :=
  operands.filterMap fun operand => (registry.node? operand).map Node.name

/-- The names of stored nodes are in the table. -/
theorem WellFormed.operandNames_lt
    {registry : Registry} (wellFormed : registry.WellFormed)
    (operands : List Key) :
    ∀ name ∈ registry.operandNames operands,
      name < registry.strings.size := by
  intro name member
  obtain ⟨operand, _, found⟩ := List.mem_filterMap.mp member
  obtain ⟨node, stored, rfl⟩ := Option.map_eq_some_iff.mp found
  exact wellFormed.named stored

/-- The second registry holds a rebuilt junction, under the name of the
original one or bound to a name of its own. -/
structure Rebuilds
    (before after : Registry) (placement : Placement) (original : Node)
    (key : Key) (node : Node) : Prop where
  wellFormed : after.WellFormed
  extension : before.Extends after
  new : before.nodes.size ≤ key.id
  stored : after.node? key = some node
  detached : placement = .detached → node.name = original.name
  bound : placement = .named → after.binding node.name = some key

theorem yields_rebuild
    {registry : Registry} (wellFormed : registry.WellFormed)
    {key : Key} {node : Node} (stored : registry.node? key = some node)
    (placement : Placement) (connective : Connective)
    (operands : List Key) :
    ∃ rebuilt name after,
      registry.Yields (rebuild placement node connective operands) rebuilt
        after ∧
      registry.Rebuilds after placement node rebuilt
        { name, owner := node.owner,
          body :=
            .junction connective (registry.operandNames operands) } := by
  have admits := admits_junction connective
    (wellFormed.operandNames_lt operands)
  let body : Body := .junction connective (registry.operandNames operands)
  cases placement with
  | detached =>
      refine ⟨_, node.name, (registry.store { node with body }).2,
        Yields.bind (yields_get_iff.mpr ⟨rfl, rfl⟩)
          (yields_modifyGet_iff.mpr ⟨rfl, rfl⟩), ?_⟩
      have named : node.name < registry.strings.size :=
        wellFormed.named stored
      exact {
        wellFormed := wellFormed.store named admits
        extension := Extends.store registry _
        new := le_rfl
        stored := by simp [body]
        detached := fun _ => rfl
        bound := fun impossible => by cases impossible }
  | named =>
      obtain ⟨rebuilt, name, after, run, added⟩ :=
        adds_insertFresh wellFormed .compound node.owner admits
      exact ⟨rebuilt, name, after,
        Yields.bind (yields_get_iff.mpr ⟨rfl, rfl⟩) run, {
          wellFormed := added.wellFormed
          extension := added.extension
          new := added.new
          stored := added.stored
          detached := fun impossible => by cases impossible
          bound := fun _ => added.bound }⟩

theorem grows_rebuild
    {registry : Registry} {key : Key} {node : Node}
    (stored : registry.node? key = some node) (placement : Placement)
    (connective : Connective) (operands : List Key) :
    registry.Grows
      (registry.after (rebuild placement node connective operands)) := by
  intro wellFormed
  obtain ⟨_, _, after, run, rebuilds⟩ :=
    yields_rebuild wellFormed stored placement connective operands
  rw [run.after_eq]
  exact ⟨rebuilds.wellFormed, rebuilds.extension⟩

/-! ## Simplification -/

theorem sustained_grows : Sustained Grows where
  refl := Grows.refl
  trans := Grows.trans
  negation := grows_negation
  junction := grows_junction
  rebuild := grows_rebuild

theorem grows_simplifyWithin
    (levels : Nat) (placement : Placement) (key : Key)
    (registry : Registry) :
    registry.Grows
      (registry.after (simplifyWithin levels placement key)) :=
  sustained_grows.simplifyWithin levels placement key registry

theorem grows_simplify (key : Key) (registry : Registry) :
    registry.Grows (registry.after (simplify key)) :=
  sustained_grows.simplify key registry

end Registry

end NamedLogic
