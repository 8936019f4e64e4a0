import NamedLogic.Proofs.RecurringOperands

/-!
# Simplification that keeps junctions in order

Simplification keeps junctions in order as long as it comes upon no disjunctive
normal form whose generated formula was tampered with, and upon no other formula
that took over the name of the junction to be simplified.
-/

namespace NamedLogic

namespace Registry

/-! ## Nodes come to -/

section Reach

variable {before after registry : Registry} {node part : Node}

/-- From what stands for its own name one only comes to nodes that do, where
generated formulas are bound to their own names. -/
theorem ComesTo.stands
    (wellFormed : registry.WellFormed) (comes : registry.ComesTo node part)
    (throughout : registry.Throughout registry.KeepsComparable node)
    (stands : registry.referent? node.name = some node) :
    registry.referent? part.name = some part := by
  have named : ∀ {name : Name} {bearer : Node},
      registry.referent? name = some bearer →
        registry.referent? bearer.name = some bearer := by
    intro name bearer bears
    obtain ⟨key, bound, stored⟩ := (referent?_eq_some_iff name bearer).mp bears
    rwa [wellFormed.named_of_binding bound stored]
  induction comes with
  | refl => exact stands
  | tail earlier leads _ =>
      cases leads with
      | descends step =>
          cases step with
          | operand _ bears => exact named bears
          | generated body present =>
              obtain ⟨formula, stored, bound⟩ :=
                (throughout _ earlier _ (by rw [body]; rfl)).bound
              rw [present] at stored
              obtain rfl := Option.some.inj stored
              exact (referent?_eq_some_iff _ _).mpr ⟨_, bound, present⟩
      | namesake _ _ bears => exact named bears

/-- Where generated formulas are bound to their own names, simplification comes
only to what is met. -/
theorem ComesTo.meets
    (comes : registry.ComesTo node part)
    (throughout : registry.Throughout registry.KeepsComparable node) :
    registry.Meets node part := by
  induction comes using Relation.ReflTransGen.head_induction_on with
  | refl => exact .here part
  | head leads _ inductionHypothesis =>
      have rest := inductionHypothesis (throughout.step leads)
      cases leads with
      | descends step => exact .further step rest
      | namesake body present bears =>
          obtain ⟨formula, stored, bound⟩ :=
            (throughout.self _ (by rw [body]; rfl)).bound
          rw [present] at stored
          obtain rfl := Option.some.inj stored
          obtain ⟨key, bearerBound, bearerStored⟩ :=
            (referent?_eq_some_iff _ _).mp bears
          rw [bound] at bearerBound
          obtain rfl := Option.some.inj bearerBound
          rw [present] at bearerStored
          obtain rfl := Option.some.inj bearerStored
          exact .further (.generated body present) rest

theorem Descends.of_extends
    (step : before.Descends node part) (extension : before.Extends after) :
    after.Descends node part := by
  cases step with
  | operand named stands => exact .operand named (extension.referent? stands)
  | generated body present => exact .generated body (extension.node? present)

theorem Meets.of_extends
    (meets : before.Meets node part) (extension : before.Extends after) :
    after.Meets node part := by
  induction meets with
  | here node => exact .here node
  | further step _ inductionHypothesis =>
      exact .further (step.of_extends extension) inductionHypothesis

end Reach

/-! ## The junction simplified in the first place -/

/-- What stands for the name of the node is the node itself or nothing that
simplification may come to from it. -/
def HoldsName (registry : Registry) (node : Node) : Prop :=
  ∃ bearer, registry.referent? node.name = some bearer ∧
    (registry.ComesTo node bearer → bearer = node)

/-- None of the operands collected for a junction that holds its name bears that
name. -/
theorem HoldsName.not_mem_operandNames
    {registry middle : Registry} {node : Node}
    (holdsName : registry.HoldsName node) (wellFormed : registry.WellFormed)
    (throughout : registry.Throughout registry.KeepsComparable node)
    {connective : Connective} {names : List Name}
    (body : node.body = .junction connective names)
    {operands remaining : List Key}
    (run : registry.Yields
      (simplifyOperands (simplifyWithin (registry.levels 1) .named)
        connective names) operands middle)
    (upholds : Upholds registry.KeepsComparable JunctionsInOrder Separates
      registry .named operands middle)
    (subset : remaining ⊆ operands) :
    node.name ∉ middle.operandNames remaining := by
  intro member
  obtain ⟨bearer, stands, itself⟩ := holdsName
  obtain ⟨operand, among, found⟩ := List.mem_filterMap.mp member
  obtain ⟨operandNode, operandStored, named⟩ :=
    Option.map_eq_some_iff.mp found
  have extension := upholds.tracks.annexes.extension
  have descends : ∀ {name : Name} {next : Node}, name ∈ names →
      registry.referent? name = some next → registry.Descends node next :=
    fun member bears => .operand
      (by simpa [Node.lookups, body, Body.references] using member) bears
  by_cases returns : ∃ name ∈ names, ∃ next,
      registry.referent? name = some next ∧ registry.ComesTo next bearer
  · -- The junction is come to again, and so it has no normal tree.
    obtain ⟨name, nameMember, next, bears, comes⟩ := returns
    have step := descends nameMember bears
    obtain rfl := itself (.head (.descends step) comes)
    have accounted := (upholds.told rfl).accounted operand (subset among)
    obtain ⟨bearerKey, bound, bearerStored⟩ :=
      (referent?_eq_some_iff _ _).mp stands
    obtain rfl : operand = bearerKey := by
      have operandBound := accounted.binding_name operandStored
      rw [named, extension.bindings bound] at operandBound
      exact (Option.some.inj operandBound).symm
    obtain ⟨tree, normal, presents⟩ :=
      accounted.comparable_of_lt (id_lt_of_node? bearerStored)
    obtain rfl := presents.unfold_eq (extension.node? bearerStored)
    exact not_meets_of_descends normal (step.of_extends extension)
      ((comes.meets (throughout.step (.descends step))).of_extends extension)
  · -- Nothing come to from the operands bears the name.
    let apart : Node → Prop := fun part =>
      registry.KeepsComparable part ∧ part.name ≠ node.name
    have tracked : registry.Tracked apart := by
      refine (tracked_keepsComparable registry).apart fun unbound => ?_
      obtain ⟨_, bound, _⟩ := (referent?_eq_some_iff _ _).mp stands
      rw [unbound] at bound
      cases bound
    have safe : ∀ name ∈ names, registry.Safe apart name := by
      intro name nameMember next bears part comes
      have below := throughout.step (.descends (descends nameMember bears))
      refine ⟨below part comes, fun same => returns
        ⟨name, nameMember, next, bears, ?_⟩⟩
      obtain ⟨key, bound, nextStored⟩ :=
        (referent?_eq_some_iff name next).mp bears
      have partStands := comes.stands wellFormed below
        (by rwa [wellFormed.named_of_binding bound nextStored])
      rw [same, stands] at partStands
      exact Option.some.inj partStands ▸ comes
    have trivially := upheld_trivial registry apart
    have again := (trivially.simplifyOperands
      (trivially.simplifyWithin_named tracked (Nat.lt_succ_self _))
      ⟨wellFormed, Extends.refl registry, trivial⟩ connective safe).yields run
    obtain ⟨other, otherStored, fitting, _⟩ :=
      again.tracks.covers operand (subset among)
    rw [operandStored] at otherStored
    obtain rfl := Option.some.inj otherStored
    exact fitting.self.2 named

/-- What has to be known of the formula stored under a key that is simplified:
simplification comes upon no disjunctive normal form whose generated formula was
tampered with, and a junction holds its name. -/
def SimplifiesInOrder (registry : Registry) (key : Key) : Prop :=
  ∀ node, registry.node? key = some node →
    registry.Throughout registry.KeepsComparable node ∧
      ∀ connective operands, node.body = .junction connective operands →
        registry.HoldsName node

theorem keepsOrder_simplify
    {registry : Registry} (wellFormed : registry.WellFormed) {key : Key}
    (simplifies : registry.SimplifiesInOrder key) :
    registry.KeepsOrder (registry.after (simplify key)) := by
  intro inOrder
  cases stored : registry.node? key with
  | none =>
      rw [(yields_simplify_of_missing stored).after_eq]
      exact inOrder
  | some node =>
      obtain ⟨throughout, holds⟩ := simplifies node stored
      have covers : registry.Covers registry.KeepsComparable .detached key :=
        ⟨node, stored, throughout, fun impossible => by cases impossible⟩
      have upheld := upheld_separates wellFormed
        fun node => (id : registry.KeepsComparable node → _)
      have ensured := upheld.simplify registry.tracked_keepsComparable
        ⟨wellFormed, Extends.refl registry, inOrder⟩ covers (by
          intro junction connective names operands remaining middle after
            rebuilt storedAgain body run upholds reduced rebuilding
          rw [stored] at storedAgain
          obtain rfl := Option.some.inj storedAgain
          have extension := upholds.tracks.annexes.extension
          exact (upholds.told rfl).inOrder_of_detached
            upholds.tracks.wellFormed upholds.kept reduced
            (extension.node? stored)
            ((holds connective names body).not_mem_operandNames wellFormed
              throughout body run upholds
              (Pairing.subset_of_reduce? reduced)) rebuilding)
      exact Ensures.after (ensured.mono Upholds.kept And.right)

end Registry

end NamedLogic
