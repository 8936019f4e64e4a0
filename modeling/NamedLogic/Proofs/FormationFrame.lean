import NamedLogic.Proofs.NormalForms

/-!
# What forming formulas leaves as it was

The constructors that draw a generated name, and simplification, leave all that
was stored and bound as it was, even where they are refused half way.  The
simplification of a junction goes one step further: where it is a junction of
the same kind, it carries the name of the original and still leaves the name
to the original.
-/

namespace NamedLogic

/-- The operations that form formulas from stored ones and name them by
themselves. -/
def Operation.forms : Operation → Bool
  | freshAtom | negation _ | junction _ _ | implication _ _ | dnf _ _
  | simplify _ => true
  | _ => false

/-- Forming formulas only adds to a registry. -/
theorem Operation.grows_of_forms
    {operation : Operation} (forms : operation.forms)
    (registry : Registry) :
    registry.Grows (operation.apply registry) := by
  cases operation with
  | freshAtom => exact Registry.grows_freshAtom registry
  | negation operand => exact Registry.grows_negation registry operand
  | junction connective operands =>
      exact Registry.grows_junction registry connective operands
  | implication antecedent consequent =>
      exact Registry.grows_implication registry antecedent consequent
  | dnf atoms rows => exact Registry.grows_dnf atoms rows registry
  | simplify key => exact Registry.grows_simplify key registry
  | configure | intern | atom | setAntecedent | setConsequent | addOperand
  | register | remove | removeKey | rename | setOwner | describe
  | describeFour | clear => cases forms

namespace Registry

/-! ## Rebuilding without binding -/

/-- A junction that is rebuilt under the name of the original is a new node to
which no name is bound. -/
theorem WellFormed.detached_of_rebuild
    {before after : Registry} (wellFormed : before.WellFormed)
    {node : Node} {connective : Connective} {operands : List Key}
    {rebuilt : Key}
    (run : before.Yields (rebuild .detached node connective operands) rebuilt
      after) :
    before.node? rebuilt = none ∧
      after.node? rebuilt =
        some { node with
          body := .junction connective (before.operandNames operands) } ∧
      ∀ name, after.binding name ≠ some rebuilt := by
  have run := yields_get_bind_iff.mp run
  obtain ⟨rfl, rfl⟩ := yields_modifyGet_iff.mp run
  have absent : before.node? ⟨before.nodes.size⟩ = none := by
    by_contra present
    obtain ⟨other, stored⟩ := Option.ne_none_iff_exists'.mp present
    exact Nat.lt_irrefl _ (id_lt_of_node? stored)
  refine ⟨absent, by simp [operandNames], fun name bound => ?_⟩
  obtain ⟨other, stored, _⟩ := wellFormed.bound bound
  rw [store_key, absent] at stored
  cases stored

/-- Where no disjunctive normal form is within reach, the simplification of a
junction is a junction of the same kind only if it was rebuilt: a single
operand that remains is of another kind. -/
theorem JunctionRun.exists_rebuild
    {levels : Nat} {placement : Placement} {key result : Key}
    {connective : Connective} {before after : Registry} {names : List Name}
    (run : JunctionRun (simplifyWithin levels .named) placement key connective
      before names (some result) after)
    (wellFormed : before.WellFormed) (enough : levels < before.levels 0)
    (safe : ∀ name ∈ names, before.Safe Node.Elementary name)
    {outcome : Node} {remaining : List Name}
    (stored : after.node? result = some outcome)
    (body : outcome.body = .junction connective remaining) :
    ∃ middle original operands,
      middle.WellFormed ∧ before.Extends middle ∧
        middle.node? key = some original ∧
        middle.Yields (rebuild placement original connective operands) result
          after := by
  cases run with
  | single collected reduced =>
      obtain ⟨_, _, trees, presents, flat⟩ :=
        collected.presents_collected wellFormed enough safe
      obtain ⟨⟨⟨node, found, shape⟩, _⟩, among⟩ := presents_of_mem presents
        (Pairing.subset_of_reduce? reduced List.mem_cons_self)
      obtain rfl := Option.some.inj (found.symm.trans stored)
      have apart := (flat _ among).2.1
      rw [← shape, joins_unfold, operandsUnder?_eq_some_iff.mpr body] at apart
      cases apart
  | rebuilt collected _ _ original rebuilding =>
      obtain ⟨middleWellFormed, annexes, _⟩ :=
        collected.presents_collected wellFormed enough safe
      exact ⟨_, _, _, middleWellFormed, annexes.extension, original,
        rebuilding⟩

/-! ## The frame -/

/-- Forming formulas and simplifying leave every bound name bound to the same
key and every stored node stored as it was, name, owner and operands included,
whether the operation is refused or not.  If moreover a junction from which no
disjunctive normal form is met simplifies to a junction of the same kind, then
the latter was not stored before, carries the name and the owner of the
original, and is not what the name is bound to. -/
theorem Reachable.formation_leaves_stored
    {registry : Registry} (reachable : registry.Reachable) :
    (∀ operation : Operation, operation.forms →
      let final := operation.apply registry
      (∀ name key, registry.binding name = some key →
          final.binding name = some key) ∧
        ∀ key node, registry.node? key = some node →
          final.node? key = some node) ∧
      ∀ key node connective operands, registry.node? key = some node →
        node.body = .junction connective operands →
        (∀ part, registry.Meets node part →
          ∀ atoms rows generated, part.body ≠ .dnf atoms rows generated) →
        ∀ result final, registry.Yields (simplify key) (some result) final →
          ∀ outcome remaining, final.node? result = some outcome →
            outcome.body = .junction connective remaining →
              registry.node? result = none ∧
                outcome.name = node.name ∧ outcome.owner = node.owner ∧
                final.binding node.name ≠ some result := by
  have wellFormed := reachable.wellFormed
  refine ⟨fun operation forms => ?_, ?_⟩
  · obtain ⟨_, extension⟩ :=
      Operation.grows_of_forms forms registry wellFormed
    exact ⟨fun _ _ => extension.bindings, fun _ _ => extension.node?⟩
  · intro key node connective operands stored body plain result final run
      outcome remaining found outcomeBody
    obtain ⟨_, _, reading, run⟩ := yields_bind_iff.mp run
    obtain ⟨rfl, rfl⟩ := yields_get_iff.mp reading
    have safe : ∀ name ∈ operands, registry.Safe Node.Elementary name :=
      fun name member => (throughout_elementary plain).safe
        (Node.mem_lookups_of_junction body member)
    obtain ⟨middle, original, left, middleWellFormed, extension,
        originalStored, rebuilding⟩ :=
      ((formulaRun_of_yields run).of_junction stored body).exists_rebuild
        wellFormed (Nat.lt_succ_self _) safe found outcomeBody
    rw [extension.node? stored] at originalStored
    obtain rfl := Option.some.inj originalStored
    obtain ⟨absent, rebuilt, unbound⟩ :=
      middleWellFormed.detached_of_rebuild rebuilding
    rw [found] at rebuilt
    obtain rfl := Option.some.inj rebuilt
    refine ⟨?_, rfl, rfl, unbound _⟩
    by_contra present
    obtain ⟨other, earlier⟩ := Option.ne_none_iff_exists'.mp present
    rw [extension.node? earlier] at absent
    cases absent

/-- A conjunction that belongs to somebody has a doubly negated operand.  Its
simplification is a new node that belongs to the same and leaves the name. -/
theorem formation_leaves_stored_of_owned_junction :
    let registry := replay
      [.atom "p", .atom "q", .negation ⟨2⟩, .negation ⟨3⟩,
        .junction .conjunction [⟨1⟩, ⟨4⟩], .setOwner ⟨5⟩ (some 7)]
    let final := registry.after (simplify ⟨5⟩)
    registry.Yields (simplify ⟨5⟩) (some ⟨6⟩) final ∧
      registry.node? ⟨6⟩ = none ∧
      final.node? ⟨6⟩ = some
        { name := 4, owner := some 7, body := .junction .conjunction [0, 1] } ∧
      final.binding 4 ≠ some ⟨6⟩ ∧
      ∀ name key, registry.binding name = some key →
        final.binding name = some key := by
  intro registry final
  have reachable : registry.Reachable := reachable_replay _
  obtain ⟨frame, rebuilt⟩ := reachable.formation_leaves_stored
  have run : registry.Yields (simplify ⟨5⟩) (some ⟨6⟩) final :=
    yields_after (by decide +kernel)
  have stored : registry.node? ⟨5⟩ = some
      { name := 4, owner := some 7,
        body := .junction .conjunction [0, 3] } := by decide +kernel
  have found : final.node? ⟨6⟩ = some
      { name := 4, owner := some 7,
        body := .junction .conjunction [0, 1] } := by decide +kernel
  let nodes : List Node := registry.nodes.toList.reduceOption
  have closed : ∀ node ∈ nodes, registry.successors node ⊆ nodes := by
    decide +kernel
  have plain := plain_of_closed closed (by decide +kernel)
    (by decide +kernel :
      { name := 4, owner := some 7,
        body := .junction .conjunction [0, 3] } ∈ nodes)
  obtain ⟨absent, _, _, unbound⟩ := rebuilt ⟨5⟩ _ .conjunction [0, 3] stored
    rfl plain ⟨6⟩ final run _ [0, 1] found rfl
  exact ⟨run, absent, found, unbound, (frame (.simplify ⟨5⟩) rfl).1⟩

end Registry

end NamedLogic
