import NamedLogic.Proofs.ClassicalValues
import NamedLogic.Proofs.Persistence
import NamedLogic.Proofs.ReachedParts
import NamedLogic.Proofs.Representation
import NamedLogic.Proofs.Simulation

/-!
# Simplification and classical values

As long as no atom occurs both positively and negatively, simplification that
is not refused finds a formula, and the formula has the classical values of the
one simplified.
-/

namespace NamedLogic

namespace Registry

/-- A value found for a formula with a whole tree is the truth of the tree. -/
theorem eq_holds_of_evaluate
    {registry : Registry} {valuation : Valuation Bool} {key : Key}
    {node : Node} (stored : registry.node? key = some node)
    (total : (registry.unfold (registry.levels 0 + 1) node).Total)
    (given : ∀ literal ∈
      (registry.unfold (registry.levels 0 + 1) node).literals true,
      valuation.contains literal.1)
    {outcome : Option Bool}
    (evaluated : registry.evaluate valuation key = .ok outcome) :
    outcome = some
      ((registry.unfold (registry.levels 0 + 1) node).holds
        valuation.state) := by
  rw [evaluate, stored] at evaluated
  have gives : Tree.Gives valuation valuation.state
      ((registry.unfold (registry.levels 0 + 1) node).literals true) :=
    fun literal member => Valuation.get?_of_contains (given literal member)
  have deeper := nodeValue_persists (registry.levels 0) node outcome evaluated
  rw [nodeValue_eq_value, total.value_eq gives] at deeper
  exact (Except.ok.inj deeper).symm

/-- Soundness of simplification.  Let every name met from a stored formula
stand for something, no disjunctive normal form be met, every junction met have
an operand and every implication both sides, and let no atom occur with both
polarities, as far down as simplification looks.  Then a simplification that is
not refused results in a stored formula, and under every valuation of the atoms
met, the two formulas have the same value, if neither evaluation is refused. -/
theorem Reachable.simplification_keeps_value
    {registry final : Registry} (reachable : registry.Reachable)
    {key : Key} {node : Node} (stored : registry.node? key = some node)
    (whole : registry.Whole node)
    (consistent : Tree.Consistent
      ((registry.unfold (registry.levels 0 + 1) node).literals true))
    {result : Option Key}
    (run : registry.Yields (simplify key) result final) :
    ∃ simplified, result = some simplified ∧
      (final.node? simplified).isSome ∧
      ∀ valuation : Valuation Bool,
        (∀ atom, registry.Meets node atom → atom.isAtom →
          valuation.contains (registry.string atom.name)) →
        final.evaluate valuation key = registry.evaluate valuation key ∧
          ∀ value other, final.evaluate valuation key = .ok value →
            final.evaluate valuation simplified = .ok other →
              value = other := by
  have wellFormed := reachable.wellFormed
  obtain ⟨finalWellFormed, extension⟩ :=
    run.related (grows_simplify key registry) wellFormed
  have complete := whole.complete (registry.levels 0 + 1)
  obtain ⟨settled, outcome⟩ :=
    run.simplify_shows wellFormed stored complete.resolved
  obtain ⟨tree, simplifies, truth, within⟩ :=
    Tree.exists_simplifiesTo complete settled consistent
  rw [simplifies] at outcome
  obtain ⟨simplified, rfl, shown, shownStored, shape⟩ :
      ∃ simplified, result = some simplified ∧
        final.Shows (registry.levels 0 + 1) simplified tree := by
    cases outcome with
    | some shows => exact ⟨_, rfl, shows⟩
  refine ⟨simplified, rfl, by rw [shownStored]; rfl,
    fun valuation given => ?_⟩
  have givenLiterals : ∀ literal ∈
      (registry.unfold (registry.levels 0 + 1) node).literals true,
      valuation.contains literal.1 := by
    intro literal member
    obtain ⟨atom, meets, body, same⟩ := exists_atom_of_mem_literals member
    exact same ▸ given atom meets (by rw [Node.isAtom, body])
  have kept : final.evaluate valuation key =
      registry.evaluate valuation key := by
    refine registry.evaluate_eq_of_unfold_eq valuation extension stored ?_
    rw [extension.levels_eq]
    exact unfold_eq_of_gaps_eq_nil wellFormed finalWellFormed extension
      stored (whole.complete _).resolved.gaps_eq_nil
  refine ⟨kept, fun value other evaluated otherEvaluated => ?_⟩
  rw [kept] at evaluated
  rw [eq_holds_of_evaluate stored (complete.total settled) givenLiterals
    evaluated, ← truth, ← shape, ← extension.levels_eq]
  rw [← extension.levels_eq] at shape
  refine (eq_holds_of_evaluate shownStored ?_ ?_ otherEvaluated).symm
  · rw [shape]
    exact (Tree.normal_of_simplify simplifies).total
  · intro literal member
    rw [shape] at member
    exact givenLiterals literal (within member)

/-- The negation of an implication between two atoms simplifies to the
conjunction of the antecedent and the negated consequent, which keeps the
values. -/
theorem simplification_keeps_value_of_negated_implication :
    let registry := replay
      [.atom "p", .atom "q", .implication (some ⟨1⟩) (some ⟨2⟩),
        .negation ⟨3⟩]
    let final := registry.after (simplify ⟨4⟩)
    ∃ simplified, registry.Yields (simplify ⟨4⟩) (some simplified) final ∧
      ∀ valuation : Valuation Bool,
        valuation.contains "p" → valuation.contains "q" →
        ∀ value other, final.evaluate valuation ⟨4⟩ = .ok value →
          final.evaluate valuation simplified = .ok other →
            value = other := by
  intro registry final
  let nodes : List Node :=
    [{ name := 3, body := .negation 2 },
      { name := 2, body := .implication (some 0) (some 1) },
      { name := 0, body := .atom }, { name := 1, body := .atom }]
  have stored : registry.node? ⟨4⟩ =
      some { name := 3, body := .negation 2 } := by decide +kernel
  have shaped : ∀ node ∈ nodes, node.lacksNothing := by decide +kernel
  have closed : ∀ node ∈ nodes, ∀ name ∈ node.lookups,
      ∃ next ∈ nodes, registry.referent? name = some next := by
    decide +kernel
  have strings : ∀ node ∈ nodes, node.isAtom →
      registry.string node.name = "p" ∨ registry.string node.name = "q" := by
    decide +kernel
  have succeeds : ((simplify ⟨4⟩).run.run registry).1 = .ok (some ⟨10⟩) := by
    decide +kernel
  have run : registry.Yields (simplify ⟨4⟩) (some ⟨10⟩) final :=
    Prod.ext succeeds rfl
  have reachable : registry.Reachable := reachable_replay _
  obtain ⟨simplified, same, _, keeps⟩ :=
    reachable.simplification_keeps_value stored
      (whole_of_closed shaped closed List.mem_cons_self) (by decide +kernel)
      run
  obtain rfl := Option.some.inj same
  refine ⟨⟨10⟩, run, fun valuation left right => (keeps valuation ?_).2⟩
  intro atom meets isAtom
  have member :=
    mem_of_meets_of_closed shaped closed List.mem_cons_self meets
  rcases strings atom member isAtom with same | same
  · rwa [same]
  · rwa [same]

end Registry

end NamedLogic
