import NamedLogic.Proofs.GeneratedBindings
import NamedLogic.Proofs.Representation
import NamedLogic.Proofs.TreeValue

/-!
# What simplification leaves as it was

Simplification only adds nodes and binds names that were not bound.  A formula
stored before keeps its tree, and with it all its values, if and only if no gap
in the tree is filled on the way.  A gap is filled when a generated name
coincides with the string of a name that is referred to without being bound.
-/

namespace NamedLogic

namespace Registry

/-- The strings of the gaps in the tree of a stored formula lead nowhere. -/
theorem WellFormed.get?_of_mem_gaps
    {registry : Registry} (wellFormed : registry.WellFormed)
    {key : Key} {node : Node} (stored : registry.node? key = some node)
    {levels : Nat} {string : String}
    (gap : string ∈ (registry.unfold levels node).gaps) :
    registry.get? string = none :=
  (unfold_eq_iff wellFormed wellFormed (Extends.refl registry) levels
    stored).mp rfl string gap

/-- Simplification of any key, whether refused or not, keeps the tree of a
stored formula exactly if it leaves all gaps in the tree unbound, and then the
formula keeps its value under every valuation of either family.  It leaves the
gaps unbound whose strings are not among those that may still be generated. -/
theorem Reachable.tree_after_simplify
    {registry : Registry} (reachable : registry.Reachable)
    (simplified : Key) {key : Key} {node : Node}
    (stored : registry.node? key = some node) :
    let final := registry.after (simplify simplified)
    let gaps := (registry.unfold (registry.levels 0) node).gaps
    final.node? key = some node ∧ final.levels 0 = registry.levels 0 ∧
      (final.unfold (final.levels 0) node =
          registry.unfold (registry.levels 0) node ↔
        ∀ string ∈ gaps, final.get? string = none) ∧
      ((∀ string ∈ gaps, final.get? string = none) →
        (∀ valuation : Valuation Bool,
          final.evaluate valuation key =
            registry.evaluate valuation key) ∧
        ∀ valuation : Valuation Four,
          final.evaluate valuation key =
            registry.evaluate valuation key) ∧
      ((∀ string ∈ gaps, ¬ registry.MayGenerate .compound string) →
        ∀ string ∈ gaps, final.get? string = none) := by
  intro final gaps
  have wellFormed := reachable.wellFormed
  obtain ⟨finalWellFormed, extension⟩ :=
    grows_simplify simplified registry wellFormed
  have still : final.node? key = some node := extension.node? stored
  have levels : final.levels 0 = registry.levels 0 := extension.levels_eq 0
  have kept : final.unfold (final.levels 0) node =
      registry.unfold (registry.levels 0) node ↔
        ∀ string ∈ gaps, final.get? string = none := by
    rw [levels]
    exact unfold_eq_iff wellFormed finalWellFormed extension _ stored
  refine ⟨still, levels, kept, fun unbound => ?_, fun apart string gap => ?_⟩
  · have sameTree := kept.mpr unbound
    exact ⟨fun valuation =>
        registry.evaluate_eq_of_unfold_eq valuation extension stored sameTree,
      fun valuation =>
        registry.evaluate_eq_of_unfold_eq valuation extension stored sameTree⟩
  · exact wellFormed.get?_simplify_eq_none simplified
      (wellFormed.get?_of_mem_gaps stored gap) (apart string gap)

/-- The negation of an atom that was removed keeps its gap, and so its lack of
a value, while another formula is simplified. -/
theorem tree_after_simplify_of_open_gap :
    let registry := replay
      [.atom "x", .negation ⟨1⟩, .remove "x", .atom "p",
        .implication (some ⟨3⟩) none]
    let final := registry.after (simplify ⟨4⟩)
    registry.node? ⟨2⟩ = some { name := 1, body := .negation 0 } ∧
      ∀ valuation : Valuation Bool,
        final.evaluate valuation ⟨2⟩ =
          registry.evaluate valuation ⟨2⟩ := by
  intro registry final
  have stored : registry.node? ⟨2⟩ =
      some { name := 1, body := .negation 0 } := by decide +kernel
  have reachable : registry.Reachable := reachable_replay _
  obtain ⟨_, _, _, values, stays⟩ := reachable.tree_after_simplify ⟨4⟩ stored
  have otherwise : ∀ string ∈
      (registry.unfold (registry.levels 0)
        { name := 1, body := .negation 0 }).gaps,
      ¬ (registry.settings.stem .compound).toList <+: string.toList := by
    decide +kernel
  refine ⟨stored, (values (stays ?_)).1⟩
  intro string gap generated
  exact otherwise string gap generated.begins_with_stem

/-- An atom with a name such as are generated is removed while its negation is
kept.  Simplifying a disjunction with the negation in it binds that very name to a
new node: the negation, which had no value, becomes true, and so does the
disjunction simplified, which was false. -/
theorem capture_after_simplify :
    let registry := replay
      [.atom "F4", .negation ⟨1⟩, .remove "F4", .atom "p",
        .implication (some ⟨3⟩) none, .junction .disjunction [⟨2⟩, ⟨4⟩]]
    let final := registry.after (simplify ⟨5⟩)
    let valuation : Valuation Bool := Valuation.ofList [("p", true)]
    registry.Reachable ∧ (registry.node? ⟨2⟩).isSome ∧
      registry.evaluate valuation ⟨2⟩ = .ok none ∧
      final.evaluate valuation ⟨2⟩ = .ok (some true) ∧
      (registry.node? ⟨5⟩).isSome ∧
      registry.evaluate valuation ⟨5⟩ = .ok (some false) ∧
      final.evaluate valuation ⟨5⟩ = .ok (some true) := by
  intro registry final valuation
  exact ⟨reachable_replay _, by decide +kernel, by decide +kernel,
    by decide +kernel, by decide +kernel, by decide +kernel,
    by decide +kernel⟩

end Registry

end NamedLogic
