import NamedLogic.Proofs.Representation
import NamedLogic.Proofs.Upkeep

/-!
# How simplification ends

Simplification yields nothing, or a stored formula, or is refused for the depth
limit, as long as no formula generated for a disjunctive normal form was dropped
from under it.  Names that stand for nothing do no harm.
-/

namespace NamedLogic

namespace Registry

/-- The formula generated for a disjunctive normal form, if there is one, is
still stored. -/
def KeepsGenerated (registry : Registry) (node : Node) : Prop :=
  ∀ key ∈ node.body.generated?, (registry.node? key).isSome

theorem tracked_keepsGenerated (registry : Registry) :
    registry.Tracked registry.KeepsGenerated where
  recorded {_ _ _ key} keeps body :=
    Option.isSome_iff_exists.mp (keeps key (by rw [body]; rfl))
  fresh plain _ := by simp [KeepsGenerated, plain]
  renamed plain _ _ := by simp [KeepsGenerated, plain]

/-- Nothing but the depth limit refuses a simplification, and what it yields is
stored, provided that every disjunctive normal form it may come to has its
generated formula still stored. -/
theorem Reachable.simplify_ends
    {registry : Registry} (reachable : registry.Reachable) (key : Key)
    (kept : ∀ node part, registry.node? key = some node →
      registry.ComesTo node part → registry.KeepsGenerated part) :
    (∃ final, registry.Yields (simplify key) none final) ∨
      (∃ result node final,
        registry.Yields (simplify key) (some result) final ∧
          final.node? result = some node) ∨
      ∃ final, registry.Refuses (simplify key) .depthExceeded final := by
  have wellFormed := reachable.wellFormed
  have ensured : registry.Ensures (simplify key)
      (fun result final => ∀ formula ∈ result,
        ∃ node, final.node? formula = some node)
      (fun cause _ => cause = .depthExceeded) := by
    cases stored : registry.node? key with
    | none => exact (yields_simplify_of_missing stored).ensures (by simp)
    | some node =>
        have covers : registry.Covers registry.KeepsGenerated .detached key :=
          ⟨node, stored, fun part comes => kept node part stored comes,
            fun impossible => by cases impossible⟩
        refine ((upheld_trivial registry registry.KeepsGenerated).simplify
          registry.tracked_keepsGenerated
          ⟨wellFormed, Extends.refl registry, trivial⟩ covers
          fun _ _ _ _ _ _ => trivial).mono ?_ And.left
        intro result final upholds formula member
        obtain ⟨found, there, _⟩ :=
          upholds.tracks.covers formula (Option.mem_toList.mpr member)
        exact ⟨found, there⟩
  rcases yields_or_refuses registry (simplify key) with
    ⟨result, run⟩ | ⟨cause, refusal⟩
  · cases result with
    | none => exact Or.inl ⟨_, run⟩
    | some formula =>
        obtain ⟨node, there⟩ := ensured.yields run formula rfl
        exact Or.inr (Or.inl ⟨formula, node, _, run, there⟩)
  · obtain rfl : cause = .depthExceeded := ensured.refuses refusal
    exact Or.inr (Or.inr ⟨_, refusal⟩)

/-- The three ends.  Nothing is left of an empty junction, two negations cancel,
and three go deeper than a limit of one level. -/
example :
    let registry := replay
      [.junction .conjunction [], .atom "a", .negation ⟨2⟩, .negation ⟨3⟩,
        .negation ⟨4⟩,
        .configure { depthLimit := ⟨"depth_limit", 1, 1024, 1⟩ }]
    ((simplify ⟨1⟩).run.run registry).1 = .ok none ∧
      ((simplify ⟨4⟩).run.run registry).1 = .ok (some ⟨2⟩) ∧
      ((simplify ⟨5⟩).run.run registry).1 = .error .depthExceeded := by
  decide +kernel

/-- An implication whose consequent is a disjunctive normal form, and whose
antecedent was removed, simplifies to a stored formula. -/
theorem simplify_ends_for_kept_formula :
    let registry := replay
      [.atom "a", .atom "b", .dnf [⟨1⟩, ⟨2⟩] 6, .atom "p",
        .implication (some ⟨12⟩) (some ⟨11⟩), .remove "p"]
    (∃ final, registry.Yields (simplify ⟨13⟩) none final) ∨
      (∃ result node final,
        registry.Yields (simplify ⟨13⟩) (some result) final ∧
          final.node? result = some node) ∨
      ∃ final, registry.Refuses (simplify ⟨13⟩) .depthExceeded final := by
  intro registry
  have reachable : registry.Reachable := reachable_replay _
  let nodes : List Node := registry.nodes.toList.reduceOption
  have closed : ∀ node ∈ nodes, registry.successors node ⊆ nodes := by
    decide +kernel
  have keeps : ∀ node ∈ nodes, ∀ key ∈ node.body.generated?,
      (registry.node? key).isSome := by decide +kernel
  refine reachable.simplify_ends ⟨13⟩ fun node part stored comes => ?_
  have listed : ∀ node ∈ registry.node? ⟨13⟩, node ∈ nodes := by
    decide +kernel
  exact keeps part (comes.mem_of_closed closed (listed node stored))

/-- The formula generated for a disjunctive normal form is dropped.  Simplifying
the form still yields its key, under which nothing is stored, and an implication
with the form for its consequent is refused for an unknown key. -/
theorem unknown_key_after_drop :
    let registry := replay
      [.atom "a", .atom "b", .dnf [⟨1⟩, ⟨2⟩] 6, .removeKey ⟨10⟩, .atom "p",
        .implication (some ⟨12⟩) (some ⟨11⟩)]
    registry.Reachable ∧
      ((simplify ⟨11⟩).run.run registry).1 = .ok (some ⟨10⟩) ∧
      (registry.after (simplify ⟨11⟩)).node? ⟨10⟩ = none ∧
      ((simplify ⟨13⟩).run.run registry).1 = .error .unknownKey := by
  intro registry
  exact ⟨reachable_replay _, by decide +kernel, by decide +kernel,
    by decide +kernel⟩

end Registry

end NamedLogic
