import NamedLogic.Proofs.NormalForms
import NamedLogic.Proofs.Progress
import NamedLogic.Proofs.StructuralEquality

/-!
# Simplifying again

What simplification yields presents a normal tree, whose tiers are no more than
the levels there were.  A normal tree is its own simplification, and its tiers
are the levels that simplifying it takes.  So a second simplification is not
refused, and it yields the same tree, though perhaps under another key.
-/

namespace NamedLogic

namespace Registry

variable {registry : Registry}

/-- Where no disjunctive normal form is met, what simplification yields presents
a normal tree that can be simplified again. -/
theorem WellFormed.presentsWithin_of_simplify
    (wellFormed : registry.WellFormed) {after : Registry} {key result : Key}
    (plain : ∀ node part, registry.node? key = some node →
      registry.Meets node part →
        ∀ atoms rows generated, part.body ≠ .dnf atoms rows generated)
    (run : registry.Yields (simplify key) (some result) after) :
    after.PresentsWithin .detached (registry.levels 0) result := by
  cases stored : registry.node? key with
  | none =>
      obtain ⟨nothing, _⟩ := run.unique (yields_simplify_of_missing stored)
      cases nothing
  | some node =>
      have run := yields_get_bind_iff.mp run
      have covers : registry.Covers Node.Elementary .detached key :=
        ⟨node, stored,
          throughout_elementary fun part => plain node part stored,
          fun impossible => by cases impossible⟩
      exact normalizesWithin_simplifyWithin .detached _ wellFormed le_rfl
        covers (fun impossible => by cases impossible) run

/-- Formulas that show normal trees are alike if the trees are, unless comparing
them reaches the depth limit. -/
theorem WellFormed.alike_of_shows_normal
    (wellFormed : registry.WellFormed) {left right : Key} {levels : Nat}
    {leftTree rightTree : Tree} (leftNormal : leftTree.Normal)
    (rightNormal : rightTree.Normal) (same : leftTree.alike rightTree)
    (leftShows : registry.Shows levels left leftTree)
    (rightShows : registry.Shows levels right rightTree)
    (ends : (registry.comparison left right).Ends) :
    registry.alike left right = true := by
  obtain ⟨leftNode, leftStored, rfl⟩ := leftShows
  obtain ⟨rightNode, rightStored, rfl⟩ := rightShows
  have leftWhole := mem_whole leftStored leftNormal.settled
    (Nat.le_refl levels)
  have rightWhole := mem_whole rightStored rightNormal.settled
    (Nat.le_refl levels)
  rw [wellFormed.alike_eq_plainTree_alike leftStored rightStored ends leftWhole
    rightWhole, plainTree, plainTree, leftNormal.resolved.plain_eq,
    rightNormal.resolved.plain_eq]
  exact same

/-- Simplification is idempotent.  Where no disjunctive normal form is met, what
it yields can be simplified again, and what that yields is like it, unless
comparing them reaches the depth limit. -/
theorem Reachable.simplify_idempotent
    (reachable : registry.Reachable) {middle : Registry} {key result : Key}
    (plain : ∀ node part, registry.node? key = some node →
      registry.Meets node part →
        ∀ atoms rows generated, part.body ≠ .dnf atoms rows generated)
    (run : registry.Yields (simplify key) (some result) middle) :
    ∃ again final, middle.Yields (simplify result) (some again) final ∧
      ((final.comparison result again).Ends →
        final.alike result again = true) ∧
      ((final.comparison again result).Ends →
        final.alike again result = true) := by
  have wellFormed := reachable.wellFormed
  obtain ⟨tree, normal, shallow, shown⟩ :=
    wellFormed.presentsWithin_of_simplify plain run
  obtain ⟨middleWellFormed, extension⟩ :=
    run.related (grows_simplify key registry) wellFormed
  obtain ⟨outcome, final, rerun, finalWellFormed, growth, follows⟩ :=
    middleWellFormed.exists_yields_simplifyWithin
      (extension.levels_eq 0).ge shown normal.negationNormal shallow
  rw [normal.simplify_eq] at follows
  cases follows with
  | @some again _ shownAgain =>
      have stillShown := shown.of_extends middleWellFormed finalWellFormed
        growth normal.resolved
      rw [← extension.levels_eq 0] at rerun
      exact ⟨again, final, (yields_get middle).bind rerun,
        finalWellFormed.alike_of_shows_normal normal normal
          normal.alike_refl stillShown.shows shownAgain.shows,
        finalWellFormed.alike_of_shows_normal normal normal
          normal.alike_refl shownAgain.shows stillShown.shows⟩

/-- An implication from a negated conjunction simplifies to a disjunction, which
simplifies to another one like it. -/
theorem simplify_idempotent_of_implication :
    let registry := replay
      [.atom "p", .atom "q", .negation ⟨2⟩,
        .junction .conjunction [⟨1⟩, ⟨3⟩], .negation ⟨4⟩,
        .implication (some ⟨5⟩) (some ⟨2⟩)]
    let middle := registry.after (simplify ⟨6⟩)
    let final := middle.after (simplify ⟨17⟩)
    registry.Yields (simplify ⟨6⟩) (some ⟨17⟩) middle ∧
      middle.Yields (simplify ⟨17⟩) (some ⟨19⟩) final ∧
      final.alike ⟨17⟩ ⟨19⟩ = true ∧ final.alike ⟨19⟩ ⟨17⟩ = true := by
  intro registry middle final
  have run : registry.Yields (simplify ⟨6⟩) (some ⟨17⟩) middle :=
    yields_after (by decide +kernel)
  have rerun : middle.Yields (simplify ⟨17⟩) (some ⟨19⟩) final :=
    yields_after (by decide +kernel)
  let node : Node := { name := 5, body := .implication (some 4) (some 1) }
  have stored : registry.node? ⟨6⟩ = some node := by decide +kernel
  have plain := plain_of_closed
    (by decide +kernel : ∀ node ∈ registry.stock,
      registry.successors node ⊆ registry.stock)
    (by decide +kernel) (mem_stock_iff.mpr ⟨_, stored⟩)
  obtain ⟨again, last, secondRun, forth, back⟩ :=
    (reachable_replay _).simplify_idempotent
      (fun other part found => by
        rw [stored] at found
        obtain rfl := Option.some.inj found
        exact plain part) run
  obtain ⟨same, rfl⟩ := rerun.unique secondRun
  obtain rfl := Option.some.inj same
  exact ⟨run, rerun, forth (by decide +kernel), back (by decide +kernel)⟩

end Registry

end NamedLogic
