import NamedLogic.Proofs.CompleteTrees

/-!
# Simplifying negations

The simplification of a negation rebuilds that of its operand under the dual
connective, from newly formed negations of its operands.  None of these is lost,
repeated or flattened on the way, as the simplification of the operand is
normal.  So a formula, its negation and its double negation simplify to a tree,
its dual, and the tree again, and to nothing together.
-/

namespace NamedLogic

theorem Tree.simplify_map_dual_dual (tree : Tree) :
    (tree.simplify.map dual).map dual = tree.simplify := by
  cases simplified : tree.simplify with
  | none => rfl
  | some result =>
      have normal := normal_of_simplify simplified
      rw [Option.map_some, Option.map_some, normal.dual_dual]

namespace Registry

/-- Let a formula be bound to its own name, let no disjunctive normal form be met
from it, and let every name met stand for something.  However the registry grows
before it, its negation or its double negation is simplified: if the formula
simplifies to nothing, so do the others, and otherwise its negation simplifies to
the dual of the tree that it simplifies to, and its double negation to the same
tree. -/
theorem Reachable.simplify_negation_dual
    {registry : Registry} (reachable : registry.Reachable)
    {key : Key} {node : Node} (stored : registry.node? key = some node)
    (own : registry.binding node.name = some key)
    (plain : ∀ part, registry.Meets node part →
      ∀ atoms rows generated, part.body ≠ .dnf atoms rows generated)
    (standing : ∀ part, registry.Meets node part →
      ∀ name ∈ part.lookups, (registry.referent? name).isSome)
    {first firstFinal : Registry} {result : Option Key}
    (firstReachable : first.Reachable) (growth : registry.Extends first)
    (run : first.Yields (simplify key) result firstFinal) :
    ∃ outcome : Option Tree,
      Option.Rel firstFinal.Unfolds result outcome ∧
      ∀ (other otherFinal : Registry) (negatedKey : Key) (negated : Node)
        (counterpart : Option Key),
        other.Reachable → registry.Extends other →
        other.node? negatedKey = some negated →
        other.Yields (simplify negatedKey) counterpart otherFinal →
          (negated.body = .negation node.name →
            Option.Rel otherFinal.Unfolds counterpart
              (outcome.map Tree.dual)) ∧
          ∀ inner middle, negated.body = .negation inner →
            other.referent? inner = some middle →
              middle.body = .negation node.name →
                Option.Rel otherFinal.Unfolds counterpart outcome := by
  have wellFormed := reachable.wellFormed
  have resolved := resolved_of_standing plain standing
  have kept {later : Registry} (laterReachable : later.Reachable)
      (extension : registry.Extends later) (levels : Nat) :
      later.unfold levels node = registry.unfold levels node :=
    unfold_eq_of_gaps_eq_nil wellFormed laterReachable.wellFormed extension
      stored (resolved levels).gaps_eq_nil
  let tree := registry.unfold (registry.levels 0 + 1) node
  have firstTree : first.unfold (first.levels 0 + 1) node = tree := by
    rw [growth.levels_eq 0, kept firstReachable growth]
  obtain ⟨_, unfolds⟩ := run.simplify_unfolds firstReachable.wellFormed
    (growth.node? stored) (firstTree ▸ resolved _)
  rw [firstTree] at unfolds
  refine ⟨tree.simplify, unfolds, ?_⟩
  intro other otherFinal negatedKey negated counterpart otherReachable
    extension negatedStored negatedRun
  have stands : other.referent? node.name = some node :=
    (referent?_eq_some_iff _ _).mpr
      ⟨key, extension.bindings own, extension.node? stored⟩
  have below (levels : Nat) : other.nameTree levels node.name =
      registry.unfold levels node := by
    rw [nameTree_of_referent stands, kept otherReachable extension]
  -- A tree that shows all of the formula is its complete tree.
  have whole {levels : Nat} (enough : levels ≤ registry.levels 0 + 1)
      (settled : (registry.unfold levels node).Settled) :
      registry.unfold levels node = tree :=
    (unfold_eq_of_settled settled enough).symm
  constructor
  · intro body
    have shape : other.unfold (other.levels 0 + 1) negated =
        .negation (registry.unfold (registry.levels 0) node) := by
      rw [unfold_negation body, below, extension.levels_eq 0]
    obtain ⟨settled, unfolds⟩ := negatedRun.simplify_unfolds
      otherReachable.wellFormed negatedStored
      (shape ▸ ⟨trivial, resolved _⟩)
    rw [shape] at settled unfolds
    rw [whole (Nat.le_succ _) settled.2] at unfolds
    exact unfolds
  · intro inner middle body middleStands middleBody
    have shape : other.unfold (other.levels 0 + 1) negated =
        .negation (.negation (registry.unfold (registry.levels 1) node)) := by
      have levels : other.levels 0 = other.levels 1 + 1 := rfl
      rw [unfold_negation body, nameTree_of_referent middleStands, levels,
        unfold_negation middleBody, below, extension.levels_eq 1]
    obtain ⟨settled, unfolds⟩ := negatedRun.simplify_unfolds
      otherReachable.wellFormed negatedStored
      (shape ▸ ⟨trivial, trivial, resolved _⟩)
    have shallow : registry.levels 1 ≤ registry.levels 0 + 1 := by
      simp only [Registry.levels]
      omega
    rw [shape] at settled unfolds
    rw [whole shallow settled.2.2, Tree.simplify,
      Tree.simplify, Tree.simplify_map_dual_dual] at unfolds
    exact unfolds

/-- An implication, its negation once the implication has been simplified, and
its double negation before that. -/
theorem simplify_negation_dual_of_implication :
    let registry := replay
      [.atom "p", .atom "q", .negation ⟨2⟩,
        .junction .conjunction [⟨1⟩, ⟨3⟩], .implication (some ⟨1⟩) (some ⟨4⟩),
        .negation ⟨5⟩, .negation ⟨6⟩]
    let second := registry.after (simplify ⟨5⟩)
    let third := second.after (simplify ⟨6⟩)
    let other := registry.after (simplify ⟨7⟩)
    ∃ tree : Tree,
      second.Unfolds ⟨12⟩ tree ∧ third.Unfolds ⟨24⟩ tree.dual ∧
        other.Unfolds ⟨26⟩ tree := by
  intro registry second third other
  have reachable : registry.Reachable := reachable_replay _
  have secondReachable : second.Reachable := reachable.after_simplify ⟨5⟩
  have run : registry.Yields (simplify ⟨5⟩) (some ⟨12⟩) second :=
    yields_after (by decide +kernel)
  have negatedRun : second.Yields (simplify ⟨6⟩) (some ⟨24⟩) third :=
    yields_after (by decide +kernel)
  have doubledRun : registry.Yields (simplify ⟨7⟩) (some ⟨26⟩) other :=
    yields_after (by decide +kernel)
  let node : Node := { name := 4, body := .implication (some 0) (some 3) }
  let negated : Node := { name := 5, body := .negation 4 }
  let doubled : Node := { name := 6, body := .negation 5 }
  have stored : registry.node? ⟨5⟩ = some node := by decide +kernel
  have negatedStored : registry.node? ⟨6⟩ = some negated := by decide +kernel
  have member := mem_stock_iff.mpr ⟨_, stored⟩
  have plain := plain_of_closed
    (by decide +kernel : ∀ node ∈ registry.stock,
      registry.successors node ⊆ registry.stock)
    (by decide +kernel) member
  have standing : ∀ node ∈ registry.stock, ∀ name ∈ node.lookups,
      (registry.referent? name).isSome := by decide +kernel
  obtain ⟨outcome, unfolds, others⟩ := reachable.simplify_negation_dual stored
    (by decide +kernel) plain
    (fun part meets => standing part (meets.mem_stock member)) reachable
    (Extends.refl registry) run
  obtain ⟨_, growth⟩ :=
    run.related (grows_simplify ⟨5⟩ registry) reachable.wellFormed
  have dual := (others second third ⟨6⟩ negated _
    secondReachable growth (growth.node? negatedStored)
    negatedRun).1 rfl
  have same := (others registry other ⟨7⟩ doubled _ reachable
    (Extends.refl registry) (by decide +kernel) doubledRun).2 5 negated rfl
    (by decide +kernel) rfl
  cases unfolds with
  | @some _ tree unfolded =>
      cases dual with
      | some dualUnfolded =>
          cases same with
          | some sameUnfolded =>
              exact ⟨tree, unfolded, dualUnfolded, sameUnfolded⟩

end Registry

end NamedLogic
