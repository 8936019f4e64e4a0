import NamedLogic.Proofs.BoundedDescent
import NamedLogic.Proofs.GatheredJunction
import NamedLogic.Proofs.NormalForms

/-!
# Complete trees

A formula whose unfolding comes to an end has one complete tree.  Where all names
met stand for something and no disjunctive normal form is met, simplification
yields the simplification of the complete tree, and the complete tree stays what
it is while the registry grows.
-/

namespace NamedLogic

namespace Registry

/-- The complete tree of the formula stored under a key. -/
def Unfolds (registry : Registry) (key : Key) (tree : Tree) : Prop :=
  tree.Settled ∧ ∃ levels, registry.Shows levels key tree

section Unfolds

variable {registry : Registry} {node : Node}

theorem unfolds_iff_of_stored
    {key : Key} {tree : Tree} (stored : registry.node? key = some node) :
    registry.Unfolds key tree ↔
      tree.Settled ∧ ∃ levels, registry.unfold levels node = tree := by
  simp [Unfolds, Shows, stored]

/-- A formula has only one complete tree. -/
theorem Unfolds.unique
    {key : Key} {first second : Tree} (left : registry.Unfolds key first)
    (right : registry.Unfolds key second) : first = second := by
  obtain ⟨leftSettled, leftLevels, leftNode, leftStored, rfl⟩ := left
  obtain ⟨rightSettled, rightLevels, rightNode, rightStored, rfl⟩ := right
  obtain rfl := Option.some.inj (leftStored.symm.trans rightStored)
  rw [← unfold_eq_of_settled leftSettled (Nat.le_max_left _ rightLevels),
    ← unfold_eq_of_settled rightSettled (Nat.le_max_right leftLevels _)]

/-- The members of a list of complete trees. -/
theorem mem_iff_of_forall₂_unfolds
    {operands : List Key} {trees : List Tree}
    (unfolds : List.Forall₂ registry.Unfolds operands trees) {tree : Tree} :
    tree ∈ trees ↔ ∃ operand ∈ operands, registry.Unfolds operand tree := by
  induction unfolds with
  | nil => simp
  | cons head _ inductionHypothesis =>
      rw [List.mem_cons, inductionHypothesis, List.exists_mem_cons_iff]
      exact or_congr_left ⟨fun same => same ▸ head, fun other =>
        other.unique head⟩

/-- Where every name met stands for something and no disjunctive normal form is
met, trees are resolved. -/
theorem resolved_of_standing
    (plain : ∀ part, registry.Meets node part →
      ∀ atoms rows generated, part.body ≠ .dnf atoms rows generated)
    (standing : ∀ part, registry.Meets node part →
      ∀ name ∈ part.lookups, (registry.referent? name).isSome)
    (levels : Nat) : (registry.unfold levels node).Resolved := by
  refine every_unfold (.inl trivial) ?_ fun part meets => ⟨?_, ?_, ?_⟩
  · intro part meets below
    cases body : part.body with
    | atom => rw [unfold_atom body]; trivial
    | negation => rw [unfold_negation body]; trivial
    | junction => rw [unfold_junction body]; trivial
    | implication => rw [unfold_implication body]; trivial
    | dnf => exact (plain part meets _ _ _ body).elim
  · intro name named nothing
    have stands := standing part meets name named
    rw [nothing] at stands
    cases stands
  · exact fun _ _ _ _ => trivial
  · exact fun _ _ _ _ _ => trivial

/-- Every name met from a node stands for something, and no disjunctive normal
form is met. -/
structure Transparent (registry : Registry) (node : Node) : Prop where
  plain : ∀ part, registry.Meets node part →
    ∀ atoms rows generated, part.body ≠ .dnf atoms rows generated
  standing : ∀ part, registry.Meets node part →
    ∀ name ∈ part.lookups, (registry.referent? name).isSome

theorem Transparent.resolved
    (transparent : registry.Transparent node) (levels : Nat) :
    (registry.unfold levels node).Resolved :=
  resolved_of_standing transparent.plain transparent.standing levels

/-- Where all names looked up in stored nodes stand for something and no
disjunctive normal form is stored, all stored nodes are transparent. -/
theorem transparent_of_stock
    (plain : ∀ part ∈ registry.stock, ¬ part.isDnf)
    (standing : ∀ part ∈ registry.stock, ∀ name ∈ part.lookups,
      (registry.referent? name).isSome)
    {key : Key} (stored : registry.node? key = some node) :
    registry.Transparent node where
  plain part meets atoms rows generated body := by
    refine plain part (meets.mem_stock (mem_stock_iff.mpr ⟨key, stored⟩)) ?_
    rw [Node.isDnf, body]
  standing part meets :=
    standing part (meets.mem_stock (mem_stock_iff.mpr ⟨key, stored⟩))

end Unfolds

/-- A simplification that succeeds on a formula whose names are all bound has
for its complete tree the simplification of the complete tree. -/
theorem Yields.simplify_unfolds
    {before after : Registry} {key : Key} {node : Node}
    {result : Option Key} (wellFormed : before.WellFormed)
    (stored : before.node? key = some node)
    (resolved : (before.unfold (before.levels 0 + 1) node).Resolved)
    (run : before.Yields (simplify key) result after) :
    (before.unfold (before.levels 0 + 1) node).Settled ∧
      Option.Rel after.Unfolds result
        (before.unfold (before.levels 0 + 1) node).simplify := by
  obtain ⟨settled, outcome⟩ := run.simplify_shows wellFormed stored resolved
  refine ⟨settled, ?_⟩
  cases simplified : (before.unfold (before.levels 0 + 1) node).simplify with
  | none =>
      rw [simplified] at outcome
      cases outcome
      exact .none
  | some tree =>
      rw [simplified] at outcome
      cases outcome with
      | some shown =>
          exact .some ⟨(Tree.normal_of_simplify simplified).settled, _, shown⟩

/-! ## Formulas in a growing registry -/

theorem Unfolds.of_extends
    {before after : Registry} {key : Key} {tree : Tree}
    (unfolds : before.Unfolds key tree) (resolved : tree.Resolved)
    (beforeWellFormed : before.WellFormed)
    (afterWellFormed : after.WellFormed) (extension : before.Extends after) :
    after.Unfolds key tree := by
  obtain ⟨settled, levels, node, stored, rfl⟩ := unfolds
  refine ⟨settled, levels, node, extension.node? stored, ?_⟩
  exact unfold_eq_of_gaps_eq_nil beforeWellFormed afterWellFormed extension
    stored resolved.gaps_eq_nil

theorem Unfolds.exists_shows
    {registry : Registry} {left right : Key} {leftTree rightTree : Tree}
    (leftUnfolds : registry.Unfolds left leftTree)
    (rightUnfolds : registry.Unfolds right rightTree) :
    ∃ levels, registry.Shows levels left leftTree ∧
      registry.Shows levels right rightTree := by
  obtain ⟨leftSettled, leftLevels, leftNode, leftStored, rfl⟩ := leftUnfolds
  obtain ⟨rightSettled, rightLevels, rightNode, rightStored, rfl⟩ :=
    rightUnfolds
  exact ⟨max leftLevels rightLevels,
    ⟨leftNode, leftStored,
      unfold_eq_of_settled leftSettled (Nat.le_max_left _ _)⟩,
    ⟨rightNode, rightStored,
      unfold_eq_of_settled rightSettled (Nat.le_max_right _ _)⟩⟩

/-- A stored formula that is bound to its own name, and whose trees are
resolved. -/
structure Clear (registry : Registry) (key : Key) (node : Node) : Prop where
  stored : registry.node? key = some node
  bound : registry.binding node.name = some key
  resolved : ∀ levels, (registry.unfold levels node).Resolved

/-- A formula that is bound to its own name and transparent. -/
def Anchored (registry : Registry) (key : Key) : Prop :=
  ∃ node, registry.node? key = some node ∧
    registry.binding node.name = some key ∧ registry.Transparent node

theorem anchored_of_stock
    {registry : Registry} {keys : List Key}
    (plain : ∀ part ∈ registry.stock, ¬ part.isDnf)
    (standing : ∀ part ∈ registry.stock, ∀ name ∈ part.lookups,
      (registry.referent? name).isSome)
    (own : ∀ key ∈ keys,
      (registry.node? key).any fun node => registry.binding node.name == key) :
    ∀ key ∈ keys, registry.Anchored key := by
  intro key member
  obtain ⟨node, stored, itself⟩ := bound_of_any (own key member)
  exact ⟨node, stored, itself, transparent_of_stock plain standing stored⟩

theorem Anchored.exists_clear
    {registry : Registry} {key : Key} (anchored : registry.Anchored key) :
    ∃ node, registry.Clear key node := by
  obtain ⟨node, stored, bound, transparent⟩ := anchored
  exact ⟨node, stored, bound, transparent.resolved⟩

namespace Clear

section Growth

variable {before after : Registry} {key : Key} {node : Node}
  (clear : before.Clear key node) (beforeWellFormed : before.WellFormed)
  (afterWellFormed : after.WellFormed) (extension : before.Extends after)

include clear beforeWellFormed afterWellFormed extension

theorem unfold_eq (levels : Nat) :
    after.unfold levels node = before.unfold levels node :=
  unfold_eq_of_gaps_eq_nil beforeWellFormed afterWellFormed extension
    clear.stored (clear.resolved levels).gaps_eq_nil

theorem of_extends : after.Clear key node where
  stored := extension.node? clear.stored
  bound := extension.bindings clear.bound
  resolved levels := by
    rw [clear.unfold_eq beforeWellFormed afterWellFormed extension]
    exact clear.resolved levels

theorem unfolds_iff {tree : Tree} :
    after.Unfolds key tree ↔ before.Unfolds key tree := by
  rw [unfolds_iff_of_stored clear.stored,
    unfolds_iff_of_stored (extension.node? clear.stored)]
  simp only [clear.unfold_eq beforeWellFormed afterWellFormed extension]

theorem unfolds_of_settled
    {levels : Nat} (settled : (after.unfold levels node).Settled) :
    before.Unfolds key (after.unfold levels node) := by
  rw [clear.unfold_eq beforeWellFormed afterWellFormed extension]
    at settled ⊢
  exact (unfolds_iff_of_stored clear.stored).mpr ⟨settled, levels, rfl⟩

end Growth

section Names

variable {registry : Registry} {key : Key} {node : Node}
  (clear : registry.Clear key node)

include clear

theorem nameTree_eq (levels : Nat) :
    registry.nameTree levels node.name = registry.unfold levels node :=
  nameTree_of_referent
    ((referent?_eq_some_iff _ _).mpr ⟨key, clear.bound, clear.stored⟩) levels

theorem resolved_of_mem_offered
    {connective : Connective} {name : Name}
    (member : name ∈ node.offered connective) (levels : Nat) :
    (registry.nameTree levels name).Resolved := by
  unfold Node.offered at member
  cases flattened : node.operandsUnder? connective with
  | some names =>
      rw [flattened] at member
      have body := operandsUnder?_eq_some_iff.mp flattened
      exact (unfold_junction_resolved_iff body levels).mp
        (clear.resolved (levels + 1)) name member
  | none =>
      rw [flattened] at member
      obtain rfl := List.mem_singleton.mp member
      rw [clear.nameTree_eq]
      exact clear.resolved levels

/-- If the names that a formula offers to a junction have complete trees, the
formula has one that contributes them. -/
theorem contributed_unfold
    {connective : Connective} {levels : Nat}
    (settled : ∀ name ∈ node.offered connective,
      (registry.nameTree levels name).Settled) :
    (registry.unfold (levels + 1) node).Settled ∧
      (registry.unfold (levels + 1) node).contributed connective =
        (node.offered connective).map (registry.nameTree levels) := by
  unfold Node.offered at settled ⊢
  cases flattened : node.operandsUnder? connective with
  | some names =>
      rw [flattened] at settled
      rw [unfold_junction (operandsUnder?_eq_some_iff.mp flattened),
        Tree.settled_junction_iff, List.forall_mem_map, Tree.contributed,
        if_pos rfl]
      exact ⟨settled, rfl⟩
  | none =>
      have itself := settled node.name (by simp [flattened])
      have whole : (registry.unfold (levels + 1) node).joins connective =
          (node.operandsUnder? connective).isSome :=
        joins_unfold levels node connective
      rw [flattened] at whole
      rw [clear.nameTree_eq] at itself
      rw [Tree.contributed_of_not_joins whole,
        unfold_succ_of_settled itself]
      exact ⟨itself, by rw [Option.getD_none, List.map_singleton,
        clear.nameTree_eq]⟩

end Names

end Clear

end Registry

end NamedLogic
