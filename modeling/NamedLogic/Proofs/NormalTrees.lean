import NamedLogic.Proofs.TreeAlike
import Mathlib.Data.Set.List

/-!
# Pairs of normal trees

On normal trees, structural equality is an equivalence and opposition is that
of an atom and its negation.  So what comparing all pairs leaves of normal trees
is known.  Duality keeps trees normal, and negates them.
-/

namespace NamedLogic

namespace Tree

/-! ## Opposition -/

/-- Normal trees are opposed if they are a negated atom and that atom. -/
theorem Normal.opposed_iff
    {tree other : Tree} (normal : tree.Normal) :
    tree.opposed other ↔
      ∃ string, tree = negation (atom string) ∧ other = atom string := by
  cases normal with
  | positive | joined => simp [opposed]
  | negative string =>
      simp only [opposed, atom_alike_iff, negation.injEq, atom.injEq]
      constructor
      · rintro rfl
        exact ⟨string, rfl, rfl⟩
      · rintro ⟨_, rfl, rfl⟩
        rfl

/-- A normal tree. -/
abbrev NormalTree := { tree : Tree // tree.Normal }

/-- Opposition and structural equality of normal trees fit together. -/
theorem lawful_normalTree :
    Pairing.Lawful
      (fun first second : NormalTree => opposed first.1 second.1)
      (fun first second : NormalTree => alike first.1 second.1) where
  refl tree := tree.2.alike_refl
  symm {first _} same := first.2.alike_symm same
  trans := alike_trans
  left {first second other} same against := by
    obtain ⟨string, negated, positive⟩ := first.2.opposed_iff.mp against
    rw [negated] at same
    obtain ⟨inner, shape, inside⟩ := negation_alike_iff.mp same
    obtain rfl := atom_alike_iff.mp inside
    exact second.2.opposed_iff.mpr ⟨string, shape, positive⟩
  right {first second other} same against := by
    obtain ⟨string, negated, positive⟩ := other.2.opposed_iff.mp against
    rw [positive] at same
    exact other.2.opposed_iff.mpr
      ⟨string, negated, atom_alike_iff.mp same⟩
  unchained {first second third} against chained := by
    obtain ⟨_, _, positive⟩ := first.2.opposed_iff.mp against
    obtain ⟨_, negated, _⟩ := second.2.opposed_iff.mp chained
    rw [positive] at negated
    cases negated
  unique {first second other} left right := by
    obtain ⟨string, firstShape, positive⟩ := first.2.opposed_iff.mp left
    obtain ⟨_, secondShape, same⟩ := second.2.opposed_iff.mp right
    rw [positive] at same
    obtain rfl := Tree.atom.inj same
    rw [firstShape, secondShape]
    exact (Normal.negative string).alike_refl

theorem reduce?_map_val
    (connective : Connective) (operands : List NormalTree) :
    Pairing.reduce? connective opposed alike
        (operands.map Subtype.val) =
      (Pairing.reduce? connective
        (fun first second : NormalTree => opposed first.1 second.1)
        (fun first second : NormalTree => alike first.1 second.1)
        operands).map (List.map Subtype.val) :=
  Pairing.reduce?_map connective (fun _ _ _ _ => rfl) (fun _ _ _ _ => rfl)

section Reduction

variable {operands : List Tree} (normal : ∀ operand ∈ operands,
  operand.Normal)

include normal

/-- What comparing all pairs leaves of normal trees. -/
theorem reduce?_normal_spec (connective : Connective) :
    (Pairing.reduce? connective opposed alike operands = none ∧
        connective = .conjunction ∧
        Pairing.Conflicting opposed operands) ∨
      (Pairing.reduce? connective opposed alike operands =
          some (Pairing.remaining opposed alike operands) ∧
        (connective = .conjunction →
          ¬ Pairing.Conflicting opposed operands)) := by
  lift operands to List NormalTree using normal
  rw [reduce?_map_val, Pairing.remaining_map, Pairing.conflicting_map_iff]
  rcases Pairing.reduce?_spec lawful_normalTree connective operands with
    ⟨decided, conflict⟩ | ⟨reduced, compatible⟩
  · exact Or.inl ⟨by rw [decided, Option.map_none], conflict⟩
  · exact Or.inr ⟨by rw [reduced, Option.map_some], compatible⟩

theorem reduce?_of_compatible
    (connective : Connective)
    (compatible : ¬ Pairing.Conflicting opposed operands) :
    Pairing.reduce? connective opposed alike operands =
      some (Pairing.remaining opposed alike operands) := by
  rcases reduce?_normal_spec normal connective with
    ⟨_, _, conflict⟩ | ⟨reduced, _⟩
  · exact (compatible conflict).elim
  · exact reduced

/-- What is left stands for all operands without an opposed partner. -/
theorem exists_mem_remaining_normal
    {operand : Tree} (member : operand ∈ operands)
    (free : ¬ Pairing.cancelled opposed operands operand) :
    ∃ first ∈ Pairing.remaining opposed alike operands,
      first.alike operand := by
  lift operands to List NormalTree using normal
  obtain ⟨inner, present, rfl⟩ := List.mem_map.mp member
  rw [Pairing.cancelled_map] at free
  rw [Pairing.remaining_map]
  obtain ⟨first, firstMember, same⟩ := Pairing.exists_mem_remaining
    lawful_normalTree present free
  exact ⟨first.1, List.mem_map_of_mem firstMember, same⟩

end Reduction

theorem reduce?_normal_append_cons_of_mem
    (connective : Connective) {front back : List Tree} {operand : Tree}
    (normal : ∀ other ∈ front ++ operand :: back, other.Normal)
    (repeated : operand ∈ front) :
    Pairing.reduce? connective opposed alike (front ++ operand :: back) =
      Pairing.reduce? connective opposed alike (front ++ back) := by
  have frontNormal : ∀ other ∈ front, other.Normal := fun other member =>
    normal other (List.mem_append_left _ member)
  have backNormal : ∀ other ∈ back, other.Normal := fun other member =>
    normal other (List.mem_append_right _ (List.mem_cons_of_mem _ member))
  lift front to List NormalTree using frontNormal
  lift back to List NormalTree using backNormal
  obtain ⟨inner, present, rfl⟩ := List.mem_map.mp repeated
  rw [← List.map_cons, ← List.map_append, ← List.map_append,
    reduce?_map_val, reduce?_map_val,
    Pairing.reduce?_append_cons_of_mem lawful_normalTree connective present]

/-! ## Duality -/

@[simp]
theorem joins_dual (connective : Connective) (tree : Tree) :
    tree.dual.joins connective.dual = tree.joins connective := by
  cases tree with
  | junction inner operands =>
      rw [dual, joins, joins]
      cases inner <;> cases connective <;> rfl
  | negation operand => cases operand <;> rfl
  | _ => rfl

/-- Duals are alike exactly if the trees are. -/
theorem Normal.alike_dual
    {tree other : Tree} (normal : tree.Normal) :
    tree.dual.alike other.dual = tree.alike other := by
  rw [Bool.eq_iff_iff]
  induction normal generalizing other with
  | positive string =>
      cases other with
      | negation operand =>
          cases operand <;> simp [dual, alike]
      | _ => simp [dual, alike]
  | negative string =>
      cases other with
      | negation operand =>
          cases operand <;> simp [dual, alike]
      | _ => simp [dual, alike]
  | @joined connective operands irreducible parts inductionHypothesis =>
      cases other with
      | junction inner others =>
          rw [dual_junction, dual_junction, junction_alike_iff,
            junction_alike_iff]
          constructor
          · rintro ⟨_, same, sameLength, matched⟩
            obtain ⟨connectives, rfl⟩ := Tree.junction.inj same
            obtain rfl := Connective.dual_injective connectives
            refine ⟨others, rfl, by simpa using sameLength, ?_⟩
            intro first member
            obtain ⟨_, image, toImage⟩ :=
              matched first.dual (List.mem_map_of_mem member)
            obtain ⟨second, present, rfl⟩ := List.mem_map.mp image
            exact ⟨second, present,
              (inductionHypothesis first member).mp toImage⟩
          · rintro ⟨_, same, sameLength, matched⟩
            obtain ⟨rfl, rfl⟩ := Tree.junction.inj same
            refine ⟨_, rfl, by simpa using sameLength, ?_⟩
            intro image member
            obtain ⟨first, present, rfl⟩ := List.mem_map.mp member
            obtain ⟨second, secondMember, toSecond⟩ :=
              matched first present
            exact ⟨second.dual, List.mem_map_of_mem secondMember,
              (inductionHypothesis first present).mpr toSecond⟩
      | negation operand =>
          cases operand <;> simp [dual, alike]
      | _ => simp [dual, alike]

theorem Normal.opposed_dual_iff
    {tree other : Tree} (normal : tree.Normal) (otherNormal : other.Normal) :
    tree.dual.opposed other.dual ↔ other.opposed tree := by
  rw [otherNormal.opposed_iff]
  constructor
  · intro against
    cases normal with
    | positive string =>
        cases otherNormal <;>
          simp_all [dual, opposed, atom_alike_iff]
    | negative string => simp [dual, opposed] at against
    | joined => simp [dual, opposed] at against
  · rintro ⟨string, rfl, rfl⟩
    simp [dual, opposed, alike]

theorem Irreducible.dual
    {connective : Connective} {operands : List Tree}
    (irreducible : Irreducible connective operands)
    (parts : ∀ operand ∈ operands, operand.Normal) :
    Irreducible connective.dual (operands.map Tree.dual) where
  several := by simpa using irreducible.several
  flat := by
    intro operand member
    obtain ⟨inner, present, rfl⟩ := List.mem_map.mp member
    rw [joins_dual]
    exact irreducible.flat inner present
  distinct := by
    refine List.pairwise_map.mpr (irreducible.distinct.imp_of_mem ?_)
    intro first second member _ apart
    rwa [(parts first member).alike_dual]
  compatible := by
    rintro ⟨_, leftMember, _, rightMember, against⟩
    obtain ⟨left, leftPresent, rfl⟩ := List.mem_map.mp leftMember
    obtain ⟨right, rightPresent, rfl⟩ := List.mem_map.mp rightMember
    rw [(parts left leftPresent).opposed_dual_iff
      (parts right rightPresent)] at against
    exact irreducible.compatible
      ⟨right, rightPresent, left, leftPresent, against⟩

/-- The dual of a normal tree is normal. -/
theorem Normal.dual {tree : Tree} (normal : tree.Normal) :
    tree.dual.Normal := by
  induction normal with
  | positive string => exact .negative string
  | negative string => exact .positive string
  | joined irreducible parts inductionHypothesis =>
      rw [dual_junction]
      refine .joined (irreducible.dual parts) fun operand member => ?_
      obtain ⟨inner, present, rfl⟩ := List.mem_map.mp member
      exact inductionHypothesis inner present

theorem Normal.dual_dual {tree : Tree} (normal : tree.Normal) :
    tree.dual.dual = tree := by
  induction normal with
  | positive | negative => rfl
  | joined _ _ inductionHypothesis =>
      rw [dual_junction, dual_junction, Connective.dual_dual, List.map_map]
      refine congrArg _ ?_
      exact (List.map_congr_left inductionHypothesis).trans
        (List.map_id' _)

theorem joined_map_not (connective : Connective) (values : List Bool) :
    joined connective.dual (values.map not) = !joined connective values := by
  cases connective with
  | conjunction =>
      simp [joined, Connective.dual, List.not_all_eq_any_not]
  | disjunction =>
      simp [joined, Connective.dual, List.not_any_eq_all_not]

/-- The dual of a normal tree is its negation. -/
theorem Normal.holds_dual
    {tree : Tree} (normal : tree.Normal) (state : String → Bool) :
    tree.dual.holds state = !tree.holds state := by
  induction normal with
  | positive string => rfl
  | negative string =>
      rw [Tree.dual, holds, holds, holds, Bool.not_not]
  | joined _ _ inductionHypothesis =>
      rw [dual_junction, holds_junction, holds_junction, ← joined_map_not,
        List.map_map, List.map_map]
      refine congrArg _ (List.map_congr_left fun operand member => ?_)
      exact inductionHypothesis operand member

end Tree

end NamedLogic
