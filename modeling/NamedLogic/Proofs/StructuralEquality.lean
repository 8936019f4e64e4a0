import NamedLogic.Proofs.DistinctOperands
import NamedLogic.Proofs.Representation
import NamedLogic.Proofs.TreeHeight

/-!
# Structural equality as an equivalence

Structural equality matches the operands of one junction with those of another
in one direction only, so that repeated operands make it asymmetric, and a
normal form without a formula is not even like itself.  Apart from these, and
from what lies too deep to be compared, it is an equivalence: it is then the
structural equality of plain trees.
-/

namespace NamedLogic

namespace Registry

variable {registry : Registry}

/-- A disjunctive normal form has a formula recorded that is stored. -/
def Formed (registry : Registry) (node : Node) : Prop :=
  match node.body with
  | .dnf _ _ recorded => (recorded.bind registry.node?).isSome
  | _ => True

instance (registry : Registry) (node : Node) :
    Decidable (registry.Formed node) :=
  match body : node.body with
  | .dnf _ _ recorded =>
      decidable_of_iff (recorded.bind registry.node?).isSome
        (by rw [Formed, body])
  | .atom | .negation _ | .junction _ _ | .implication _ _ =>
      .isTrue (by simp only [Formed, body])

/-- A formula with a finite tree, of whose disjunctive normal forms none lacks
its formula, and of whose junctions none has two operands alike. -/
structure DuplicateFree (registry : Registry) (node : Node) : Prop where
  finite : ∃ levels, (registry.unfold levels node).Settled
  formed : ∀ part, registry.Meets node part → registry.Formed part
  apart : ∀ part, registry.Meets node part → registry.OperandsApart part

/-! ## Plain trees written out in full -/

theorem unfold_ne_generated_absent
    {node : Node} (formed : registry.Formed node) (levels : Nat) :
    registry.unfold (levels + 1) node ≠ .generated .absent := by
  intro lacking
  cases body : node.body with
  | dnf atoms rows recorded =>
      rw [Formed, body] at formed
      obtain ⟨formula, found⟩ := Option.isSome_iff_exists.mp formed
      rw [unfold_dnf body, recordedTree, found] at lacking
      exact unfold_ne_absent levels formula (Tree.generated.inj lacking)
  | atom => rw [unfold_atom body] at lacking; cases lacking
  | negation => rw [unfold_negation body] at lacking; cases lacking
  | junction => rw [unfold_junction body] at lacking; cases lacking
  | implication => rw [unfold_implication body] at lacking; cases lacking

/-- If no normal form lacks its formula, the plain tree is written out as far
as the tree is. -/
theorem explicit_plainTree
    {levels : Nat} {node : Node}
    (formed : ∀ part, registry.Meets node part → registry.Formed part)
    (settled : (registry.unfold levels node).Settled) :
    (registry.plainTree levels node).Explicit := by
  refine Tree.explicit_plain (every_unfold
    (.inr (chainsWithin_of_settled settled)) ?_ fun part meets => ⟨?_, ?_, ?_⟩)
  · intro part meets below
    refine ⟨fun cut => ?_,
      unfold_ne_generated_absent (formed part meets) below⟩
    have solid := @solid_unfold registry below part
    rw [cut] at solid
    exact solid
  · exact fun _ _ _ => ⟨nofun, nofun⟩
  · exact fun _ _ _ _ => ⟨nofun, nofun⟩
  · exact fun _ _ _ _ _ => ⟨nofun, nofun⟩

/-! ## The equivalence -/

theorem mem_whole
    {key : Key} {node : Node} (stored : registry.node? key = some node)
    {small large : Nat} (settled : (registry.unfold small node).Settled)
    (more : small ≤ large) : node ∈ registry.whole large :=
  ⟨mem_stock_iff.mpr ⟨key, stored⟩, by
    rwa [unfold_eq_of_settled settled more]⟩

/-- Where their comparison comes to an end, stored formulas are alike exactly
if their plain trees are. -/
theorem WellFormed.alike_eq_plainTree_alike
    (wellFormed : registry.WellFormed) {left right : Key}
    {leftNode rightNode : Node}
    (leftStored : registry.node? left = some leftNode)
    (rightStored : registry.node? right = some rightNode)
    (ends : (registry.comparison left right).Ends) {deep : Nat}
    (leftWhole : leftNode ∈ registry.whole deep)
    (rightWhole : rightNode ∈ registry.whole deep) :
    registry.alike left right =
      (registry.plainTree deep leftNode).alike
        (registry.plainTree deep rightNode) := by
  obtain ⟨answer, answered⟩ := ends
  rw [comparison_of_node? leftStored rightStored] at answered
  rw [alike_of_node? leftStored rightStored,
    nodesAlike_eq_of_compareNodes answered]
  have refined := (wellFormed.consistent_plainTree deep).compareNodes_refines
    _ leftWhole rightWhole answer answered
  exact (Except.ok.inj refined).symm

theorem WellFormed.distinct_plainTree_of_comparison
    (wellFormed : registry.WellFormed) {key : Key} {node : Node}
    (stored : registry.node? key = some node) {deep : Nat}
    (whole : node ∈ registry.whole deep)
    (explicit : (registry.plainTree deep node).Explicit)
    (apart : ∀ part, registry.Meets node part → registry.OperandsApart part)
    (ends : (registry.comparison key key).Ends) :
    (registry.plainTree deep node).Distinct := by
  obtain ⟨answer, answered⟩ := ends
  rw [comparison_of_node? stored stored] at answered
  exact wellFormed.distinct_plainTree whole explicit (Nat.le_refl _) apart
    .refl answered

/-- Structural equality is an equivalence on stored formulas that are free of
duplicates and whose comparisons never reach the depth limit. -/
theorem Reachable.alike_equivalence
    (reachable : registry.Reachable) {keys : Set Key}
    (duplicateFree : ∀ key ∈ keys, ∃ node,
      registry.node? key = some node ∧ registry.DuplicateFree node)
    (ends : ∀ left ∈ keys, ∀ right ∈ keys,
      (registry.comparison left right).Ends) :
    Equivalence fun left right : keys => registry.alike left right = true := by
  have wellFormed := reachable.wellFormed
  choose node stored free using duplicateFree
  choose levels settled using fun key member => (free key member).finite
  have whole (key : keys) {deep : Nat}
      (enough : levels key.1 key.2 ≤ deep) :
      node key.1 key.2 ∈ registry.whole deep :=
    mem_whole (stored key.1 key.2) (settled key.1 key.2) enough
  have same (left right : keys) {deep : Nat}
      (leftEnough : levels left.1 left.2 ≤ deep)
      (rightEnough : levels right.1 right.2 ≤ deep) :
      registry.alike left right =
        (registry.plainTree deep (node left.1 left.2)).alike
          (registry.plainTree deep (node right.1 right.2)) :=
    wellFormed.alike_eq_plainTree_alike (stored left.1 left.2)
      (stored right.1 right.2) (ends left.1 left.2 right.1 right.2)
      (whole left leftEnough) (whole right rightEnough)
  have explicit (key : keys) {deep : Nat}
      (enough : levels key.1 key.2 ≤ deep) :
      (registry.plainTree deep (node key.1 key.2)).Explicit :=
    explicit_plainTree (free key.1 key.2).formed (whole key enough).2
  constructor
  · intro key
    rw [same key key (Nat.le_refl _) (Nat.le_refl _)]
    exact (explicit key (Nat.le_refl _)).alike_refl
  · intro left right alike
    have leftEnough := Nat.le_max_left (levels left.1 left.2)
      (levels right.1 right.2)
    have rightEnough := Nat.le_max_right (levels left.1 left.2)
      (levels right.1 right.2)
    rw [same left right leftEnough rightEnough] at alike
    rw [same right left rightEnough leftEnough]
    have distinct := wellFormed.distinct_plainTree_of_comparison
      (stored left.1 left.2) (whole left leftEnough)
      (explicit left leftEnough) (free left.1 left.2).apart
      (ends left.1 left.2 left.1 left.2)
    exact distinct.alike_symm alike
  · intro first second third firstAlike secondAlike
    let deep := levels first.1 first.2 + levels second.1 second.2 +
      levels third.1 third.2
    have firstEnough : levels first.1 first.2 ≤ deep := by omega
    have secondEnough : levels second.1 second.2 ≤ deep := by omega
    have thirdEnough : levels third.1 third.2 ≤ deep := by omega
    rw [same first second firstEnough secondEnough] at firstAlike
    rw [same second third secondEnough thirdEnough] at secondAlike
    rw [same first third firstEnough thirdEnough]
    exact Tree.alike_trans firstAlike secondAlike

/-- A disjunctive normal form is like a conjunction of the same literals in the
opposite order, also as a side of an implication that lacks the other, but not
like that implication. -/
theorem alike_equivalence_of_reordered_literals :
    let registry := replay
      [.atom "a", .atom "b", .dnf [⟨1⟩, ⟨2⟩] 2,
        .junction .conjunction [⟨4⟩, ⟨1⟩], .implication none (some ⟨7⟩),
        .implication none (some ⟨8⟩)]
    let keys : Set Key := { key | key ∈ [⟨7⟩, ⟨8⟩, ⟨9⟩, ⟨10⟩] }
    (∀ key ∈ keys, (registry.node? key).isSome) ∧
      registry.alike ⟨7⟩ ⟨8⟩ = true ∧ registry.alike ⟨10⟩ ⟨9⟩ = true ∧
      registry.alike ⟨7⟩ ⟨9⟩ = false ∧
      Equivalence fun left right : keys =>
        registry.alike left right = true := by
  intro registry keys
  have lower : ∀ node ∈ registry.stock, ∀ next ∈ registry.successors node,
      next ∈ registry.stock ∧
        (registry.unfold 11 next).height <
          (registry.unfold 11 node).height := by
    decide +kernel
  have formed : ∀ node ∈ registry.stock, registry.Formed node := by
    decide +kernel
  have apart : ∀ node ∈ registry.stock, registry.OperandsApart node := by
    decide +kernel
  have free : ∀ node ∈ registry.stock, registry.DuplicateFree node :=
    fun node member => {
      finite := ⟨_, settled_of_chainsWithin
        ((acyclic_of_ranked lower member).chainsWithin member)⟩
      formed := fun part meets => formed part (meets.mem_stock member)
      apart := fun part meets => apart part (meets.mem_stock member) }
  have present : ∀ key ∈ [⟨7⟩, ⟨8⟩, ⟨9⟩, ⟨10⟩],
      (registry.node? key).isSome := by decide +kernel
  have ends : ∀ left ∈ [⟨7⟩, ⟨8⟩, ⟨9⟩, ⟨10⟩],
      ∀ right ∈ [⟨7⟩, ⟨8⟩, ⟨9⟩, ⟨10⟩],
        (registry.comparison left right).Ends := by decide +kernel
  refine ⟨present, by decide +kernel, by decide +kernel, by decide +kernel,
    (reachable_replay _).alike_equivalence (fun key member => ?_) ends⟩
  obtain ⟨node, stored⟩ := Option.isSome_iff_exists.mp (present key member)
  exact ⟨node, stored, free node (mem_stock_iff.mpr ⟨key, stored⟩)⟩

/-- Repeated operands are all matched with one. -/
example :
    let registry := replay
      [.atom "a", .atom "b", .negation ⟨1⟩, .negation ⟨1⟩,
        .junction .conjunction [⟨3⟩, ⟨4⟩], .junction .conjunction [⟨3⟩, ⟨2⟩]]
    registry.alike ⟨5⟩ ⟨6⟩ = true ∧ registry.alike ⟨6⟩ ⟨5⟩ = false := by
  decide +kernel

end Registry

end NamedLogic
