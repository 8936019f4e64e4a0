import NamedLogic.Proofs.ClassicalAgreement
import NamedLogic.Proofs.OrderFreeJunctions
import NamedLogic.Proofs.StructuralEquality
import NamedLogic.Proofs.TraversalLimits

/-!
# Values of formulas that are alike

Both logics evaluate the operands of a junction from left to right and stop
early, and formulas that are alike may have their operands in different orders.
Once every operand has an outcome, the four-valued logic depends on the set of
outcomes alone.  The classical logic does so only where every operand has a
value, since an operand without one leaves a conjunction without a value unless
a false one comes before it.
-/

namespace NamedLogic

/-! ## Values of trees -/

namespace Tree

/-- A tree has the value of its plain tree, unless a formula is lacking. -/
theorem value_plain
    {V : Type} [Interpretation V] {tree : Tree}
    (settled : tree.plain.Settled) (valuation : Valuation V) :
    tree.plain.value valuation = tree.value valuation := by
  induction tree using Tree.inductionOn with
  | atom | unresolved | absent | beyond => rfl
  | negation operand inductionHypothesis =>
      rw [plain, value, value,
        inductionHypothesis (settled_negation_iff.mp settled)]
  | junction connective operands inductionHypothesis =>
      rw [plain_junction, settled_junction_iff, List.forall_mem_map]
        at settled
      have values : (operands.map plain).map (value valuation) =
          operands.map (value valuation) := by
        rw [List.map_map]
        exact List.map_congr_left fun operand member =>
          inductionHypothesis operand member (settled operand member)
      rw [plain_junction]
      cases connective <;> rw [value, value, values_eq_map, values_eq_map,
        values]
  | implication antecedent consequent premise conclusion =>
      obtain ⟨left, right⟩ := settled_implication_iff.mp settled
      rw [plain, value, value, premise left, conclusion right]
  | generated formula inductionHypothesis =>
      by_cases missing : formula = absent
      · subst missing
        exact (settled rfl).elim
      · rw [plain_generated missing] at settled ⊢
        rw [value, inductionHypothesis settled]

/-- A tree is true in the same states as its plain tree. -/
theorem holds_plain (tree : Tree) (state : String → Bool) :
    tree.plain.holds state = tree.holds state := by
  induction tree using Tree.inductionOn with
  | atom | unresolved | absent | beyond => rfl
  | negation operand inductionHypothesis =>
      rw [plain, holds, holds, inductionHypothesis]
  | junction connective operands inductionHypothesis =>
      have truths : operands.map (holds state ∘ plain) =
          operands.map (holds state) := List.map_congr_left inductionHypothesis
      rw [plain_junction, holds_junction, holds_junction, List.map_map, truths]
  | implication antecedent consequent premise conclusion =>
      rw [plain, holds, holds, premise, conclusion]
  | generated formula inductionHypothesis =>
      by_cases missing : formula = absent
      · subst missing
        rfl
      · rw [plain_generated missing, holds, inductionHypothesis]

theorem Explicit.settled {tree : Tree} (explicit : tree.Explicit) :
    tree.Settled := by
  refine explicit.imp fun part fine => ?_
  rintro rfl
  exact fine

/-- A tree with distinct operands has the same four-valued value as any tree it
is like. -/
theorem Distinct.value_eq_of_alike
    {tree other : Tree} (distinct : tree.Distinct) (same : tree.alike other)
    (valuation : Valuation Four) :
    tree.value valuation = other.value valuation := by
  induction tree using Tree.inductionOn generalizing other with
  | atom string => rw [atom_alike_iff.mp same]
  | unresolved | absent =>
      cases other <;> first | rfl | simp [alike] at same
  | generated | beyond => simp [alike] at same
  | negation operand inductionHypothesis =>
      obtain ⟨_, rfl, inner⟩ := negation_alike_iff.mp same
      rw [value, value, inductionHypothesis distinct.2 inner]
  | junction connective operands inductionHypothesis =>
      obtain ⟨_, parts⟩ := distinct_junction_iff.mp distinct
      obtain ⟨others, rfl, _⟩ := junction_alike_iff.mp same
      have ends : ∀ outcome ∈ operands.map (value valuation),
          (id outcome).Ends := by
        refine List.forall_mem_map.mpr fun operand member => ?_
        have explicit := explicit_junction_iff.mp (explicit_of_alike same)
        exact (explicit operand member).settled.ends valuation
      have outcomes := distinct.mem_map_iff same fun operand member =>
        inductionHypothesis operand member (parts operand member)
      obtain ⟨conjoined, disjoined⟩ :=
        Belnap.junction_eq_of_mem_iff ends
          fun outcome => (outcomes outcome).symm
      cases connective with
      | conjunction => rw [value, value, values_eq_map, values_eq_map, conjoined]
      | disjunction => rw [value, value, values_eq_map, values_eq_map, disjoined]
  | implication antecedent consequent premise conclusion =>
      obtain ⟨_, _, rfl, left, right⟩ := implication_alike_iff.mp same
      rw [value, value, premise distinct.2.1 left,
        conclusion distinct.2.2 right]

end Tree

/-! ## Values of nodes -/

namespace Registry

variable {registry : Registry} {node : Node}

/-- Every name of a node stands for something, and an implication has both
sides. -/
def Filled (registry : Registry) (node : Node) : Prop :=
  (∀ name ∈ node.lookups, (registry.referent? name).isSome) ∧
    ∀ antecedent consequent,
      node.body = .implication antecedent consequent →
        antecedent.isSome ∧ consequent.isSome

theorem Filled.supplied
    (filled : registry.Filled node) (formed : registry.Formed node) :
    registry.Supplied node := by
  refine ⟨filled.1, ?_⟩
  cases body : node.body with
  | implication antecedent consequent =>
      exact filled.2 antecedent consequent body
  | dnf =>
      rw [Formed, body] at formed
      exact formed
  | _ => exact trivial

theorem Supplied.filled (supplied : registry.Supplied node) :
    registry.Filled node := by
  refine ⟨supplied.1, fun antecedent consequent body => ?_⟩
  obtain ⟨⟨_, rfl⟩, _, rfl⟩ := supplied.sided body
  exact ⟨rfl, rfl⟩

/-- If the plain tree of a formula is written out in full, no normal form met
from it lacks its formula. -/
theorem formed_of_explicit
    {levels : Nat} {part : Node} (whole : node ∈ registry.whole levels)
    (explicit : (registry.plainTree levels node).Explicit)
    (meets : registry.Meets node part) : registry.Formed part := by
  induction meets with
  | here node =>
      rw [Formed]
      split
      · next atoms rows recorded body =>
          cases found : recorded.bind registry.node? with
          | some formula => rfl
          | none =>
              rw [plainTree_succ whole.2, unfold_dnf body, recordedTree,
                found] at explicit
              exact explicit.elim
      · trivial
  | further step _ inductionHypothesis =>
      rw [plainTree_succ whole.2] at explicit
      exact inductionHypothesis ⟨step.mem_stock, step.settled whole.2⟩
        (explicit.plain_of_mem_children (step.mem_children levels)
          (unfold_ne_absent levels _))

/-- What an evaluation finds is the value of the whole tree. -/
theorem evaluate_eq_value_of_settled
    {V : Type} [Interpretation V] [Extensional V] [Persistent V]
    {valuation : Valuation V} {key : Key}
    (stored : registry.node? key = some node)
    (ends : (registry.evaluate valuation key).Ends) {levels : Nat}
    (settled : (registry.unfold levels node).Settled) :
    registry.evaluate valuation key =
      (registry.unfold levels node).value valuation := by
  obtain ⟨outcome, found⟩ := ends
  rw [found]
  rw [evaluate, stored] at found
  have deeper := nodeValue_persists_of_le
    (Nat.le_max_left (registry.levels 0) levels) node outcome found
  rw [nodeValue_eq_value,
    unfold_eq_of_settled settled (Nat.le_max_right _ _)] at deeper
  exact deeper.symm

theorem gives_state_of_given
    {valuation : Valuation Bool} {levels : Nat}
    (given : ∀ part, registry.Meets node part →
      registry.Given valuation part) :
    Tree.Gives valuation valuation.state
      ((registry.unfold levels node).literals true) := by
  intro literal member
  obtain ⟨atom, meets, body, same⟩ := exists_atom_of_mem_literals member
  exact Valuation.get?_of_contains
    (same ▸ given atom meets (by rw [Node.isAtom, body]))

/-! ## Values of formulas that are alike -/

/-- Stored formulas with finite trees that are alike have the same value in the
four-valued logic under every valuation, provided no two operands of a junction
of the first are alike, and neither the comparison of the first with itself nor
the evaluations reach the depth limit.  They have the same value in the
classical logic under every valuation of all atoms met, provided every name met
stands for something and every implication met has both sides. -/
theorem Reachable.evaluate_eq_of_alike
    (reachable : registry.Reachable) {left right : Key}
    {leftNode rightNode : Node}
    (leftStored : registry.node? left = some leftNode)
    (rightStored : registry.node? right = some rightNode)
    (leftFinite : ∃ levels, (registry.unfold levels leftNode).Settled)
    (rightFinite : ∃ levels, (registry.unfold levels rightNode).Settled)
    (apart : ∀ part, registry.Meets leftNode part →
      registry.OperandsApart part)
    (ends : (registry.comparison left left).Ends)
    (alike : registry.alike left right = true) :
    (∀ valuation : Valuation Four,
      (registry.evaluate valuation left).Ends →
      (registry.evaluate valuation right).Ends →
        registry.evaluate valuation left =
          registry.evaluate valuation right) ∧
    ((∀ part, registry.Meets leftNode part ∨ registry.Meets rightNode part →
        registry.Filled part) →
      ∀ valuation : Valuation Bool,
        (∀ part,
          registry.Meets leftNode part ∨ registry.Meets rightNode part →
            registry.Given valuation part) →
        (registry.evaluate valuation left).Ends →
        (registry.evaluate valuation right).Ends →
          registry.evaluate valuation left =
            registry.evaluate valuation right) := by
  have wellFormed := reachable.wellFormed
  obtain ⟨leftLevels, leftSettled⟩ := leftFinite
  obtain ⟨rightLevels, rightSettled⟩ := rightFinite
  let deep := max leftLevels rightLevels
  have leftWhole : leftNode ∈ registry.whole deep :=
    mem_whole leftStored leftSettled (Nat.le_max_left _ _)
  have rightWhole : rightNode ∈ registry.whole deep :=
    mem_whole rightStored rightSettled (Nat.le_max_right _ _)
  rw [alike_of_node? leftStored rightStored] at alike
  have same := (wellFormed.consistent_plainTree deep).of_nodesAlike leftWhole
    rightWhole alike
  have leftExplicit := Tree.explicit_of_alike same
  have distinct := wellFormed.distinct_plainTree_of_comparison leftStored
    leftWhole leftExplicit apart ends
  have rightExplicit := Tree.explicit_of_alike (distinct.alike_symm same)
  constructor
  · intro valuation leftEnds rightEnds
    rw [evaluate_eq_value_of_settled leftStored leftEnds leftWhole.2,
      evaluate_eq_value_of_settled rightStored rightEnds rightWhole.2,
      ← Tree.value_plain leftExplicit.settled,
      ← Tree.value_plain rightExplicit.settled]
    exact distinct.value_eq_of_alike same valuation
  · intro filled valuation given leftEnds rightEnds
    have leftTotal := total_of_supplied
      (chainsWithin_of_settled leftWhole.2) fun part meets =>
        (filled part (.inl meets)).supplied
          (formed_of_explicit leftWhole leftExplicit meets)
    have rightTotal := total_of_supplied
      (chainsWithin_of_settled rightWhole.2) fun part meets =>
        (filled part (.inr meets)).supplied
          (formed_of_explicit rightWhole rightExplicit meets)
    have truth : (registry.unfold deep leftNode).holds valuation.state =
        (registry.unfold deep rightNode).holds valuation.state := by
      rw [← Tree.holds_plain (registry.unfold deep leftNode),
        ← Tree.holds_plain (registry.unfold deep rightNode)]
      exact distinct.holds_eq_of_alike same valuation.state
    rw [evaluate_eq_value_of_settled leftStored leftEnds leftWhole.2,
      evaluate_eq_value_of_settled rightStored rightEnds rightWhole.2,
      leftTotal.value_eq (gives_state_of_given fun part meets =>
        given part (.inl meets)),
      rightTotal.value_eq (gives_state_of_given fun part meets =>
        given part (.inr meets)), truth]

/-- Implications to a disjunctive normal form and to a conjunction of the same
literals in the opposite order, under conflicting evidence for one atom and none
for the other, and under a classical valuation.  The conjunction, which is not like
them, has another value. -/
theorem evaluate_eq_of_reordered_literals :
    let registry := replay
      [.atom "a", .atom "b", .dnf [⟨1⟩, ⟨2⟩] 2,
        .junction .conjunction [⟨4⟩, ⟨1⟩],
        .implication (some ⟨2⟩) (some ⟨7⟩),
        .implication (some ⟨2⟩) (some ⟨8⟩)]
    let conflicting := Valuation.ofList [("a", Four.top)]
    let classical := Valuation.ofList [("a", true), ("b", true)]
    (registry.alike ⟨10⟩ ⟨9⟩ = true ∧ registry.alike ⟨10⟩ ⟨8⟩ = false) ∧
      (registry.evaluate conflicting ⟨10⟩ = .ok none ∧
        registry.evaluate conflicting ⟨9⟩ = .ok none ∧
        registry.evaluate conflicting ⟨8⟩ = .ok (some .falsity)) ∧
      registry.evaluate classical ⟨10⟩ = .ok (some false) ∧
      registry.evaluate classical ⟨9⟩ = .ok (some false) := by
  intro registry conflicting classical
  have lower : ∀ node ∈ registry.stock, ∀ next ∈ registry.successors node,
      next ∈ registry.stock ∧
        (registry.unfold 11 next).height <
          (registry.unfold 11 node).height := by
    decide +kernel
  have apart : ∀ node ∈ registry.stock, registry.OperandsApart node := by
    decide +kernel
  have supplied : ∀ node ∈ registry.stock, registry.Supplied node := by
    decide +kernel
  have given : ∀ node ∈ registry.stock, node.isAtom →
      classical.contains (registry.string node.name) := by
    decide +kernel
  let left : Node := { name := 9, body := .implication (some 1) (some 7) }
  let right : Node := { name := 8, body := .implication (some 1) (some 6) }
  have leftStored : registry.node? ⟨10⟩ = some left := by decide +kernel
  have rightStored : registry.node? ⟨9⟩ = some right := by decide +kernel
  have leftMember := mem_stock_iff.mpr ⟨_, leftStored⟩
  have rightMember := mem_stock_iff.mpr ⟨_, rightStored⟩
  have finite : ∀ node ∈ registry.stock,
      ∃ levels, (registry.unfold levels node).Settled :=
    fun node member => ⟨_, settled_of_chainsWithin
      ((acyclic_of_ranked lower member).chainsWithin member)⟩
  have met : ∀ part,
      registry.Meets left part ∨ registry.Meets right part →
        part ∈ registry.stock := by
    rintro part (meets | meets)
    · exact meets.mem_stock leftMember
    · exact meets.mem_stock rightMember
  obtain ⟨fourValued, twoValued⟩ := (reachable_replay _).evaluate_eq_of_alike
    leftStored rightStored (finite left leftMember) (finite right rightMember)
    (fun part meets => apart part (meets.mem_stock leftMember))
    (by decide +kernel) (by decide +kernel)
  have withoutValue : registry.evaluate conflicting ⟨10⟩ = .ok none := by
    decide +kernel
  have isFalse : registry.evaluate classical ⟨10⟩ = .ok (some false) := by
    decide +kernel
  have sameFour :=
    fourValued conflicting (by decide +kernel) (by decide +kernel)
  have sameTwo := twoValued
    (fun part meets => (supplied part (met part meets)).filled)
    classical (fun part meets => given part (met part meets))
    (by decide +kernel) (by decide +kernel)
  exact ⟨⟨by decide +kernel, by decide +kernel⟩,
    ⟨withoutValue, sameFour.symm.trans withoutValue, by decide +kernel⟩,
    isFalse, sameTwo.symm.trans isFalse⟩

end Registry

end NamedLogic
