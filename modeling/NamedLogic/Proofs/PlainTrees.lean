import NamedLogic.Proofs.BoundedDescent
import NamedLogic.Proofs.Comparison

/-!
# Structural equality seen on trees

Structural equality passes through disjunctive normal forms to the formulas
recorded for them.  What it compares are therefore the plain trees, in which
each normal form is replaced by its formula.  A comparison that has levels
enough to see both formulas whole answers whether their plain trees are alike.
-/

namespace NamedLogic

namespace Tree

mutual

/-- A tree with the formula of each disjunctive normal form in its place.  One
without a formula is like nothing, just as what lies beyond all levels. -/
def plain : Tree → Tree
  | negation operand => negation operand.plain
  | junction connective operands => junction connective (plains operands)
  | implication antecedent consequent =>
      implication antecedent.plain consequent.plain
  | generated absent => beyond
  | generated formula => formula.plain
  | other => other

/-- The plain trees of a list of trees. -/
def plains : List Tree → List Tree
  | [] => []
  | operand :: operands => operand.plain :: plains operands

end

theorem plains_eq_map (operands : List Tree) :
    plains operands = operands.map plain := by
  induction operands with
  | nil => rfl
  | cons operand operands inductionHypothesis =>
      rw [plains, inductionHypothesis, List.map_cons]

theorem plain_junction (connective : Connective) (operands : List Tree) :
    (junction connective operands).plain =
      junction connective (operands.map plain) := by
  rw [plain, plains_eq_map]

theorem plain_generated {formula : Tree} (present : formula ≠ absent) :
    (generated formula).plain = formula.plain := by
  cases formula with
  | absent => exact (present rfl).elim
  | _ => rfl

/-- A resolved tree is plain. -/
theorem Resolved.plain_eq {tree : Tree} (resolved : tree.Resolved) :
    tree.plain = tree := by
  induction tree using Tree.inductionOn with
  | atom | absent | beyond => rfl
  | unresolved => exact False.elim resolved
  | generated => exact False.elim resolved.1
  | negation operand inductionHypothesis =>
      rw [plain, inductionHypothesis resolved.2]
  | junction connective operands inductionHypothesis =>
      obtain ⟨_, parts⟩ := every_junction_iff.mp resolved
      rw [plain_junction, List.map_congr_left fun operand member =>
        inductionHypothesis operand member (parts operand member),
        List.map_id']
  | implication antecedent consequent premise conclusion =>
      rw [plain, premise resolved.2.1, conclusion resolved.2.2]

/-- The plain tree of a tree that is not cut off, and in which no normal form
lacks its formula, is written out in full. -/
theorem explicit_plain
    {tree : Tree}
    (whole : tree.Every fun part => part ≠ beyond ∧ part ≠ generated absent) :
    tree.plain.Explicit := by
  induction tree using Tree.inductionOn with
  | atom | unresolved | absent => exact trivial
  | beyond => exact (whole.1 rfl).elim
  | negation operand inductionHypothesis =>
      exact ⟨trivial, inductionHypothesis whole.2⟩
  | junction connective operands inductionHypothesis =>
      obtain ⟨_, parts⟩ := every_junction_iff.mp whole
      rw [plain_junction, explicit_junction_iff, List.forall_mem_map]
      exact fun operand member =>
        inductionHypothesis operand member (parts operand member)
  | implication antecedent consequent premise conclusion =>
      exact ⟨trivial, premise whole.2.1, conclusion whole.2.2⟩
  | generated formula inductionHypothesis =>
      have present : formula ≠ absent := by
        rintro rfl
        exact whole.1.2 rfl
      rw [plain_generated present]
      exact inductionHypothesis whole.2

/-! ## Trees below the root -/

/-- The trees right below the root of a tree. -/
def children : Tree → List Tree
  | negation operand => [operand]
  | junction _ operands => operands
  | implication antecedent consequent => [antecedent, consequent]
  | generated formula => [formula]
  | _ => []

theorem Every.of_mem_children
    {meets : Tree → Prop} {tree child : Tree} (every : tree.Every meets)
    (member : child ∈ tree.children) : child.Every meets := by
  cases tree with
  | atom | unresolved | absent | beyond => exact absurd member List.not_mem_nil
  | negation | generated =>
      obtain rfl := List.mem_singleton.mp member
      exact every.2
  | junction => exact (every_junction_iff.mp every).2 child member
  | implication =>
      rcases List.mem_pair.mp member with rfl | rfl
      · exact every.2.1
      · exact every.2.2

/-- Whatever stands below the root of a tree has its plain tree in that of the
tree. -/
theorem Every.plain_of_mem_children
    {meets : Tree → Prop} {tree child : Tree}
    (every : tree.plain.Every meets) (member : child ∈ tree.children)
    (present : child ≠ absent) : child.plain.Every meets := by
  cases tree with
  | atom | unresolved | absent | beyond => exact absurd member List.not_mem_nil
  | negation =>
      obtain rfl := List.mem_singleton.mp member
      exact every.2
  | generated =>
      obtain rfl := List.mem_singleton.mp member
      rwa [plain_generated present] at every
  | junction =>
      rw [plain_junction] at every
      exact (every_junction_iff.mp every).2 _ (List.mem_map_of_mem member)
  | implication =>
      rcases List.mem_pair.mp member with rfl | rfl
      · exact every.2.1
      · exact every.2.2

/-! ## Places where nothing stands -/

/-- Whether nothing stands in the place of the tree. -/
def isGap : Tree → Bool
  | unresolved _ | absent => true
  | _ => false

/-- Gaps are like each other and like nothing else. -/
theorem alike_of_isGap
    {tree : Tree} (gap : tree.isGap) (other : Tree) :
    tree.alike other = other.isGap := by
  cases tree <;> simp [isGap] at gap <;> cases other <;> rfl

theorem alike_eq_false_of_isGap
    {tree other : Tree} (standing : tree.isGap = false)
    (gap : other.isGap) : tree.alike other = false := by
  cases other <;> simp [isGap] at gap <;> cases tree <;>
    simp_all [isGap, alike]

theorem distinct_of_isGap {tree : Tree} (gap : tree.isGap) :
    tree.Distinct := by
  cases tree <;> first | exact trivial | simp [isGap] at gap

theorem beyond_alike (other : Tree) : beyond.alike other = false := by
  cases other <;> rfl

theorem alike_beyond (tree : Tree) : tree.alike beyond = false := by
  cases tree <;> rfl

theorem allAlike_eq_all (firsts seconds : List Tree) :
    allAlike firsts seconds =
      firsts.all fun first => seconds.any fun second =>
        first.alike second := by
  induction firsts with
  | nil => rfl
  | cons first firsts inductionHypothesis =>
      rw [allAlike, inductionHypothesis, List.all_cons]

end Tree

namespace Registry

variable {registry : Registry}

theorem isGap_plain_unfold (levels : Nat) (node : Node) :
    (registry.unfold levels node).plain.isGap = false := by
  induction levels generalizing node with
  | zero => rfl
  | succ levels inductionHypothesis =>
      cases body : node.body with
      | atom => rw [unfold_atom body]; rfl
      | negation => rw [unfold_negation body]; rfl
      | junction => rw [unfold_junction body]; rfl
      | implication => rw [unfold_implication body]; rfl
      | dnf atoms rows recorded =>
          rw [unfold_dnf body, recordedTree]
          cases recorded.bind registry.node? with
          | none => rfl
          | some formula =>
              rw [Option.map_some, Option.getD_some,
                Tree.plain_generated (unfold_ne_absent levels formula)]
              exact inductionHypothesis formula

/-- The plain tree of a side at which nothing stands is a gap. -/
theorem isGap_plain_sideTree
    {side : Option Name} (nothing : side.bind registry.referent? = none)
    (levels : Nat) : (registry.sideTree levels side).plain.isGap := by
  cases side with
  | none => rfl
  | some name =>
      rw [sideTree, Option.map_some, Option.getD_some,
        nameTree_of_no_referent nothing]
      rfl

theorem sideTree_of_bind
    {side : Option Name} {node : Node}
    (stands : side.bind registry.referent? = some node) (levels : Nat) :
    registry.sideTree levels side = registry.unfold levels node := by
  obtain ⟨name, rfl, referent⟩ := Option.bind_eq_some_iff.mp stands
  exact nameTree_of_referent referent levels

/-! ## Parts of trees -/

/-- One step of a traversal goes from the tree of a node to one right below its
root. -/
theorem Descends.mem_children
    {node part : Node} (step : registry.Descends node part) (levels : Nat) :
    registry.unfold levels part ∈
      (registry.unfold (levels + 1) node).children := by
  cases step with
  | @operand name named stands =>
      have below := nameTree_of_referent stands levels
      cases body : node.body with
      | atom => simp [Node.lookups, body, Body.references] at named
      | negation operand =>
          obtain rfl : name = operand := by
            simpa [Node.lookups, body, Body.references] using named
          rw [unfold_negation body, below]
          exact List.mem_singleton_self _
      | junction connective operands =>
          have member : name ∈ operands := by
            simpa [Node.lookups, body, Body.references] using named
          rw [unfold_junction body, ← below]
          exact List.mem_map_of_mem member
      | implication antecedent consequent =>
          have member : antecedent = some name ∨ consequent = some name := by
            simpa [Node.lookups, body, Body.references] using named
          rw [unfold_implication body, ← below]
          rcases member with rfl | rfl <;> simp [Tree.children, sideTree]
      | dnf => simp [Node.lookups, body] at named
  | generated body present =>
      rw [unfold_dnf body]
      simp [Tree.children, recordedTree, present]

theorem Descends.settled
    {node part : Node} {levels : Nat} (step : registry.Descends node part)
    (settled : (registry.unfold levels node).Settled) :
    (registry.unfold levels part).Settled := by
  rw [← unfold_succ_of_settled settled] at settled
  exact Tree.Every.of_mem_children settled (step.mem_children levels)

/-- If the tree of a node is not cut off, there are levels for the longest
descent from the node. -/
theorem chainsWithin_of_settled
    {levels : Nat} {node : Node}
    (settled : (registry.unfold levels node).Settled) :
    ChainsWithin registry.Descends levels node := by
  induction levels generalizing node with
  | zero => exact settled rfl
  | succ levels inductionHypothesis =>
      exact fun next step =>
        inductionHypothesis (settled.of_mem_children
          (step.mem_children levels))

/-! ## The comparison of plain trees -/

/-- The plain tree of a node. -/
def plainTree (registry : Registry) (levels : Nat) (node : Node) : Tree :=
  (registry.unfold levels node).plain

theorem plainTree_succ
    {levels : Nat} {node : Node}
    (settled : (registry.unfold levels node).Settled) :
    registry.plainTree levels node =
      (registry.unfold (levels + 1) node).plain := by
  rw [unfold_succ_of_settled settled, plainTree]

/-- What is true of gaps and of the plain trees of nodes is true of the plain
trees of sides. -/
theorem plain_sideTree_cases
    {meets : Tree → Prop} {levels : Nat} {side : Option Name}
    (gaps : ∀ {tree : Tree}, tree.isGap → meets tree)
    (nodes : ∀ part, side.bind registry.referent? = some part →
      meets (registry.plainTree levels part)) :
    meets (registry.sideTree levels side).plain := by
  cases stands : side.bind registry.referent? with
  | none => exact gaps (isGap_plain_sideTree stands levels)
  | some part =>
      rw [sideTree_of_bind stands]
      exact nodes part stands

/-- Comparing what two sides stand for compares their plain trees. -/
theorem compareSides_plainTree (levels : Nat) (first second : Option Name) :
    registry.compareSides
        (fun left right => .ok ((registry.plainTree levels left).alike
          (registry.plainTree levels right)))
        first second =
      .ok ((registry.sideTree levels first).plain.alike
        (registry.sideTree levels second).plain) := by
  rw [compareSides_ok]
  refine congrArg Except.ok ?_
  cases firstStands : first.bind registry.referent? with
  | none =>
      rw [Tree.alike_of_isGap (isGap_plain_sideTree firstStands levels)]
      cases secondStands : second.bind registry.referent? with
      | none => exact (isGap_plain_sideTree secondStands levels).symm
      | some right =>
          rw [sideTree_of_bind secondStands, isGap_plain_unfold]
  | some left =>
      rw [sideTree_of_bind firstStands]
      cases secondStands : second.bind registry.referent? with
      | none =>
          exact (Tree.alike_eq_false_of_isGap (isGap_plain_unfold levels left)
            (isGap_plain_sideTree secondStands levels)).symm
      | some right => rw [sideTree_of_bind secondStands]; rfl

/-- Comparing a recorded formula compares its plain tree. -/
theorem compareRecorded_plainTree
    (levels : Nat) (test : Tree → Bool) (beyond : test .beyond = false)
    (recorded : Option Key) :
    registry.compareRecorded
        (fun formula => .ok (test (registry.plainTree levels formula)))
        recorded =
      .ok (test (Tree.generated
        (registry.recordedTree levels recorded)).plain) := by
  rw [compareRecorded_ok, recordedTree]
  cases recorded.bind registry.node? with
  | none => exact congrArg Except.ok beyond.symm
  | some formula =>
      rw [Option.map_some, Option.getD_some,
        Tree.plain_generated (unfold_ne_absent levels formula)]
      rfl

/-- On nodes whose trees are not cut off, the comparison of plain trees compares
heads and leaves the parts to itself. -/
theorem WellFormed.compareHeads_plainTree
    (wellFormed : registry.WellFormed) {levels : Nat} {left right : Node}
    (leftStored : left ∈ registry.stock)
    (rightStored : right ∈ registry.stock)
    (leftSettled : (registry.unfold levels left).Settled)
    (rightSettled : (registry.unfold levels right).Settled) :
    registry.compareHeads
        (fun first second => .ok ((registry.plainTree levels first).alike
          (registry.plainTree levels second)))
        left right =
      .ok ((registry.plainTree levels left).alike
        (registry.plainTree levels right)) := by
  have leftTree := plainTree_succ leftSettled
  have rightTree := plainTree_succ rightSettled
  have sides := @compareSides_plainTree registry levels
  rw [compareHeads]
  cases leftBody : left.body <;> cases rightBody : right.body
  case atom.atom =>
    rw [leftTree, rightTree, unfold_atom leftBody, unfold_atom rightBody]
    refine congrArg Except.ok ((Bool.eq_iff_iff.mpr ?_))
    simp only [Tree.plain, Tree.alike, beq_iff_eq]
    obtain ⟨_, leftFound⟩ := mem_stock_iff.mp leftStored
    obtain ⟨_, rightFound⟩ := mem_stock_iff.mp rightStored
    exact ⟨congrArg _, wellFormed.string_injective
      (wellFormed.named leftFound) (wellFormed.named rightFound)⟩
  case negation.negation first second =>
    rw [leftTree, rightTree, unfold_negation leftBody,
      unfold_negation rightBody, Tree.plain, Tree.plain, Tree.alike]
    exact sides (some first) (some second)
  case junction.junction leftConnective firsts rightConnective seconds =>
    rw [leftTree, rightTree, unfold_junction leftBody,
      unfold_junction rightBody, Tree.plain_junction, Tree.plain_junction,
      Tree.alike, Tree.allAlike_eq_all]
    simp only [sides, Traversed.anyM_ok, Traversed.allM_ok,
      Traversed.both_ok, List.length_map, List.all_map, List.any_map]
    rfl
  case implication.implication =>
    rw [leftTree, rightTree, unfold_implication leftBody,
      unfold_implication rightBody, Tree.plain, Tree.plain, Tree.alike]
    simp only [sides, Traversed.both_ok]
  case dnf.atom | dnf.negation | dnf.junction | dnf.implication | dnf.dnf =>
    rw [leftTree, unfold_dnf leftBody]
    exact compareRecorded_plainTree levels
      (fun tree => tree.alike (registry.plainTree levels right))
      (Tree.beyond_alike _) _
  case atom.dnf | negation.dnf | junction.dnf | implication.dnf =>
    rw [rightTree, unfold_dnf rightBody]
    exact compareRecorded_plainTree levels
      (registry.plainTree levels left).alike (Tree.alike_beyond _) _
  -- Trees with different heads are not alike.
  all_goals
    simp only [leftTree, rightTree, unfold, leftBody, rightBody, Tree.plain,
      Tree.alike]

/-- The nodes stored whose trees are not cut off. -/
def whole (registry : Registry) (levels : Nat) : Set Node :=
  { node | node ∈ registry.stock ∧ (registry.unfold levels node).Settled }

theorem WellFormed.consistent_plainTree
    (wellFormed : registry.WellFormed) (levels : Nat) :
    registry.Consistent (registry.whole levels) fun left right =>
      (registry.plainTree levels left).alike
        (registry.plainTree levels right) where
  parts _ member _ step := ⟨step.mem_stock, step.settled member.2⟩
  heads _ left _ right :=
    wellFormed.compareHeads_plainTree left.1 right.1 left.2 right.2

end Registry

end NamedLogic
