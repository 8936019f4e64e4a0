import NamedLogic.Proofs.PlainTrees

/-!
# Structural equality as a comparison of trees

Structural equality descends through a bounded number of levels and answers
that whatever lies deeper differs.  It is a comparison of trees that descends
in the same way, so that it depends on a registry through trees alone.  This
holds whatever is missing, repeated or cut off in the trees.
-/

namespace NamedLogic

namespace Tree

/-- Whether two trees are alike by their heads, where the parts below are left
to another comparison.  A generated formula is compared in its own place. -/
def headsAlike (parts : Tree → Tree → Bool) : Tree → Tree → Bool
  | generated formula, right => parts formula right
  | left, generated formula => parts left formula
  | atom first, atom second => first == second
  | negation first, negation second => parts first second
  | junction leftConnective firsts, junction rightConnective seconds =>
      leftConnective == rightConnective &&
        firsts.length == seconds.length &&
        firsts.all fun first => seconds.any fun second => parts first second
  | implication firstAntecedent firstConsequent,
      implication secondAntecedent secondConsequent =>
      parts firstAntecedent secondAntecedent &&
        parts firstConsequent secondConsequent
  | _, _ => false

theorem headsAlike_generated
    {left : Tree} (plain : ∀ formula, left ≠ generated formula)
    (parts : Tree → Tree → Bool) (formula : Tree) :
    headsAlike parts left (generated formula) = parts left formula := by
  cases left with
  | generated formula => exact (plain formula rfl).elim
  | _ => rfl

/-- Whether two trees are alike, descending through at most the given number
of levels.  Gaps are like each other and like nothing else, also when no level
is left. -/
def alikeWithin : (levels : Nat) → Tree → Tree → Bool
  | 0, left, right => left.isGap && right.isGap
  | levels + 1, left, right =>
      if left.isGap || right.isGap then
        left.isGap && right.isGap
      else
        headsAlike (alikeWithin levels) left right

theorem alikeWithin_of_isGap
    {left right : Tree} (gap : left.isGap || right.isGap) (levels : Nat) :
    alikeWithin levels left right = (left.isGap && right.isGap) := by
  cases levels with
  | zero => rfl
  | succ levels => rw [alikeWithin, if_pos gap]

theorem alikeWithin_succ
    {left right : Tree} (leftStands : left.isGap = false)
    (rightStands : right.isGap = false) (levels : Nat) :
    alikeWithin (levels + 1) left right =
      headsAlike (alikeWithin levels) left right := by
  rw [alikeWithin, leftStands, rightStands]
  rfl

end Tree

namespace Registry

variable {registry : Registry}

/-! ## Gaps in unfolded trees -/

theorem isGap_unfold (levels : Nat) (node : Node) :
    (registry.unfold levels node).isGap = false := by
  cases shape : registry.unfold levels node with
  | unresolved string =>
      exact (unfold_ne_unresolved levels node string shape).elim
  | absent => exact (unfold_ne_absent levels node shape).elim
  | _ => rfl

/-- A side is a gap exactly if nothing stands there. -/
theorem isGap_sideTree (levels : Nat) (side : Option Name) :
    (registry.sideTree levels side).isGap =
      (side.bind registry.referent?).isNone := by
  cases stands : side.bind registry.referent? with
  | some node => rw [sideTree_of_bind stands, isGap_unfold]; rfl
  | none =>
      cases side with
      | none => rfl
      | some name =>
          rw [sideTree, Option.map_some, Option.getD_some,
            nameTree_of_no_referent stands]
          rfl

/-! ## Comparison of nodes -/

/-- Sides are alike exactly if their trees are. -/
theorem sidesAlike_eq_alikeWithin
    {levels leftLevels rightLevels : Nat}
    (nodes : ∀ left ∈ registry.stock, ∀ right ∈ registry.stock,
      registry.nodesAlike levels left right =
        Tree.alikeWithin levels (registry.unfold leftLevels left)
          (registry.unfold rightLevels right))
    (first second : Option Name) :
    registry.sidesAlike levels first second =
      Tree.alikeWithin levels (registry.sideTree leftLevels first)
        (registry.sideTree rightLevels second) := by
  have firstGap := registry.isGap_sideTree leftLevels first
  have secondGap := registry.isGap_sideTree rightLevels second
  unfold sidesAlike
  cases left : first.bind registry.referent? with
  | none =>
      rw [left] at firstGap
      rw [Tree.alikeWithin_of_isGap (by simp [firstGap]), firstGap, secondGap]
      cases second.bind registry.referent? <;> rfl
  | some leftNode =>
      cases right : second.bind registry.referent? with
      | none =>
          rw [left] at firstGap
          rw [right] at secondGap
          rw [Tree.alikeWithin_of_isGap (by simp [secondGap]), firstGap,
            secondGap]
          rfl
      | some rightNode =>
          rw [sideTree_of_bind left, sideTree_of_bind right]
          obtain ⟨_, _, leftStands⟩ := Option.bind_eq_some_iff.mp left
          obtain ⟨_, _, rightStands⟩ := Option.bind_eq_some_iff.mp right
          exact nodes _ (mem_stock_of_referent leftStands) _
            (mem_stock_of_referent rightStands)

/-- The formula recorded for a normal form is compared as its tree is.  One
that is missing is like no node. -/
theorem any_recorded_eq
    {leftLevels : Nat} {test : Node → Bool} (compared : Tree → Bool)
    (nodes : ∀ formula ∈ registry.stock,
      test formula = compared (registry.unfold leftLevels formula))
    (missing : compared .absent = false) (recorded : Option Key) :
    (recorded.bind registry.node?).any test =
      compared (registry.recordedTree leftLevels recorded) := by
  unfold recordedTree
  cases found : recorded.bind registry.node? with
  | none => exact missing.symm
  | some formula =>
      obtain ⟨key, _, stored⟩ := Option.bind_eq_some_iff.mp found
      exact nodes formula (mem_stock_iff.mpr ⟨key, stored⟩)

/-- Each of some names is like one of others exactly if this holds of their
trees. -/
theorem all_any_sidesAlike_eq_alikeWithin
    {levels leftLevels rightLevels : Nat}
    (sides : ∀ first second, registry.sidesAlike levels first second =
      Tree.alikeWithin levels (registry.sideTree leftLevels first)
        (registry.sideTree rightLevels second))
    (firsts seconds : List Name) :
    (firsts.all fun first => seconds.any fun second =>
        registry.sidesAlike levels (some first) (some second)) =
      ((firsts.map (registry.nameTree leftLevels)).all fun first =>
        (seconds.map (registry.nameTree rightLevels)).any fun second =>
          Tree.alikeWithin levels first second) := by
  simp only [sides, List.all_map, List.any_map]
  rfl

/-- The head of a tree by that of its node. -/
theorem unfold_succ (levels : Nat) (node : Node) :
    registry.unfold (levels + 1) node =
      match node.body with
      | .atom => .atom (registry.string node.name)
      | .negation operand => .negation (registry.nameTree levels operand)
      | .junction connective operands =>
          .junction connective (operands.map (registry.nameTree levels))
      | .implication antecedent consequent =>
          .implication (registry.sideTree levels antecedent)
            (registry.sideTree levels consequent)
      | .dnf _ _ recorded =>
          .generated (registry.recordedTree levels recorded) := by
  cases body : node.body with
  | atom => exact unfold_atom body levels
  | negation => exact unfold_negation body levels
  | junction => exact unfold_junction body levels
  | implication => exact unfold_implication body levels
  | dnf => exact unfold_dnf body levels

theorem unfold_ne_generated
    {node : Node}
    (plain : ∀ atoms rows recorded, node.body ≠ .dnf atoms rows recorded)
    (levels : Nat) (formula : Tree) :
    registry.unfold levels node ≠ .generated formula := by
  cases levels with
  | zero => nofun
  | succ levels =>
      rw [unfold_succ]
      cases body : node.body with
      | dnf => exact (plain _ _ _ body).elim
      | _ => nofun

/-- Stored nodes are alike exactly if their trees are, however far these are
unfolded beyond the levels of the comparison. -/
theorem WellFormed.nodesAlike_eq_alikeWithin
    (wellFormed : registry.WellFormed)
    {levels leftLevels rightLevels : Nat} (leftDeep : levels ≤ leftLevels)
    (rightDeep : levels ≤ rightLevels) {left right : Node}
    (leftStored : left ∈ registry.stock)
    (rightStored : right ∈ registry.stock) :
    registry.nodesAlike levels left right =
      Tree.alikeWithin levels (registry.unfold leftLevels left)
        (registry.unfold rightLevels right) := by
  induction levels generalizing leftLevels rightLevels left right with
  | zero => rw [Tree.alikeWithin, isGap_unfold]; rfl
  | succ levels inductionHypothesis =>
      rw [Tree.alikeWithin_succ (isGap_unfold _ _) (isGap_unfold _ _)]
      obtain ⟨leftBelow, rfl⟩ := Nat.exists_eq_add_of_lt leftDeep
      obtain ⟨rightBelow, rfl⟩ := Nat.exists_eq_add_of_lt rightDeep
      have nodes := fun left leftStored right rightStored =>
        @inductionHypothesis (levels + leftBelow) (levels + rightBelow)
          (Nat.le_add_right ..) (Nat.le_add_right ..) left right leftStored
          rightStored
      have sides := sidesAlike_eq_alikeWithin nodes
      have generatedRight : ∀ {atoms rows recorded},
          right.body = .dnf atoms rows recorded →
          (∀ atoms rows recorded, left.body ≠ .dnf atoms rows recorded) →
            registry.nodesAlike (levels + 1) left right =
              Tree.headsAlike (Tree.alikeWithin levels)
                (registry.unfold (levels + leftBelow + 1) left)
                (registry.unfold (levels + rightBelow + 1) right) := by
        intro atoms rows recorded body plain
        rw [nodesAlike_dnf_right plain body, unfold_dnf body,
          Tree.headsAlike_generated (unfold_ne_generated plain _)]
        refine any_recorded_eq
          (Tree.alikeWithin levels (registry.unfold _ left))
          (fun formula stored => ?_) ?_ recorded
        · exact inductionHypothesis (by omega) (Nat.le_add_right ..)
            leftStored stored
        · rw [Tree.alikeWithin_of_isGap (by simp [Tree.isGap]), isGap_unfold,
            Bool.false_and]
      cases leftBody : left.body with
      | dnf atoms rows recorded =>
          rw [nodesAlike_dnf_left leftBody, unfold_dnf leftBody,
            Tree.headsAlike]
          refine any_recorded_eq
            (Tree.alikeWithin levels · (registry.unfold _ right))
            (fun formula stored => ?_) ?_ recorded
          · exact inductionHypothesis (Nat.le_add_right ..) (by omega) stored
              rightStored
          · rw [Tree.alikeWithin_of_isGap rfl, isGap_unfold, Bool.and_false]
      | atom =>
          cases rightBody : right.body with
          | dnf => exact generatedRight rightBody (by simp [leftBody])
          | atom =>
              rw [nodesAlike_succ, unfold_succ, unfold_succ, leftBody,
                rightBody]
              obtain ⟨_, leftThere⟩ := mem_stock_iff.mp leftStored
              obtain ⟨_, rightThere⟩ := mem_stock_iff.mp rightStored
              exact wellFormed.name_beq_eq leftThere rightThere
          | _ =>
              rw [nodesAlike_succ, unfold_succ, unfold_succ, leftBody,
                rightBody]
              rfl
      | negation first =>
          cases rightBody : right.body with
          | dnf => exact generatedRight rightBody (by simp [leftBody])
          | negation second =>
              rw [nodesAlike_succ, unfold_succ, unfold_succ, leftBody,
                rightBody]
              exact sides (some first) (some second)
          | _ =>
              rw [nodesAlike_succ, unfold_succ, unfold_succ, leftBody,
                rightBody]
              rfl
      | junction leftConnective firsts =>
          cases rightBody : right.body with
          | dnf => exact generatedRight rightBody (by simp [leftBody])
          | junction rightConnective seconds =>
              rw [nodesAlike_succ, unfold_junction leftBody,
                unfold_junction rightBody, leftBody, rightBody,
                Tree.headsAlike, List.length_map, List.length_map,
                ← all_any_sidesAlike_eq_alikeWithin sides firsts seconds]
          | _ =>
              rw [nodesAlike_succ, unfold_succ, unfold_succ, leftBody,
                rightBody]
              rfl
      | implication antecedent consequent =>
          cases rightBody : right.body with
          | dnf => exact generatedRight rightBody (by simp [leftBody])
          | implication premise conclusion =>
              rw [nodesAlike_succ, unfold_succ, unfold_succ, leftBody,
                rightBody]
              exact congrArg₂ and (sides antecedent premise)
                (sides consequent conclusion)
          | _ =>
              rw [nodesAlike_succ, unfold_succ, unfold_succ, leftBody,
                rightBody]
              rfl

theorem WellFormed.alike_eq_alikeWithin
    (wellFormed : registry.WellFormed) {left right : Key}
    {leftNode rightNode : Node}
    (leftStored : registry.node? left = some leftNode)
    (rightStored : registry.node? right = some rightNode) :
    registry.alike left right =
      Tree.alikeWithin (registry.levels 0)
        (registry.unfold (registry.levels 0) leftNode)
        (registry.unfold (registry.levels 0) rightNode) := by
  rw [alike, leftStored, rightStored]
  exact wellFormed.nodesAlike_eq_alikeWithin (Nat.le_refl _) (Nat.le_refl _)
    (mem_stock_iff.mpr ⟨left, leftStored⟩)
    (mem_stock_iff.mpr ⟨right, rightStored⟩)

end Registry

end NamedLogic
