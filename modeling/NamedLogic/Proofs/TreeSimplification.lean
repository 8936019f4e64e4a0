import NamedLogic.Proofs.NormalTrees

/-!
# Simplification of trees

What simplification does to a formula all of whose names are bound is a
function of its tree.  The result is a normal tree, and a normal tree is its
own simplification.
-/

namespace NamedLogic

namespace Tree

/-- What a simplified operand contributes to a junction: itself, or the
operands of a junction of the same kind. -/
def contributed (connective : Connective) : Tree → List Tree
  | junction inner operands =>
      if inner = connective then operands else [junction inner operands]
  | other => [other]

/-- The junction of the operands remaining, if anything remains.  A single
operand stands for itself. -/
def settle (connective : Connective) : Option (List Tree) → Option Tree
  | none => none
  | some [] => none
  | some [single] => some single
  | some remaining => some (junction connective remaining)

/-- Collect simplified operands in a junction: they are flattened, then reduced
in pairs. -/
def collect (connective : Connective) (operands : List Tree) : Option Tree :=
  settle connective <| Pairing.reduce? connective opposed alike <|
    operands.flatMap (contributed connective)

/-- The disjunction of the simplified sides of an implication, or the side of
which anything remains. -/
def joinSides : Option Tree → Option Tree → Option Tree
  | some left, some right => collect .disjunction [left, right]
  | left, right => left.or right

theorem joinSides_none_left (right : Option Tree) :
    joinSides none right = right := by
  cases right <;> rfl

theorem joinSides_none_right (left : Option Tree) :
    joinSides left none = left := by
  cases left <;> rfl

mutual

/-- The simplification of a tree without unresolved names and generated
formulas, if anything remains of it. -/
def simplify : Tree → Option Tree
  | atom string => some (atom string)
  | negation operand => operand.simplify.map dual
  | junction connective operands =>
      collect connective (simplifyAll operands)
  | implication antecedent consequent =>
      joinSides (antecedent.simplify.map dual) consequent.simplify
  | _ => none

/-- The simplifications of a list of trees, without those of which nothing
remains. -/
def simplifyAll : List Tree → List Tree
  | [] => []
  | operand :: operands =>
      operand.simplify.toList ++ simplifyAll operands

end

theorem mem_simplifyAll_iff {simplified : Tree} {operands : List Tree} :
    simplified ∈ simplifyAll operands ↔
      ∃ operand ∈ operands, operand.simplify = some simplified := by
  induction operands with
  | nil => simp [simplifyAll]
  | cons operand operands inductionHypothesis =>
      simp [simplifyAll, inductionHypothesis]

/-! ## The result is normal -/

theorem Normal.contributed
    {tree operand : Tree} (normal : tree.Normal) {connective : Connective}
    (member : operand ∈ tree.contributed connective) :
    operand.Normal ∧ operand.joins connective = false := by
  cases normal with
  | positive string =>
      obtain rfl := List.mem_singleton.mp member
      exact ⟨.positive string, rfl⟩
  | negative string =>
      obtain rfl := List.mem_singleton.mp member
      exact ⟨.negative string, rfl⟩
  | @joined inner operands irreducible parts =>
      rw [Tree.contributed] at member
      split at member
      · rename_i same
        exact ⟨parts operand member, same ▸ irreducible.flat operand member⟩
      · rename_i other
        obtain rfl := List.mem_singleton.mp member
        exact ⟨.joined irreducible parts, by simpa [joins] using other⟩

theorem contributed_of_not_joins
    {tree : Tree} {connective : Connective}
    (other : tree.joins connective = false) :
    tree.contributed connective = [tree] := by
  cases tree with
  | junction inner operands =>
      have different : inner ≠ connective := by simpa [joins] using other
      rw [contributed, if_neg different]
  | _ => rfl

/-- What settles in the end is normal if the operands remaining are. -/
theorem normal_of_settle
    {connective : Connective} {remaining : Option (List Tree)}
    {result : Tree}
    (settled : settle connective remaining = some result)
    (normal : ∀ operands ∈ remaining, ∀ operand ∈ operands,
      operand.Normal)
    (irreducible : ∀ operands ∈ remaining, 2 ≤ operands.length →
      Irreducible connective operands) :
    result.Normal := by
  match remaining with
  | none => cases settled
  | some [] => cases settled
  | some [single] =>
      obtain rfl := Option.some.inj settled
      exact normal [single] rfl single (List.mem_singleton_self single)
  | some (first :: second :: others) =>
      obtain rfl := Option.some.inj settled
      exact .joined (irreducible _ rfl (by simp)) (normal _ rfl)

section Collect

variable {connective : Connective} {operands : List Tree}
  (normal : ∀ operand ∈ operands, operand.Normal)

include normal

theorem normal_of_mem_flatMap_contributed
    {operand : Tree}
    (member : operand ∈ operands.flatMap (contributed connective)) :
    operand.Normal ∧ operand.joins connective = false := by
  obtain ⟨tree, present, among⟩ := List.mem_flatMap.mp member
  exact (normal tree present).contributed among

theorem normal_of_collect
    {result : Tree} (collected : collect connective operands = some result) :
    result.Normal := by
  have parts : ∀ operand ∈ operands.flatMap (contributed connective),
      operand.Normal ∧ operand.joins connective = false :=
    fun _ => normal_of_mem_flatMap_contributed normal
  rw [collect] at collected
  rcases reduce?_normal_spec (fun operand member => (parts operand member).1)
      connective with
    ⟨decided, _⟩ | ⟨reduced, _⟩
  · rw [decided] at collected
    cases collected
  · rw [reduced] at collected
    have among : ∀ operand ∈ Pairing.remaining opposed alike
        (operands.flatMap (contributed connective)),
        operand ∈ operands.flatMap (contributed connective) :=
      fun _ member => (Pairing.mem_remaining member).1
    refine normal_of_settle collected ?_ ?_
    · rintro _ ⟨⟩ operand member
      exact (parts operand (among operand member)).1
    · rintro _ ⟨⟩ several
      exact {
        several
        flat := fun operand member =>
          (parts operand (among operand member)).2
        distinct := Pairing.pairwise_remaining _
        compatible := Pairing.not_conflicting_remaining _ }

end Collect

/-- The simplification of a tree is normal. -/
theorem normal_of_simplify
    {tree result : Tree} (simplified : tree.simplify = some result) :
    result.Normal := by
  induction tree using Tree.inductionOn generalizing result with
  | atom string =>
      obtain rfl := Option.some.inj simplified
      exact .positive string
  | negation operand inductionHypothesis =>
      rw [simplify] at simplified
      obtain ⟨inner, simplifiedInner, rfl⟩ :=
        Option.map_eq_some_iff.mp simplified
      exact (inductionHypothesis simplifiedInner).dual
  | junction connective operands inductionHypothesis =>
      rw [simplify] at simplified
      refine normal_of_collect (fun operand member => ?_) simplified
      obtain ⟨inner, present, simplifiedInner⟩ :=
        mem_simplifyAll_iff.mp member
      exact inductionHypothesis inner present simplifiedInner
  | implication antecedent consequent premise conclusion =>
      rw [simplify] at simplified
      cases left : antecedent.simplify with
      | none =>
          rw [left, Option.map_none, joinSides_none_left] at simplified
          exact conclusion simplified
      | some leftTree =>
          have leftNormal : leftTree.dual.Normal := (premise left).dual
          rw [left, Option.map_some] at simplified
          cases right : consequent.simplify with
          | none =>
              rw [right, joinSides_none_right] at simplified
              obtain rfl := Option.some.inj simplified
              exact leftNormal
          | some rightTree =>
              rw [right] at simplified
              refine normal_of_collect (fun operand member => ?_) simplified
              rcases List.mem_cons.mp member with rfl | other
              · exact leftNormal
              · obtain rfl := List.mem_singleton.mp other
                exact conclusion right
  | unresolved | absent | generated | beyond => cases simplified

theorem normal_of_mem_simplifyAll {operands : List Tree} :
    ∀ tree ∈ simplifyAll operands, tree.Normal := by
  intro tree member
  obtain ⟨operand, _, simplified⟩ := mem_simplifyAll_iff.mp member
  exact normal_of_simplify simplified

/-! ## Normal trees are simple -/

theorem flatMap_contributed_of_not_joins
    {connective : Connective} {operands : List Tree}
    (flat : ∀ operand ∈ operands, operand.joins connective = false) :
    operands.flatMap (contributed connective) = operands := by
  induction operands with
  | nil => rfl
  | cons operand operands inductionHypothesis =>
      rw [List.flatMap_cons,
        contributed_of_not_joins (flat operand List.mem_cons_self),
        inductionHypothesis fun other member =>
          flat other (List.mem_cons_of_mem _ member)]
      rfl

theorem settle_of_several
    (connective : Connective) {operands : List Tree}
    (several : 2 ≤ operands.length) :
    settle connective (some operands) =
      some (junction connective operands) := by
  match operands with
  | [] => simp at several
  | [_] => simp at several
  | _ :: _ :: _ => rfl

/-- Nothing changes when the operands of a normal junction are collected. -/
theorem collect_of_irreducible
    {connective : Connective} {operands : List Tree}
    (irreducible : Irreducible connective operands)
    (parts : ∀ operand ∈ operands, operand.Normal) :
    collect connective operands = some (junction connective operands) := by
  rw [collect, flatMap_contributed_of_not_joins irreducible.flat,
    reduce?_of_compatible parts connective irreducible.compatible,
    Pairing.remaining_eq_self irreducible.distinct irreducible.compatible,
    settle_of_several connective irreducible.several]

theorem simplifyAll_eq_self
    {operands : List Tree}
    (simple : ∀ operand ∈ operands, operand.simplify = some operand) :
    simplifyAll operands = operands := by
  induction operands with
  | nil => rfl
  | cons operand operands inductionHypothesis =>
      rw [simplifyAll, simple operand List.mem_cons_self,
        inductionHypothesis fun other member =>
          simple other (List.mem_cons_of_mem _ member)]
      rfl

/-- A normal tree is its own simplification. -/
theorem Normal.simplify_eq {tree : Tree} (normal : tree.Normal) :
    tree.simplify = some tree := by
  induction normal with
  | positive string => rfl
  | negative string => rfl
  | joined irreducible parts inductionHypothesis =>
      rw [simplify, simplifyAll_eq_self inductionHypothesis,
        collect_of_irreducible irreducible parts]

end Tree

end NamedLogic
