import NamedLogic.Proofs.UnfoldingLevels

/-!
# Simplification away from complementary literals

Each atom of a tree occurs positively or negatively, according to the negations
and antecedents it lies within.  If no string occurs both ways, no two operands
are ever opposed, so that simplification leaves something, and that is true in
the same states as the tree.
-/

namespace NamedLogic

namespace Tree

/-! ## Polarity -/

mutual

/-- The strings of the atoms of a tree that itself occurs with the given
polarity, each with the polarity of its atom.  Negations and antecedents
exchange the polarities. -/
def literals (positive : Bool) : Tree → List (String × Bool)
  | atom string => [(string, positive)]
  | negation operand => operand.literals (!positive)
  | junction _ operands => literalsAmong positive operands
  | implication antecedent consequent =>
      antecedent.literals (!positive) ++ consequent.literals positive
  | generated formula => formula.literals positive
  | _ => []

/-- The literals of a list of trees. -/
def literalsAmong (positive : Bool) : List Tree → List (String × Bool)
  | [] => []
  | operand :: operands =>
      operand.literals positive ++ literalsAmong positive operands

end

/-- No literal comes with its complement. -/
def Consistent (literals : List (String × Bool)) : Prop :=
  ∀ literal ∈ literals, (literal.1, !literal.2) ∉ literals

instance (literals : List (String × Bool)) :
    Decidable (Consistent literals) :=
  inferInstanceAs (Decidable
    (∀ literal ∈ literals, (literal.1, !literal.2) ∉ literals))

theorem Consistent.mono
    {fewer more : List (String × Bool)} (consistent : Consistent more)
    (subset : fewer ⊆ more) : Consistent fewer :=
  fun literal member complement =>
    consistent literal (subset member) (subset complement)

theorem mem_literalsAmong
    {positive : Bool} {literal : String × Bool} {operands : List Tree} :
    literal ∈ literalsAmong positive operands ↔
      ∃ operand ∈ operands, literal ∈ operand.literals positive := by
  induction operands with
  | nil => simp [literalsAmong]
  | cons operand operands inductionHypothesis =>
      simp [literalsAmong, inductionHypothesis]

/-- A tree occurring the other way has the opposite literals. -/
theorem mem_literals_not
    {tree : Tree} {positive polarity : Bool} {string : String} :
    (string, polarity) ∈ tree.literals (!positive) ↔
      (string, !polarity) ∈ tree.literals positive := by
  induction tree using Tree.inductionOn generalizing positive with
  | atom inner =>
      cases positive <;> cases polarity <;> simp [literals]
  | unresolved | absent | beyond => simp [literals]
  | negation operand inductionHypothesis =>
      rw [literals, literals, inductionHypothesis]
  | junction connective operands inductionHypothesis =>
      rw [literals, literals, mem_literalsAmong, mem_literalsAmong]
      exact exists_congr fun operand => and_congr_right fun member =>
        inductionHypothesis operand member
  | implication antecedent consequent premise conclusion =>
      rw [literals, literals, List.mem_append, List.mem_append, premise,
        conclusion]
  | generated formula inductionHypothesis =>
      rw [literals, literals, inductionHypothesis]

theorem Consistent.of_negation
    {operand : Tree}
    (consistent : Consistent ((negation operand).literals true)) :
    Consistent (operand.literals true) := by
  rintro ⟨string, polarity⟩ member complement
  refine consistent (string, !polarity) ?_ ?_
  · exact mem_literals_not.mpr (by rwa [Bool.not_not])
  · exact mem_literals_not.mpr (by rwa [Bool.not_not])

/-- The dual of a normal tree has the opposite literals. -/
theorem Normal.mem_literals_dual
    {tree : Tree} (normal : tree.Normal) {positive : Bool}
    {literal : String × Bool} :
    literal ∈ tree.dual.literals positive ↔
      literal ∈ (negation tree).literals positive := by
  induction normal with
  | positive string => exact Iff.rfl
  | negative string =>
      rw [Tree.dual, literals, literals, literals, literals, Bool.not_not]
  | joined _ _ inductionHypothesis =>
      rw [dual_junction, literals, literals, literals, mem_literalsAmong,
        mem_literalsAmong]
      simp only [List.mem_map, exists_exists_and_eq_and]
      exact exists_congr fun operand => and_congr_right fun member =>
        inductionHypothesis operand member

/-! ## Collecting operands -/

theorem joined_append
    (connective : Connective) (firsts seconds : List Bool) :
    joined connective (firsts ++ seconds) =
      joined connective [joined connective firsts,
        joined connective seconds] := by
  cases connective <;> simp [joined]

/-- Flattening keeps the truth of a junction. -/
theorem joined_contributed
    (state : String → Bool) (connective : Connective) (tree : Tree) :
    joined connective ((tree.contributed connective).map (holds state)) =
      tree.holds state := by
  cases other : tree.joins connective with
  | false =>
      rw [contributed_of_not_joins other]
      cases connective <;> simp [joined]
  | true =>
      cases tree with
      | junction inner operands =>
          obtain rfl : inner = connective := by simpa [joins] using other
          rw [contributed, if_pos rfl, holds_junction]
      | _ => simp [joins] at other

theorem joined_flatMap_contributed
    (state : String → Bool) (connective : Connective)
    (operands : List Tree) :
    joined connective
        ((operands.flatMap (contributed connective)).map (holds state)) =
      joined connective (operands.map (holds state)) := by
  induction operands with
  | nil => rfl
  | cons operand operands inductionHypothesis =>
      rw [List.flatMap_cons, List.map_append, joined_append,
        inductionHypothesis, joined_contributed, List.map_cons,
        ← List.singleton_append, joined_append connective [_]]
      cases connective <;> simp [joined]

theorem literals_subset_of_mem_contributed
    {connective : Connective} {tree part : Tree} {positive : Bool}
    (member : part ∈ tree.contributed connective) :
    part.literals positive ⊆ tree.literals positive := by
  cases other : tree.joins connective with
  | false =>
      rw [contributed_of_not_joins other] at member
      obtain rfl := List.mem_singleton.mp member
      exact List.Subset.refl _
  | true =>
      cases tree with
      | junction inner operands =>
          obtain rfl : inner = connective := by simpa [joins] using other
          rw [contributed, if_pos rfl] at member
          intro literal among
          exact mem_literalsAmong.mpr ⟨part, member, among⟩
      | _ => simp [joins] at other

theorem Normal.contributed_ne_nil
    {tree : Tree} (normal : tree.Normal) (connective : Connective) :
    tree.contributed connective ≠ [] := by
  cases normal with
  | positive | negative => exact List.cons_ne_nil _ _
  | joined irreducible =>
      have several := irreducible.several
      rw [Tree.contributed]
      split
      · exact List.ne_nil_of_length_pos (Nat.lt_of_succ_le
          (Nat.le_of_succ_le several))
      · exact List.cons_ne_nil _ _

/-- Normal trees without complementary literals are not in conflict. -/
theorem not_conflicting_of_consistent
    {operands : List Tree} (normal : ∀ operand ∈ operands, operand.Normal)
    (consistent : Consistent (literalsAmong true operands)) :
    ¬ Pairing.Conflicting opposed operands := by
  rintro ⟨left, leftMember, right, rightMember, against⟩
  obtain ⟨string, rfl, rfl⟩ :=
    (normal left leftMember).opposed_iff.mp against
  refine consistent (string, true) ?_ ?_
  · exact mem_literalsAmong.mpr ⟨_, rightMember, List.mem_singleton_self _⟩
  · exact mem_literalsAmong.mpr ⟨_, leftMember, List.mem_singleton_self _⟩

/-- A nonempty list of operands settles in their junction. -/
theorem exists_settle
    (connective : Connective) {operands : List Tree}
    (inhabited : operands ≠ []) :
    ∃ result, settle connective (some operands) = some result ∧
      (∀ state, result.holds state =
        joined connective (operands.map (holds state))) ∧
      (∀ positive, result.literals positive =
        literalsAmong positive operands) ∧
      (result ∈ operands ∨ result = junction connective operands) := by
  match operands with
  | [] => exact (inhabited rfl).elim
  | [single] =>
      refine ⟨single, rfl, fun state => ?_, fun positive => ?_, ?_⟩
      · cases connective <;> simp [joined]
      · simp [literalsAmong]
      · exact Or.inl (List.mem_singleton_self single)
  | first :: second :: others =>
      exact ⟨_, rfl, fun state => holds_junction state connective _,
        fun _ => rfl, Or.inr rfl⟩

theorem flatMap_contributed_ne_nil
    {operands : List Tree} (normal : ∀ operand ∈ operands, operand.Normal)
    (inhabited : operands ≠ []) (connective : Connective) :
    operands.flatMap (contributed connective) ≠ [] := by
  obtain ⟨operand, present⟩ := List.exists_mem_of_ne_nil _ inhabited
  obtain ⟨part, partMember⟩ := List.exists_mem_of_ne_nil _
    ((normal operand present).contributed_ne_nil connective)
  exact List.ne_nil_of_mem
    (List.mem_flatMap.mpr ⟨operand, present, partMember⟩)

/-- Operands that are not in conflict lose nothing but repetitions, so that a
formula made from some of them is true in the states their junction is. -/
theorem exists_collect_of_compatible
    (connective : Connective) {operands : List Tree}
    (normal : ∀ operand ∈ operands, operand.Normal)
    (inhabited : operands ≠ [])
    (compatible : ¬ Pairing.Conflicting opposed
      (operands.flatMap (contributed connective))) :
    ∃ kept result, kept ⊆ operands.flatMap (contributed connective) ∧
      collect connective operands = some result ∧
      (∀ state, result.holds state =
        joined connective (operands.map (holds state))) ∧
      (∀ positive, result.literals positive =
        literalsAmong positive kept) ∧
      (result ∈ kept ∨ result = junction connective kept) := by
  let parts := operands.flatMap (contributed connective)
  have partsNormal : ∀ part ∈ parts, part.Normal := fun _ member =>
    (normal_of_mem_flatMap_contributed normal member).1
  have covers : ∀ part ∈ parts,
      ∃ first ∈ Pairing.remaining opposed alike parts, first.alike part :=
    fun part member => exists_mem_remaining_normal partsNormal member
      (Pairing.not_cancelled_of_not_conflicting compatible member)
  have among : Pairing.remaining opposed alike parts ⊆ parts :=
    fun _ member => (Pairing.mem_remaining member).1
  have remains : Pairing.remaining opposed alike parts ≠ [] := by
    obtain ⟨part, partMember⟩ := List.exists_mem_of_ne_nil _
      (flatMap_contributed_ne_nil normal inhabited connective)
    obtain ⟨first, firstMember, _⟩ := covers part partMember
    exact List.ne_nil_of_mem firstMember
  obtain ⟨result, settled, truth, literals, shape⟩ :=
    exists_settle connective remains
  have collected : collect connective operands = some result := by
    rw [collect, reduce?_of_compatible partsNormal connective compatible,
      settled]
  refine ⟨_, result, among, collected, fun state => ?_, literals, shape⟩
  rw [truth, ← joined_flatMap_contributed state connective operands]
  refine joined_eq_of_mem_iff fun value => ?_
  simp only [List.mem_map]
  constructor
  · rintro ⟨part, member, rfl⟩
    exact ⟨part, among member, rfl⟩
  · rintro ⟨part, member, rfl⟩
    obtain ⟨first, firstMember, same⟩ := covers part member
    have firstNormal := partsNormal first (among firstMember)
    exact ⟨first, firstMember, firstNormal.holds_eq_of_alike same state⟩

/-- What is left of normal operands without complementary literals is their
junction. -/
theorem exists_collect
    (connective : Connective) {operands : List Tree}
    (normal : ∀ operand ∈ operands, operand.Normal)
    (inhabited : operands ≠ [])
    (consistent : Consistent (literalsAmong true operands)) :
    ∃ result, collect connective operands = some result ∧
      (∀ state, result.holds state =
        joined connective (operands.map (holds state))) ∧
      result.literals true ⊆ literalsAmong true operands := by
  let parts := operands.flatMap (contributed connective)
  have partsNormal : ∀ part ∈ parts, part.Normal := fun _ member =>
    (normal_of_mem_flatMap_contributed normal member).1
  have partsWithin : ∀ part ∈ parts,
      part.literals true ⊆ literalsAmong true operands := by
    intro part member literal among
    obtain ⟨operand, present, contributes⟩ := List.mem_flatMap.mp member
    exact mem_literalsAmong.mpr ⟨operand, present,
      literals_subset_of_mem_contributed contributes among⟩
  have compatible : ¬ Pairing.Conflicting opposed parts := by
    refine not_conflicting_of_consistent partsNormal
      (consistent.mono fun literal member => ?_)
    obtain ⟨part, present, among⟩ := mem_literalsAmong.mp member
    exact partsWithin part present among
  obtain ⟨kept, result, keptAmong, collected, truth, literals, _⟩ :=
    exists_collect_of_compatible connective normal inhabited compatible
  refine ⟨result, collected, truth, fun literal member => ?_⟩
  rw [literals] at member
  obtain ⟨part, present, among⟩ := mem_literalsAmong.mp member
  exact partsWithin part (keptAmong present) among

/-! ## Whole trees -/

/-- A tree in which nothing is missing, no formula is a generated one, and
every junction has an operand.  It may be cut off below. -/
def Complete (tree : Tree) : Prop :=
  tree.Every fun
    | unresolved _ | absent | generated _ | junction _ [] => False
    | _ => True

theorem Complete.resolved {tree : Tree} (complete : tree.Complete) :
    tree.Resolved := by
  refine Every.imp complete fun part permitted => ?_
  cases part <;> trivial

theorem simplifyAll_eq_map
    {operands : List Tree} {result : Tree → Tree}
    (simplified : ∀ operand ∈ operands,
      operand.simplify = some (result operand)) :
    simplifyAll operands = operands.map result := by
  induction operands with
  | nil => rfl
  | cons operand operands inductionHypothesis =>
      rw [simplifyAll, simplified operand List.mem_cons_self,
        inductionHypothesis fun other member =>
          simplified other (List.mem_cons_of_mem _ member)]
      rfl

/-- Simplification leaves something that is true in the same states and has no
other literals. -/
structure SimplifiesTo (tree result : Tree) : Prop where
  simplified : tree.simplify = some result
  truth : ∀ state, result.holds state = tree.holds state
  literals : result.literals true ⊆ tree.literals true

namespace SimplifiesTo

theorem normal
    {tree result : Tree} (simplifies : tree.SimplifiesTo result) :
    result.Normal :=
  normal_of_simplify simplifies.simplified

/-- The dual of what is left has no other literals than the negation. -/
theorem literals_dual
    {tree result : Tree} (simplifies : tree.SimplifiesTo result) :
    result.dual.literals true ⊆ tree.literals false := by
  rintro ⟨string, polarity⟩ member
  have opposite := simplifies.normal.mem_literals_dual.mp member
  exact mem_literals_not.mpr
    (simplifies.literals (mem_literals_not.mp opposite))

theorem negation
    {operand result : Tree} (simplifies : operand.SimplifiesTo result) :
    (negation operand).SimplifiesTo result.dual where
  simplified := by rw [simplify, simplifies.simplified, Option.map_some]
  truth state := by
    rw [simplifies.normal.holds_dual, simplifies.truth, holds]
  literals := simplifies.literals_dual

end SimplifiesTo

theorem exists_simplifiesTo_junction
    (connective : Connective) {operands : List Tree}
    (inhabited : operands ≠ [])
    (parts : ∀ operand ∈ operands, ∃ result, operand.SimplifiesTo result)
    (consistent : Consistent ((junction connective operands).literals true)) :
    ∃ result, (junction connective operands).SimplifiesTo result := by
  choose! result simplifies using parts
  have simplifiedAll : simplifyAll operands = operands.map result :=
    simplifyAll_eq_map fun operand member =>
      (simplifies operand member).simplified
  have normal : ∀ tree ∈ operands.map result, tree.Normal := by
    intro tree member
    obtain ⟨operand, present, rfl⟩ := List.mem_map.mp member
    exact (simplifies operand present).normal
  have within : literalsAmong true (operands.map result) ⊆
      literalsAmong true operands := by
    intro literal member
    obtain ⟨tree, present, among⟩ := mem_literalsAmong.mp member
    obtain ⟨operand, operandMember, rfl⟩ := List.mem_map.mp present
    exact mem_literalsAmong.mpr ⟨operand, operandMember,
      (simplifies operand operandMember).literals among⟩
  have remains : operands.map result ≠ [] := by
    rwa [Ne, List.map_eq_nil_iff]
  obtain ⟨collected, shape, truth, literals⟩ :=
    exists_collect connective normal remains (consistent.mono within)
  refine ⟨collected, ?_, fun state => ?_, List.Subset.trans literals within⟩
  · rw [simplify, simplifiedAll, shape]
  · rw [truth, holds_junction, List.map_map]
    exact congrArg _ (List.map_congr_left fun operand member =>
      (simplifies operand member).truth state)

theorem SimplifiesTo.exists_implication
    {antecedent consequent left right : Tree}
    (premise : antecedent.SimplifiesTo left)
    (conclusion : consequent.SimplifiesTo right)
    (consistent :
      Consistent ((implication antecedent consequent).literals true)) :
    ∃ result, (implication antecedent consequent).SimplifiesTo result := by
  have normal : ∀ tree ∈ [left.dual, right], tree.Normal := by
    intro tree member
    rcases List.mem_cons.mp member with rfl | other
    · exact premise.normal.dual
    · obtain rfl := List.mem_singleton.mp other
      exact conclusion.normal
  have within : literalsAmong true [left.dual, right] ⊆
      (implication antecedent consequent).literals true := by
    rw [literalsAmong, literalsAmong, literalsAmong, List.append_nil]
    intro literal member
    rcases List.mem_append.mp member with among | among
    · exact List.mem_append_left _ (premise.literals_dual among)
    · exact List.mem_append_right _ (conclusion.literals among)
  obtain ⟨result, shape, truth, literals⟩ := exists_collect .disjunction
    normal (List.cons_ne_nil _ _) (consistent.mono within)
  refine ⟨result, ?_, fun state => ?_, List.Subset.trans literals within⟩
  · rw [simplify, premise.simplified, conclusion.simplified]
    exact shape
  · rw [truth, holds, ← premise.truth, ← conclusion.truth,
      ← premise.normal.holds_dual]
    simp [joined]

/-- Something is left of a whole tree without complementary literals. -/
theorem exists_simplifiesTo
    {tree : Tree} (complete : tree.Complete) (settled : tree.Settled)
    (consistent : Consistent (tree.literals true)) :
    ∃ result, tree.SimplifiesTo result := by
  induction tree using Tree.inductionOn with
  | atom string =>
      exact ⟨_, rfl, fun _ => rfl, List.Subset.refl _⟩
  | unresolved | absent => exact complete.elim
  | generated => exact complete.1.elim
  | beyond => exact (settled rfl).elim
  | negation operand inductionHypothesis =>
      obtain ⟨result, simplifies⟩ :=
        inductionHypothesis complete.2 settled.2 consistent.of_negation
      exact ⟨result.dual, simplifies.negation⟩
  | junction connective operands inductionHypothesis =>
      obtain ⟨inhabited, completeParts⟩ := every_junction_iff.mp complete
      obtain ⟨_, settledParts⟩ := every_junction_iff.mp settled
      refine exists_simplifiesTo_junction connective ?_ ?_ consistent
      · rintro rfl
        exact inhabited
      · intro operand member
        refine inductionHypothesis operand member
          (completeParts operand member) (settledParts operand member)
          (consistent.mono fun literal among => ?_)
        exact mem_literalsAmong.mpr ⟨operand, member, among⟩
  | implication antecedent consequent premise conclusion =>
      have premiseConsistent : Consistent (antecedent.literals true) :=
        Consistent.of_negation
          (consistent.mono (List.subset_append_left _ _))
      obtain ⟨left, leftSimplifies⟩ :=
        premise complete.2.1 settled.2.1 premiseConsistent
      obtain ⟨right, rightSimplifies⟩ :=
        conclusion complete.2.2 settled.2.2
          (consistent.mono (List.subset_append_right _ _))
      exact leftSimplifies.exists_implication rightSimplifies consistent

end Tree

end NamedLogic
