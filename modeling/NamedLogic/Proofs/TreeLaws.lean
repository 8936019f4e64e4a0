import NamedLogic.Proofs.OperandClasses

/-!
# Laws of the simplification of trees

The operands of a junction may be reordered and repeated.  An implication
simplifies as the disjunction of its negated antecedent and its consequent.  If
no string occurs both positively and negatively, the operands of an operand of
the same kind may take its place, and a negated junction simplifies as the dual
junction of the negations.  With complementary literals these last two fail: a
conjunction that holds an opposed pair comes to nothing, while a disjunction only
drops the pair.
-/

namespace NamedLogic

namespace Tree

/-! ## Order and repetition -/

/-- Junctions of the same operands agree, whatever their order and however often
they occur. -/
theorem simplify_junction_agree_of_mem_iff
    (connective : Connective) {firsts seconds : List Tree}
    (same : ∀ tree, tree ∈ firsts ↔ tree ∈ seconds) :
    OutcomesAgree (junction connective firsts).simplify
      (junction connective seconds).simplify := by
  have sameClasses : SameClasses
      ((simplifyAll firsts).flatMap (contributed connective))
      ((simplifyAll seconds).flatMap (contributed connective)) := by
    refine .of_mem_iff (fun _ member => (normal_of_mem_flatMap_contributed
      normal_of_mem_simplifyAll member).1) fun tree => ?_
    simp only [List.mem_flatMap, mem_simplifyAll_iff, same]
  rw [simplify, simplify]
  exact sameClasses.collect_agree normal_of_mem_simplifyAll
    normal_of_mem_simplifyAll

/-! ## Implications -/

/-- A single normal tree is collected as it is. -/
theorem collect_singleton
    (connective : Connective) {tree : Tree} (normal : tree.Normal) :
    collect connective [tree] = some tree := by
  cases joined : tree.joins connective with
  | false =>
      have compatible : ¬ Pairing.Conflicting opposed [tree] := by
        rintro ⟨left, leftMember, right, rightMember, against⟩
        obtain rfl := List.mem_singleton.mp leftMember
        obtain rfl := List.mem_singleton.mp rightMember
        obtain ⟨_, negative, positive⟩ := normal.opposed_iff.mp against
        rw [negative] at positive
        cases positive
      have parts : ∀ operand ∈ [tree], operand.Normal := by
        simpa using normal
      rw [collect, flatMap_contributed_of_not_joins (by simpa using joined),
        reduce?_of_compatible parts connective compatible,
        Pairing.remaining_eq_self (List.pairwise_singleton _ _) compatible]
      rfl
  | true =>
      cases tree with
      | junction inner operands =>
          obtain rfl : inner = connective := by simpa [joins] using joined
          obtain ⟨irreducible, parts⟩ := normal.parts
          have whole := collect_of_irreducible irreducible parts
          rw [collect, flatMap_contributed_of_not_joins irreducible.flat]
            at whole
          rw [collect, List.flatMap_singleton, contributed, if_pos rfl, whole]
      | _ => simp [joins] at joined

/-- An implication simplifies as the disjunction of its negated antecedent and
its consequent. -/
theorem simplify_implication (antecedent consequent : Tree) :
    (implication antecedent consequent).simplify =
      (junction .disjunction [negation antecedent, consequent]).simplify := by
  simp only [simplify, simplifyAll, List.append_nil]
  cases left : antecedent.simplify with
  | none =>
      rw [Option.map_none, joinSides_none_left]
      cases right : consequent.simplify with
      | none => rfl
      | some tree =>
          exact (collect_singleton _ (normal_of_simplify right)).symm
  | some premise =>
      cases right : consequent.simplify with
      | none =>
          rw [joinSides_none_right]
          exact (collect_singleton _ (normal_of_simplify left).dual).symm
      | some tree => rfl

/-! ## Literals -/

theorem literals_subset_of_collect
    {connective : Connective} {operands : List Tree} {result : Tree}
    (normal : ∀ operand ∈ operands, operand.Normal)
    (collected : collect connective operands = some result)
    (positive : Bool) :
    result.literals positive ⊆ literalsAmong positive operands := by
  have parts : ∀ part ∈ operands.flatMap (contributed connective),
      part.Normal := fun _ member =>
    (normal_of_mem_flatMap_contributed normal member).1
  rw [collect] at collected
  rcases reduce?_normal_spec parts connective with
    ⟨decided, _⟩ | ⟨reduced, _⟩
  · rw [decided] at collected
    cases collected
  · rw [reduced] at collected
    have remains : Pairing.remaining opposed alike
        (operands.flatMap (contributed connective)) ≠ [] := by
      intro nothing
      rw [nothing] at collected
      cases collected
    obtain ⟨_, settled, _, literals, _⟩ := exists_settle connective remains
    obtain rfl := Option.some.inj (settled.symm.trans collected)
    intro literal member
    rw [literals] at member
    obtain ⟨part, kept, among⟩ := mem_literalsAmong.mp member
    obtain ⟨operand, present, contributes⟩ :=
      List.mem_flatMap.mp (Pairing.mem_remaining kept).1
    exact mem_literalsAmong.mpr ⟨operand, present,
      literals_subset_of_mem_contributed contributes among⟩

theorem literals_subset_of_simplify_negation
    {operand result : Tree}
    (inner : ∀ {tree}, operand.simplify = some tree →
      ∀ positive, tree.literals positive ⊆ operand.literals positive)
    (simplified : (negation operand).simplify = some result)
    (positive : Bool) :
    result.literals positive ⊆ (negation operand).literals positive := by
  rw [simplify] at simplified
  obtain ⟨tree, simplifiedInner, rfl⟩ := Option.map_eq_some_iff.mp simplified
  intro literal member
  exact inner simplifiedInner _
    ((normal_of_simplify simplifiedInner).mem_literals_dual.mp member)

theorem literals_subset_of_simplify_junction
    {connective : Connective} {operands : List Tree} {result : Tree}
    (parts : ∀ operand ∈ operands, ∀ {tree}, operand.simplify = some tree →
      ∀ positive, tree.literals positive ⊆ operand.literals positive)
    (simplified : (junction connective operands).simplify = some result)
    (positive : Bool) :
    result.literals positive ⊆ literalsAmong positive operands := by
  rw [simplify] at simplified
  intro literal member
  obtain ⟨tree, present, among⟩ := mem_literalsAmong.mp <|
    literals_subset_of_collect normal_of_mem_simplifyAll simplified positive
      member
  obtain ⟨operand, operandMember, simplifiedPart⟩ :=
    mem_simplifyAll_iff.mp present
  exact mem_literalsAmong.mpr ⟨operand, operandMember,
    parts operand operandMember simplifiedPart positive among⟩

/-- Simplification introduces no literals. -/
theorem literals_subset_of_simplify
    {tree result : Tree} (simplified : tree.simplify = some result)
    (positive : Bool) :
    result.literals positive ⊆ tree.literals positive := by
  induction tree using Tree.inductionOn generalizing result positive with
  | atom string =>
      obtain rfl := Option.some.inj simplified
      exact List.Subset.refl _
  | unresolved | absent | generated | beyond => cases simplified
  | negation operand inductionHypothesis =>
      exact literals_subset_of_simplify_negation inductionHypothesis
        simplified positive
  | junction connective operands inductionHypothesis =>
      exact literals_subset_of_simplify_junction inductionHypothesis
        simplified positive
  | implication antecedent consequent premise conclusion =>
      rw [simplify_implication] at simplified
      have within := literals_subset_of_simplify_junction
        (fun operand member => ?_) simplified positive
      · simpa [literalsAmong, literals] using within
      · rcases List.mem_cons.mp member with rfl | later
        · exact literals_subset_of_simplify_negation premise
        · obtain rfl := List.mem_singleton.mp later
          exact conclusion

/-- The simplified operands of a junction without complementary literals are not
in conflict. -/
theorem not_conflicting_of_simplifyAll
    {operands : List Tree} (connective : Connective)
    (consistent : Consistent (literalsAmong true operands)) :
    ¬ Pairing.Conflicting opposed
      ((simplifyAll operands).flatMap (contributed connective)) := by
  refine not_conflicting_of_consistent (fun _ member =>
    (normal_of_mem_flatMap_contributed normal_of_mem_simplifyAll member).1)
    (consistent.mono fun literal member => ?_)
  obtain ⟨part, partMember, among⟩ := mem_literalsAmong.mp member
  obtain ⟨tree, present, contributes⟩ := List.mem_flatMap.mp partMember
  obtain ⟨operand, operandMember, simplified⟩ :=
    mem_simplifyAll_iff.mp present
  exact mem_literalsAmong.mpr ⟨operand, operandMember,
    literals_subset_of_simplify simplified true
      (literals_subset_of_mem_contributed contributes among)⟩

/-! ## Operands of operands -/

section Splicing

variable {connective : Connective} {operands : List Tree}

/-- A settled junction contributes what it settled from. -/
theorem flatMap_contributed_settle
    (flat : ∀ operand ∈ operands, operand.joins connective = false) :
    (settle connective (some operands)).toList.flatMap
        (contributed connective) = operands := by
  match operands with
  | [] => rfl
  | [single] => exact flatMap_contributed_of_not_joins flat
  | _ :: _ :: _ => simp [settle, contributed]

/-- Operands without conflicts contribute the same classes to a junction before
and after they are collected. -/
theorem sameClasses_collect
    (normal : ∀ operand ∈ operands, operand.Normal)
    (compatible : ¬ Pairing.Conflicting opposed
      (operands.flatMap (contributed connective))) :
    SameClasses
      ((collect connective operands).toList.flatMap (contributed connective))
      (operands.flatMap (contributed connective)) := by
  have parts : ∀ part ∈ operands.flatMap (contributed connective),
      part.Normal ∧ part.joins connective = false :=
    fun _ => normal_of_mem_flatMap_contributed normal
  have partsNormal := fun part member => (parts part member).1
  rw [collect, reduce?_of_compatible partsNormal connective compatible,
    flatMap_contributed_settle fun part member =>
      (parts part (Pairing.mem_remaining member).1).2]
  constructor
  · intro part member
    have present := (Pairing.mem_remaining member).1
    exact ⟨part, present, (partsNormal part present).alike_refl⟩
  · intro part member
    obtain ⟨kept, keptMember, toPart⟩ :=
      exists_mem_remaining_normal partsNormal member
        (Pairing.not_cancelled_of_not_conflicting compatible member)
    exact ⟨kept, keptMember,
      (partsNormal kept (Pairing.mem_remaining keptMember).1).alike_symm
        toPart⟩

theorem simplifyAll_eq_flatMap (operands : List Tree) :
    simplifyAll operands =
      operands.flatMap fun operand => operand.simplify.toList := by
  induction operands with
  | nil => rfl
  | cons operand operands inductionHypothesis =>
      rw [simplifyAll, inductionHypothesis, List.flatMap_cons]

/-- The simplified operands of an operand contribute the same classes as the
simplified operand. -/
theorem sameClasses_simplifyAll_contributed
    {operand : Tree} (consistent : Consistent (operand.literals true)) :
    SameClasses
      ((simplifyAll (operand.contributed connective)).flatMap
        (contributed connective))
      (operand.simplify.toList.flatMap (contributed connective)) := by
  cases joined : operand.joins connective with
  | false =>
      rw [contributed_of_not_joins joined, simplifyAll, simplifyAll,
        List.append_nil]
      refine .of_mem_iff (fun part member => ?_) fun _ => Iff.rfl
      refine (normal_of_mem_flatMap_contributed (fun tree present => ?_)
        member).1
      exact normal_of_simplify (Option.mem_toList.mp present)
  | true =>
      cases operand with
      | junction inner operands =>
          obtain rfl : inner = connective := by simpa [joins] using joined
          rw [contributed, if_pos rfl, simplify]
          exact (sameClasses_collect normal_of_mem_simplifyAll
            (not_conflicting_of_simplifyAll _ consistent)).symm
      | _ => simp [joins] at joined

/-- Without complementary literals, operands of the same kind may be replaced by
their operands. -/
theorem simplify_junction_contributed_agree
    (consistent : Consistent (literalsAmong true operands)) :
    OutcomesAgree
      (junction connective
        (operands.flatMap (contributed connective))).simplify
      (junction connective operands).simplify := by
  rw [simplify, simplify]
  refine SameClasses.collect_agree normal_of_mem_simplifyAll
    normal_of_mem_simplifyAll ?_
  simp only [simplifyAll_eq_flatMap, List.flatMap_assoc]
  refine .flatMap fun operand member => ?_
  have own : Consistent (operand.literals true) :=
    consistent.mono fun literal among =>
      mem_literalsAmong.mpr ⟨operand, member, among⟩
  simpa only [simplifyAll_eq_flatMap, List.flatMap_assoc] using
    sameClasses_simplifyAll_contributed own

/-- A junction into which the operands of its operands were gathered agrees with
the junction of the operands themselves. -/
theorem simplify_gathered_agree
    {parts : List Tree}
    (gathered : ∀ part, part ∈ parts ↔
      part ∈ operands.flatMap (contributed connective))
    (consistent : Consistent (literalsAmong true operands)) :
    OutcomesAgree (junction connective parts).simplify
      (junction connective operands).simplify :=
  (simplify_junction_agree_of_mem_iff connective gathered).trans
    (simplify_junction_contributed_agree consistent)

theorem mem_literalsAmong_contributed
    {tree : Tree} {positive : Bool} {literal : String × Bool} :
    literal ∈ literalsAmong positive (tree.contributed connective) ↔
      literal ∈ tree.literals positive := by
  cases joined : tree.joins connective with
  | false => simp [contributed_of_not_joins joined, literalsAmong]
  | true =>
      cases tree with
      | junction inner operands =>
          obtain rfl : inner = connective := by simpa [joins] using joined
          rw [contributed, if_pos rfl, literals]
      | _ => simp [joins] at joined

theorem Consistent.of_gathered
    {parts : List Tree}
    (gathered : ∀ part, part ∈ parts ↔
      part ∈ operands.flatMap (contributed connective))
    (consistent : Consistent (literalsAmong true parts)) :
    Consistent (literalsAmong true operands) := by
  refine consistent.mono fun literal member => ?_
  obtain ⟨operand, present, among⟩ := mem_literalsAmong.mp member
  have spliced : literal ∈ literalsAmong true (operand.contributed connective) :=
    mem_literalsAmong_contributed.mpr among
  obtain ⟨part, contributes, within⟩ := mem_literalsAmong.mp spliced
  exact mem_literalsAmong.mpr ⟨part, (gathered part).mpr
    (List.mem_flatMap.mpr ⟨operand, present, contributes⟩), within⟩

end Splicing

/-! ## Duality -/

section Duality

variable {connective : Connective} {operands : List Tree}

theorem contributed_dual (connective : Connective) (tree : Tree) :
    tree.dual.contributed connective.dual =
      (tree.contributed connective).map dual := by
  cases tree with
  | junction inner operands =>
      rw [dual_junction, contributed, contributed]
      by_cases same : inner = connective
      · rw [if_pos same, if_pos (congrArg _ same)]
      · rw [if_neg same, if_neg fun duals =>
          same (Connective.dual_injective duals), List.map_singleton,
          dual_junction]
  | negation operand => cases operand <;> rfl
  | _ => rfl

theorem settle_dual (connective : Connective) (operands : List Tree) :
    settle connective.dual (some (operands.map dual)) =
      (settle connective (some operands)).map dual := by
  match operands with
  | [] => rfl
  | [_] => rfl
  | first :: second :: others =>
      rw [settle_of_several _ (by simp), settle_of_several _ (by simp),
        Option.map_some, dual_junction]

/-- The duals of operands without conflicts are collected in the dual. -/
theorem collect_map_dual
    (normal : ∀ operand ∈ operands, operand.Normal)
    (compatible : ¬ Pairing.Conflicting opposed
      (operands.flatMap (contributed connective))) :
    collect connective.dual (operands.map dual) =
      (collect connective operands).map dual := by
  have parts : ∀ part ∈ operands.flatMap (contributed connective),
      part.Normal := fun _ member =>
    (normal_of_mem_flatMap_contributed normal member).1
  have apart : ∀ left ∈ operands.flatMap (contributed connective),
      ∀ right ∈ operands.flatMap (contributed connective),
        ¬ left.opposed right :=
    fun left leftMember right rightMember against =>
      compatible ⟨left, leftMember, right, rightMember, against⟩
  have flattened : (operands.map dual).flatMap
      (contributed connective.dual) =
        (operands.flatMap (contributed connective)).map dual := by
    rw [List.flatMap_map, List.map_flatMap]
    simp only [contributed_dual]
  -- Nothing is opposed on either side, and so the connective is immaterial.
  rw [collect, flattened, Pairing.reduce?_map connective.dual
    (fun left leftMember right rightMember => ?_)
    (fun left leftMember right _ => (parts left leftMember).alike_dual.symm),
    reduce?_of_compatible parts _ compatible, Option.map_some, settle_dual,
    collect, reduce?_of_compatible parts _ compatible]
  rw [Bool.eq_iff_iff, (parts left leftMember).opposed_dual_iff
    (parts right rightMember)]
  exact iff_of_false (apart left leftMember right rightMember)
    (apart right rightMember left leftMember)

theorem simplifyAll_map_negation (operands : List Tree) :
    simplifyAll (operands.map negation) =
      (simplifyAll operands).map dual := by
  induction operands with
  | nil => rfl
  | cons operand operands inductionHypothesis =>
      rw [List.map_cons, simplifyAll, simplifyAll, inductionHypothesis,
        List.map_append, simplify, Option.toList_map]

theorem simplify_negation (operand : Tree) :
    (negation operand).simplify = operand.simplify.map dual := by
  rw [simplify]

/-- Without complementary literals, a negated junction simplifies as the dual
junction of the negations. -/
theorem simplify_negation_junction
    (consistent : Consistent (literalsAmong true operands)) :
    (negation (junction connective operands)).simplify =
      (junction connective.dual (operands.map negation)).simplify := by
  rw [simplify, simplify, simplify, simplifyAll_map_negation,
    collect_map_dual normal_of_mem_simplifyAll
      (not_conflicting_of_simplifyAll connective consistent)]

/-- A negated junction into which the operands of its operands were gathered agrees
with the dual junction of the negated operands. -/
theorem simplify_negation_gathered_agree
    {parts negated : List Tree}
    (gathered : ∀ part, part ∈ parts ↔
      part ∈ operands.flatMap (contributed connective))
    (negations : ∀ part, part ∈ negated ↔ part ∈ operands.map negation)
    (consistent : Consistent (literalsAmong true operands)) :
    OutcomesAgree (negation (junction connective parts)).simplify
      (junction connective.dual negated).simplify := by
  have plain : OutcomesAgree (negation (junction connective parts)).simplify
      (negation (junction connective operands)).simplify := by
    rw [simplify_negation, simplify_negation]
    exact (simplify_gathered_agree gathered consistent).map_dual
      (fun _ => normal_of_simplify) (fun _ => normal_of_simplify)
  rw [simplify_negation_junction consistent] at plain
  exact plain.trans (simplify_junction_agree_of_mem_iff connective.dual
    negations).symm

end Duality

end Tree

end NamedLogic
