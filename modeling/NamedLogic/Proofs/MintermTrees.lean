import NamedLogic.Proofs.TreeHeight
import NamedLogic.Proofs.TreeSoundness

/-!
# The trees of minterms

A row is read as a state of a list of distinct strings, and its minterm is true
in exactly the states that agree with it on the strings.  Minterms are normal
and never opposed to each other, so that simplifying a disjunction of them only
drops repetitions.
-/

namespace NamedLogic

namespace Tree

/-- The literal of a row at a string and its position. -/
def rowLiteral (row : Nat) (placed : String × Nat) : Tree :=
  if row.testBit placed.2 then
    atom placed.1
  else
    negation (atom placed.1)

/-- The minterm of a row. -/
def minterm (strings : List String) (row : Nat) : Tree :=
  junction .conjunction (strings.zipIdx.map (rowLiteral row))

/-- A state gives the strings the values that a row has at their
positions. -/
def Agrees
    (state : String → Bool) (strings : List String) (row : Nat) : Prop :=
  ∀ position, ∀ inside : position < strings.length,
    state strings[position] = row.testBit position

/-! ## Literals -/

theorem normal_rowLiteral (row : Nat) (placed : String × Nat) :
    (rowLiteral row placed).Normal := by
  unfold rowLiteral
  split
  · exact .positive placed.1
  · exact .negative placed.1

theorem height_rowLiteral_le (row : Nat) (placed : String × Nat) :
    (rowLiteral row placed).height ≤ 2 := by
  unfold rowLiteral
  split <;> simp [height]

theorem joins_rowLiteral
    (row : Nat) (placed : String × Nat) (connective : Connective) :
    (rowLiteral row placed).joins connective = false := by
  unfold rowLiteral
  split <;> rfl

theorem holds_rowLiteral
    (state : String → Bool) (row : Nat) (placed : String × Nat) :
    (rowLiteral row placed).holds state =
      (state placed.1 == row.testBit placed.2) := by
  unfold rowLiteral
  split
  · rename_i set
    simp [holds, set]
  · rename_i clear
    simp [holds, clear]

theorem string_eq_of_alike_rowLiteral
    {row : Nat} {first second : String × Nat}
    (same : (rowLiteral row first).alike (rowLiteral row second)) :
    first.1 = second.1 := by
  unfold rowLiteral at same
  split at same <;> split at same
  · exact (Tree.atom.inj (atom_alike_iff.mp same)).symm
  · cases same
  · cases same
  · obtain ⟨_, shape, inner⟩ := negation_alike_iff.mp same
    obtain rfl := Tree.negation.inj shape
    exact (Tree.atom.inj (atom_alike_iff.mp inner)).symm

/-- Opposed literals of a row are of one string at two positions. -/
theorem eq_and_ne_of_opposed_rowLiteral
    {row : Nat} {first second : String × Nat}
    (against : (rowLiteral row first).opposed (rowLiteral row second)) :
    first.1 = second.1 ∧ first.2 ≠ second.2 := by
  obtain ⟨string, negated, positive⟩ :=
    (normal_rowLiteral row first).opposed_iff.mp against
  unfold rowLiteral at negated positive
  split at negated
  · cases negated
  · split at positive
    · rename_i clear set
      refine ⟨?_, fun same => clear (same ▸ set)⟩
      obtain rfl := Tree.atom.inj positive
      exact Tree.atom.inj (Tree.negation.inj negated)
    · cases positive

theorem mem_literals_rowLiteral
    {row : Nat} {placed : String × Nat} {positive : Bool}
    {literal : String × Bool}
    (member : literal ∈ (rowLiteral row placed).literals positive) :
    literal.1 = placed.1 := by
  unfold rowLiteral at member
  split at member <;> obtain rfl := List.mem_singleton.mp member <;> rfl

/-! ## Minterms -/

section Minterms

variable {strings : List String}

theorem minterm_flat
    (row : Nat) {operand : Tree}
    (member : operand ∈ strings.zipIdx.map (rowLiteral row)) :
    operand.Normal ∧ operand.height ≤ 2 ∧
      ∀ connective, operand.joins connective = false := by
  obtain ⟨placed, _, rfl⟩ := List.mem_map.mp member
  exact ⟨normal_rowLiteral row placed, height_rowLiteral_le row placed,
    joins_rowLiteral row placed⟩

/-- The literals of a row over at least two distinct strings make up a normal
junction. -/
theorem irreducible_minterm
    (distinct : strings.Nodup) (several : 2 ≤ strings.length) (row : Nat) :
    Irreducible .conjunction (strings.zipIdx.map (rowLiteral row)) := by
  have apart : strings.zipIdx.Pairwise fun first second =>
      first.1 ≠ second.1 := by
    rw [← List.pairwise_map, List.zipIdx_map_fst]
    exact distinct
  constructor
  · simpa using several
  · exact fun operand member => (minterm_flat row member).2.2 _
  · refine List.pairwise_map.mpr (apart.imp fun different same => ?_)
    exact different (string_eq_of_alike_rowLiteral same)
  · rintro ⟨left, leftMember, right, rightMember, against⟩
    obtain ⟨first, firstMember, rfl⟩ := List.mem_map.mp leftMember
    obtain ⟨second, secondMember, rfl⟩ := List.mem_map.mp rightMember
    obtain ⟨same, elsewhere⟩ := eq_and_ne_of_opposed_rowLiteral against
    rw [List.mem_zipIdx_iff_getElem?] at firstMember secondMember
    obtain ⟨inside, _⟩ := List.getElem?_eq_some_iff.mp firstMember
    refine elsewhere ((List.getElem?_inj inside distinct).mp ?_)
    rw [firstMember, secondMember, same]

theorem normal_minterm
    (distinct : strings.Nodup) (several : 2 ≤ strings.length) (row : Nat) :
    (minterm strings row).Normal :=
  .joined (irreducible_minterm distinct several row)
    fun _ member => (minterm_flat row member).1

theorem height_minterm_le (row : Nat) : (minterm strings row).height ≤ 3 :=
  height_junction_le_iff.mpr fun _ member => (minterm_flat row member).2.1

/-- A minterm is true in the states that agree with its row. -/
theorem holds_minterm_iff (state : String → Bool) (row : Nat) :
    (minterm strings row).holds state ↔ Agrees state strings row := by
  rw [minterm, holds_junction, joined, List.map_map, List.all_map,
    List.all_eq_true]
  simp only [Function.comp_apply, id_eq, holds_rowLiteral, beq_iff_eq]
  constructor
  · intro agrees position inside
    exact agrees (strings[position], position)
      (List.mem_zipIdx_iff_getElem?.mpr (List.getElem?_eq_getElem inside))
  · rintro agrees ⟨string, position⟩ member
    obtain ⟨inside, found⟩ :=
      List.getElem?_eq_some_iff.mp (List.mem_zipIdx_iff_getElem?.mp member)
    exact found ▸ agrees position inside

theorem mem_literals_minterm
    {row : Nat} {positive : Bool} {literal : String × Bool}
    (member : literal ∈ (minterm strings row).literals positive) :
    literal.1 ∈ strings := by
  obtain ⟨operand, present, among⟩ := mem_literalsAmong.mp member
  obtain ⟨placed, placedMember, rfl⟩ := List.mem_map.mp present
  rw [mem_literals_rowLiteral among]
  exact List.fst_mem_of_mem_zipIdx placedMember

/-! ## Disjunctions of minterms -/

/-- Minterms contribute themselves to a disjunction. -/
theorem flatMap_contributed_minterms (rows : List Nat) :
    (rows.map (minterm strings)).flatMap (contributed .disjunction) =
      rows.map (minterm strings) := by
  refine flatMap_contributed_of_not_joins fun operand member => ?_
  obtain ⟨row, _, rfl⟩ := List.mem_map.mp member
  rfl

theorem negationNormal_minterms
    (distinct : strings.Nodup) (several : 2 ≤ strings.length)
    (rows : List Nat) :
    (junction .disjunction (rows.map (minterm strings))).NegationNormal := by
  refine .joined fun operand member => ?_
  obtain ⟨row, _, rfl⟩ := List.mem_map.mp member
  exact (normal_minterm distinct several row).negationNormal

theorem height_minterms_le (rows : List Nat) :
    (junction .disjunction (rows.map (minterm strings))).height ≤ 4 := by
  refine height_junction_le_iff.mpr fun operand member => ?_
  obtain ⟨row, _, rfl⟩ := List.mem_map.mp member
  exact height_minterm_le row

/-- Some of the minterms are left of a disjunction of minterms, and it is true
in the states that agree with one of the rows. -/
theorem exists_simplify_minterms
    (distinct : strings.Nodup) (several : 2 ≤ strings.length)
    {rows : List Nat} (inhabited : rows ≠ []) :
    ∃ tree,
      (junction .disjunction (rows.map (minterm strings))).simplify =
          some tree ∧
        tree.height ≤ 4 ∧
        (∀ literal ∈ tree.literals true, literal.1 ∈ strings) ∧
        ∀ state, tree.holds state ↔
          ∃ row ∈ rows, Agrees state strings row := by
  have normal : ∀ operand ∈ rows.map (minterm strings),
      operand.Normal := by
    intro operand member
    obtain ⟨row, _, rfl⟩ := List.mem_map.mp member
    exact normal_minterm distinct several row
  have compatible : ¬ Pairing.Conflicting opposed
      ((rows.map (minterm strings)).flatMap (contributed .disjunction)) := by
    rw [flatMap_contributed_minterms]
    rintro ⟨left, leftMember, right, _, against⟩
    obtain ⟨row, _, rfl⟩ := List.mem_map.mp leftMember
    cases against
  obtain ⟨kept, tree, among, collected, truth, literals, shape⟩ :=
    exists_collect_of_compatible .disjunction normal
      (by simpa using inhabited) compatible
  rw [flatMap_contributed_minterms] at among
  refine ⟨tree, ?_, ?_, ?_, ?_⟩
  · rw [simplify, simplifyAll_eq_self fun operand member =>
      (normal operand member).simplify_eq, collected]
  · have low : ∀ operand ∈ kept, operand.height ≤ 3 := by
      intro operand member
      obtain ⟨row, _, rfl⟩ := List.mem_map.mp (among member)
      exact height_minterm_le row
    rcases shape with member | rfl
    · exact Nat.le_succ_of_le (low tree member)
    · exact height_junction_le_iff.mpr low
  · intro literal member
    rw [literals] at member
    obtain ⟨operand, present, inside⟩ := mem_literalsAmong.mp member
    obtain ⟨row, _, rfl⟩ := List.mem_map.mp (among present)
    exact mem_literals_minterm inside
  · intro state
    rw [truth, joined, List.map_map, List.any_map, List.any_eq_true]
    exact exists_congr fun row => and_congr_right fun _ =>
      holds_minterm_iff state row

end Minterms

end Tree

end NamedLogic
