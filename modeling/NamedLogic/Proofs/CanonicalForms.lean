import NamedLogic.Proofs.NormalFormValues
import NamedLogic.Proofs.OperandClasses
import Mathlib.Algebra.Group.Nat.Defs

/-!
# Disjunctive normal forms are canonical

The minterm of a row depends only on as many low bits of the row as there are
atoms.  Simplifying a disjunction of minterms depends on which minterms there
are, and on nothing else; and from what is left, the states in which it is true
can be read off, and with them the rows.  So two disjunctive normal forms over
the same atoms are alike exactly if they select the same rows.
-/

namespace NamedLogic

namespace Tree

variable {strings : List String}

/-! ## Rows by their low bits -/

theorem testBit_eq_iff_mod_eq {bits first second : Nat} :
    (∀ position < bits, first.testBit position = second.testBit position) ↔
      first % 2 ^ bits = second % 2 ^ bits := by
  constructor
  · intro same
    refine Nat.eq_of_testBit_eq fun position => ?_
    rw [Nat.testBit_mod_two_pow, Nat.testBit_mod_two_pow]
    by_cases inside : position < bits
    · rw [same position inside]
    · simp [inside]
  · intro same position inside
    have bit := congrArg (Nat.testBit · position) same
    simpa [Nat.testBit_mod_two_pow, inside] using bit

/-- The minterm of a row depends on the low bits of the row. -/
theorem minterm_eq_of_mod_eq
    {first second : Nat}
    (same : first % 2 ^ strings.length = second % 2 ^ strings.length) :
    minterm strings first = minterm strings second := by
  rw [minterm, minterm]
  refine congrArg _ (List.map_congr_left fun placed member => ?_)
  obtain ⟨inside, _⟩ :=
    List.getElem?_eq_some_iff.mp (List.mem_zipIdx_iff_getElem?.mp member)
  rw [rowLiteral, rowLiteral, testBit_eq_iff_mod_eq.mpr same placed.2 inside]

/-- A state that agrees with one row agrees with another exactly if the low
bits of the two are the same. -/
theorem agrees_iff_mod_eq
    {state : String → Bool} {first second : Nat}
    (agrees : Agrees state strings first) :
    Agrees state strings second ↔
      first % 2 ^ strings.length = second % 2 ^ strings.length := by
  rw [← testBit_eq_iff_mod_eq]
  refine forall₂_congr fun position inside => ?_
  rw [agrees position inside]

/-- Every row is agreed with by some state. -/
theorem exists_agrees (distinct : strings.Nodup) (row : Nat) :
    ∃ state, Agrees state strings row := by
  refine ⟨fun string => row.testBit (strings.idxOf string), ?_⟩
  intro position inside
  exact congrArg row.testBit (distinct.idxOf_getElem position inside)

/-! ## Simplified disjunctions of minterms -/

/-- Two lists of rows have the same rows, as far as the low bits tell. -/
def SameRows (bits : Nat) (firsts seconds : List Nat) : Prop :=
  ∀ low, (∃ row ∈ firsts, row % 2 ^ bits = low) ↔
    ∃ row ∈ seconds, row % 2 ^ bits = low

theorem SameRows.symm
    {bits : Nat} {firsts seconds : List Nat}
    (same : SameRows bits firsts seconds) : SameRows bits seconds firsts :=
  fun low => (same low).symm

theorem SameRows.minterm_mem
    {firsts seconds : List Nat}
    (same : SameRows strings.length firsts seconds) {tree : Tree}
    (member : tree ∈ firsts.map (minterm strings)) :
    tree ∈ seconds.map (minterm strings) := by
  obtain ⟨row, present, rfl⟩ := List.mem_map.mp member
  obtain ⟨other, among, low⟩ := (same _).mp ⟨row, present, rfl⟩
  exact List.mem_map.mpr ⟨other, among, minterm_eq_of_mod_eq low⟩

section Simplified

variable (distinct : strings.Nodup) (several : 2 ≤ strings.length)
  {firsts seconds : List Nat} {left right : Tree}
  (leftSimplified : (junction .disjunction
    (firsts.map (minterm strings))).simplify = some left)
  (rightSimplified : (junction .disjunction
    (seconds.map (minterm strings))).simplify = some right)

include distinct several

theorem simplify_minterms_eq_collect (rows : List Nat) :
    (junction .disjunction (rows.map (minterm strings))).simplify =
      collect .disjunction (rows.map (minterm strings)) := by
  rw [simplify, simplifyAll_eq_self fun operand member => ?_]
  obtain ⟨row, _, rfl⟩ := List.mem_map.mp member
  exact (normal_minterm distinct several row).simplify_eq

include leftSimplified rightSimplified

/-- Minterms of the same rows leave the same up to structural equality. -/
theorem SameRows.alike (same : SameRows strings.length firsts seconds) :
    left.alike right := by
  have normal : ∀ {rows : List Nat}, ∀ tree ∈ rows.map (minterm strings),
      tree.Normal := by
    intro rows tree member
    obtain ⟨row, _, rfl⟩ := List.mem_map.mp member
    exact normal_minterm distinct several row
  rw [simplify_minterms_eq_collect distinct several]
    at leftSimplified rightSimplified
  have agree : OutcomesAgree
      (collect .disjunction (firsts.map (minterm strings)))
      (collect .disjunction (seconds.map (minterm strings))) := by
    refine SameClasses.collect_agree normal normal ?_
    rw [flatMap_contributed_minterms, flatMap_contributed_minterms]
    exact SameClasses.of_mem_iff normal fun _ =>
      ⟨same.minterm_mem, same.symm.minterm_mem⟩
  rw [leftSimplified, rightSimplified] at agree
  cases agree with
  | some alike => exact alike.1

theorem sameRows_of_alike
    (firstsInhabited : firsts ≠ []) (secondsInhabited : seconds ≠ [])
    (alike : left.alike right) :
    SameRows strings.length firsts seconds := by
  obtain ⟨_, again, _, _, leftTruth⟩ :=
    exists_simplify_minterms distinct several firstsInhabited
  obtain rfl := Option.some.inj (again.symm.trans leftSimplified)
  obtain ⟨_, again, _, _, rightTruth⟩ :=
    exists_simplify_minterms distinct several secondsInhabited
  obtain rfl := Option.some.inj (again.symm.trans rightSimplified)
  have leftNormal := normal_of_simplify leftSimplified
  have truth : ∀ state, (∃ row ∈ firsts, Agrees state strings row) ↔
      ∃ row ∈ seconds, Agrees state strings row := by
    intro state
    rw [← leftTruth, ← rightTruth, leftNormal.holds_eq_of_alike alike]
  -- A state that agrees with a row tells the rows with the same low bits.
  have rows : ∀ row, (∃ first ∈ firsts,
        row % 2 ^ strings.length = first % 2 ^ strings.length) ↔
      ∃ second ∈ seconds,
        row % 2 ^ strings.length = second % 2 ^ strings.length := by
    intro row
    obtain ⟨state, agrees⟩ := exists_agrees distinct row
    simpa only [agrees_iff_mod_eq agrees] using truth state
  intro low
  constructor
  · rintro ⟨row, member, rfl⟩
    obtain ⟨other, among, same⟩ := (rows row).mp ⟨row, member, rfl⟩
    exact ⟨other, among, same.symm⟩
  · rintro ⟨row, member, rfl⟩
    obtain ⟨other, among, same⟩ := (rows row).mpr ⟨row, member, rfl⟩
    exact ⟨other, among, same.symm⟩

end Simplified

end Tree

namespace Registry

variable {registry : Registry}

/-! ## Comparing disjunctive normal forms -/

/-- A formula that shows a normal tree as the one generated for it is a
disjunctive normal form that was recorded with a stored formula of that
tree. -/
theorem exists_recorded_of_shows
    {levels : Nat} {key : Key} {tree : Tree} (normal : tree.Normal)
    (shows : registry.Shows (levels + 1) key (.generated tree)) :
    ∃ node atoms rows recorded formula,
      registry.node? key = some node ∧
        node.body = .dnf atoms rows (some recorded) ∧
        registry.node? recorded = some formula ∧
        registry.unfold levels formula = tree := by
  obtain ⟨node, stored, shape⟩ := shows
  cases body : node.body with
  | atom => simp [unfold_atom body] at shape
  | negation => simp [unfold_negation body] at shape
  | junction => simp [unfold_junction body] at shape
  | implication => simp [unfold_implication body] at shape
  | dnf atoms rows recorded =>
      rw [unfold_dnf body, recordedTree, Tree.generated.injEq] at shape
      cases present : recorded.bind registry.node? with
      | none =>
          rw [present] at shape
          subst shape
          cases normal
      | some formula =>
          rw [present] at shape
          obtain ⟨key, rfl, found⟩ := Option.bind_eq_some_iff.mp present
          exact ⟨node, atoms, rows, key, formula, stored, body, found, shape⟩

/-- The comparison spends a level on each of the two forms, and answers whether
the trees of the generated formulas are alike if it has enough levels for
these. -/
theorem WellFormed.alike_of_shows
    (wellFormed : registry.WellFormed) {first second : Key}
    {left right : Tree} (leftNormal : left.Normal)
    (rightNormal : right.Normal) {levels : Nat}
    (enough : registry.levels 0 = levels + 2) (leftLow : left.height ≤ levels)
    (rightLow : right.height ≤ levels)
    (leftShows : registry.Shows (registry.levels 0) first (.generated left))
    (rightShows :
      registry.Shows (registry.levels 0) second (.generated right)) :
    registry.alike first second = left.alike right := by
  rw [enough] at leftShows rightShows
  obtain ⟨leftNode, _, _, _, leftFormula, leftStored, leftBody, leftFound,
    leftShape⟩ := exists_recorded_of_shows leftNormal leftShows
  obtain ⟨rightNode, _, _, _, rightFormula, rightStored, rightBody,
    rightFound, rightShape⟩ := exists_recorded_of_shows rightNormal rightShows
  have shallow : ∀ {tree : Tree} {formula : Node}, tree.Normal →
      tree.height ≤ levels → registry.unfold (levels + 1) formula = tree →
        registry.unfold levels formula = tree := by
    rintro _ formula normal low rfl
    exact unfold_eq_of_height_le normal.settled low
  have leftTree := shallow leftNormal leftLow leftShape
  have rightTree := shallow rightNormal rightLow rightShape
  have plain := body_ne_dnf_of_resolved (leftShape ▸ leftNormal.resolved)
  calc registry.alike first second
    _ = registry.nodesAlike (levels + 2) leftNode rightNode := by
      rw [alike, leftStored, rightStored, enough]
    _ = registry.nodesAlike (levels + 1) leftFormula rightNode := by
      rw [nodesAlike_dnf_left leftBody, Option.bind_some, leftFound,
        Option.any_some]
    _ = registry.nodesAlike levels leftFormula rightFormula := by
      rw [nodesAlike_dnf_right plain rightBody, Option.bind_some, rightFound,
        Option.any_some]
    _ = left.alike right := by
      rw [wellFormed.nodesAlike_eq_alike leftFound rightFound
        (leftTree ▸ leftNormal.resolved) (rightTree ▸ rightNormal.resolved),
        leftTree, rightTree]

theorem BoundAtoms.of_extends
    {before after : Registry} {atoms : List Key} {strings : List String}
    (bound : before.BoundAtoms atoms strings)
    (wellFormed : before.WellFormed) (extension : before.Extends after) :
    after.BoundAtoms atoms strings := by
  refine bound.imp ?_
  rintro key string ⟨node, stored, isAtom, itself, rfl⟩
  exact ⟨node, extension.node? stored, isAtom, extension.bindings itself,
    extension.string_eq (wellFormed.named stored)⟩

/-- A form keeps showing its tree while the registry grows. -/
theorem shows_of_extends
    {before after : Registry} {key : Key} {tree : Tree}
    (shows : before.Shows (before.levels 0) key tree)
    (full : tree.gaps = []) (beforeWellFormed : before.WellFormed)
    (afterWellFormed : after.WellFormed) (extension : before.Extends after) :
    after.Shows (after.levels 0) key tree := by
  obtain ⟨node, stored, rfl⟩ := shows
  refine ⟨node, extension.node? stored, ?_⟩
  rw [extension.levels_eq]
  exact unfold_eq_of_gaps_eq_nil beforeWellFormed afterWellFormed extension
    stored full

/-- Disjunctive normal forms are canonical.  Over at least two distinct atoms,
each bound to its own name, and for any two nonempty sets of rows, both forms
are built if at least five levels may be descended.  They are then alike exactly
if the numbers of their rows are the same up to bits beyond the atoms. -/
theorem Reachable.dnf_alike_iff
    {registry : Registry} (reachable : registry.Reachable)
    (deep : 5 ≤ registry.settings.depthLimit.value)
    {atoms : List Key} {strings : List String}
    (bound : registry.BoundAtoms atoms strings) (distinct : atoms.Nodup)
    (several : 2 ≤ atoms.length) {firstRows secondRows : UInt64}
    (firstNonzero : firstRows ≠ 0) (secondNonzero : secondRows ≠ 0) :
    ∃ first middle second final,
      registry.Yields (dnf atoms firstRows) first middle ∧
        middle.Yields (dnf atoms secondRows) second final ∧
        (final.alike first second = true ↔
          ∀ low,
            (∃ position < 64, firstRows.toNat.testBit position ∧
              position % 2 ^ atoms.length = low) ↔
            ∃ position < 64, secondRows.toNat.testBit position ∧
              position % 2 ^ atoms.length = low) := by
  have wellFormed := reachable.wellFormed
  have enough : ∃ levels, registry.levels 0 = levels + 2 ∧ 4 ≤ levels :=
    ⟨registry.settings.depthLimit.value - 1, by simp only [levels]; omega,
      by omega⟩
  obtain ⟨levels, two, four⟩ := enough
  have low : 4 ≤ registry.levels 1 := by simp only [Registry.levels]; omega
  obtain ⟨first, middle, left, firstRun, middleWellFormed, firstExtends,
    firstShows, leftSimplified⟩ := wellFormed.exists_yields_dnf_of_simplified
      low bound distinct several firstNonzero
  obtain ⟨second, final, right, secondRun, finalWellFormed, secondExtends,
    secondShows, rightSimplified⟩ :=
    middleWellFormed.exists_yields_dnf_of_simplified
      (firstExtends.levels_eq 1 ▸ low)
      (bound.of_extends wellFormed firstExtends) distinct several
      secondNonzero
  refine ⟨first, middle, second, final, firstRun, secondRun, ?_⟩
  have apart := bound.nodup wellFormed distinct
  have length : atoms.length = strings.length := bound.length_eq
  rw [length] at several ⊢
  have height : ∀ {rows tree}, rows ≠ [] →
      (Tree.junction .disjunction
        (rows.map (Tree.minterm strings))).simplify = some tree →
        tree.height ≤ levels := by
    intro rows tree inhabited simplified
    obtain ⟨_, again, short, _⟩ :=
      Tree.exists_simplify_minterms apart several inhabited
    obtain rfl := Option.some.inj (again.symm.trans simplified)
    exact short.trans four
  have firstInhabited := selectedRows_ne_nil firstNonzero
  have secondInhabited := selectedRows_ne_nil secondNonzero
  have leftNormal := Tree.normal_of_simplify leftSimplified
  have rightNormal := Tree.normal_of_simplify rightSimplified
  rw [finalWellFormed.alike_of_shows leftNormal rightNormal
    ((firstExtends.trans secondExtends).levels_eq 0 |>.trans two)
    (height firstInhabited leftSimplified)
    (height secondInhabited rightSimplified)
    (shows_of_extends firstShows leftNormal.resolved.gaps_eq_nil
      middleWellFormed finalWellFormed secondExtends) secondShows]
  have rows : left.alike right = true ↔ Tree.SameRows strings.length
      (selectedRows firstRows) (selectedRows secondRows) :=
    ⟨Tree.sameRows_of_alike apart several leftSimplified rightSimplified
      firstInhabited secondInhabited,
      fun same => same.alike apart several leftSimplified rightSimplified⟩
  rw [rows]
  simp only [Tree.SameRows, mem_selectedRows_iff, and_assoc]

/-- Over two atoms the sixth row is the second one again, so that it makes no
difference to a set with the second row, while the third row does. -/
theorem dnf_alike_of_repeated_row :
    let registry := replay [.atom "p", .atom "q"]
    (∃ first middle second final,
      registry.Yields (dnf [⟨1⟩, ⟨2⟩] 68) first middle ∧
        middle.Yields (dnf [⟨1⟩, ⟨2⟩] 4) second final ∧
        final.alike first second = true) ∧
      ∃ first middle second final,
        registry.Yields (dnf [⟨1⟩, ⟨2⟩] 4) first middle ∧
          middle.Yields (dnf [⟨1⟩, ⟨2⟩] 12) second final ∧
          final.alike first second = false := by
  intro registry
  have reachable : registry.Reachable := reachable_replay _
  have bound : registry.BoundAtoms [⟨1⟩, ⟨2⟩] ["p", "q"] :=
    .cons ⟨{ name := 0, body := .atom }, by decide +kernel⟩
      (.cons ⟨{ name := 1, body := .atom }, by decide +kernel⟩ .nil)
  have deep : 5 ≤ registry.settings.depthLimit.value := by decide +kernel
  have single : ∀ position < 64,
      (4 : UInt64).toNat.testBit position → position % 2 ^ 2 = 2 := by
    decide +kernel
  have repeated : ∀ position < 64,
      (68 : UInt64).toNat.testBit position → position % 2 ^ 2 = 2 := by
    decide +kernel
  constructor
  · obtain ⟨first, middle, second, final, firstRun, secondRun, same⟩ :=
      reachable.dnf_alike_iff deep bound (by decide) (by decide)
        (show (68 : UInt64) ≠ 0 by decide) (show (4 : UInt64) ≠ 0 by decide)
    refine ⟨first, middle, second, final, firstRun, secondRun,
      same.mpr fun low => ⟨?_, ?_⟩⟩
    · rintro ⟨position, inside, set, rfl⟩
      exact ⟨2, by decide, by decide +kernel,
        (repeated position inside set).symm⟩
    · rintro ⟨position, inside, set, rfl⟩
      exact ⟨6, by decide, by decide +kernel,
        (single position inside set).symm⟩
  · obtain ⟨first, middle, second, final, firstRun, secondRun, same⟩ :=
      reachable.dnf_alike_iff deep bound (by decide) (by decide)
        (show (4 : UInt64) ≠ 0 by decide) (show (12 : UInt64) ≠ 0 by decide)
    refine ⟨first, middle, second, final, firstRun, secondRun,
      Bool.eq_false_of_not_eq_true fun alike => ?_⟩
    obtain ⟨position, inside, set, low⟩ := (same.mp alike 3).mpr
      ⟨3, by decide, by decide +kernel, rfl⟩
    have other := single position inside set
    exact absurd (other.symm.trans low) (by decide)

end Registry

end NamedLogic
