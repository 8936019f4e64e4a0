import NamedLogic.Proofs.NormalFormRuns

/-!
# The values of disjunctive normal forms

Building the disjunctive normal form of a set of rows over distinct atoms
succeeds, and where every atom has a classical value, the value of the form
tells whether the row of these values belongs to the set.
-/

namespace NamedLogic

theorem mem_selectedRows_iff {rows : UInt64} {row : Nat} :
    row ∈ selectedRows rows ↔ row < 64 ∧ rows.toNat.testBit row := by
  simp [selectedRows]

/-- Some row belongs to a set that is not empty. -/
theorem selectedRows_ne_nil {rows : UInt64} (nonzero : rows ≠ 0) :
    selectedRows rows ≠ [] := by
  have positive : rows.toNat ≠ 0 := by
    intro zero
    exact nonzero (UInt64.toNat_inj.mp (by simpa using zero))
  obtain ⟨row, set⟩ := Nat.exists_testBit_of_ne_zero positive
  have inside : row < 64 := by
    by_contra outside
    have small : rows.toNat < 2 ^ row :=
      Nat.lt_of_lt_of_le rows.toNat_lt
        (Nat.pow_le_pow_right Nat.two_pos (Nat.not_lt.mp outside))
    rw [Nat.testBit_lt_two_pow small] at set
    cases set
  exact List.ne_nil_of_mem (mem_selectedRows_iff.mpr ⟨inside, set⟩)

namespace Registry

/-! ## Atoms -/

/-- The keys are those of atoms with the given strings, each bound to its own
name. -/
def BoundAtoms
    (registry : Registry) (atoms : List Key) (strings : List String) : Prop :=
  List.Forall₂
    (fun key string => ∃ node, registry.node? key = some node ∧
      node.isAtom ∧ registry.binding node.name = some key ∧
        registry.string node.name = string)
    atoms strings

section Atoms

variable {registry : Registry} {atoms : List Key} {strings : List String}
  (bound : registry.BoundAtoms atoms strings)

include bound

theorem BoundAtoms.presents : registry.PresentsAtoms atoms strings := by
  refine bound.imp ?_
  rintro key string ⟨node, stored, isAtom, itself, rfl⟩
  exact ⟨⟨node, stored, unfold_atom (Node.body_eq_atom_of_isAtom isAtom) 0⟩,
    fun _ => ⟨node, stored, itself⟩⟩

/-- Distinct atoms have distinct strings. -/
theorem BoundAtoms.nodup
    (wellFormed : registry.WellFormed) (distinct : atoms.Nodup) :
    strings.Nodup := by
  refine (List.rel_nodup ⟨?_, ?_⟩ bound).mp distinct
  · rintro first second string ⟨node, stored, _, itself, rfl⟩
      ⟨other, otherStored, _, otherItself, same⟩
    have names := wellFormed.string_injective (wellFormed.named otherStored)
      (wellFormed.named stored) same
    rw [names, itself] at otherItself
    exact Option.some.inj otherItself
  · rintro key first second ⟨node, stored, _, _, rfl⟩
      ⟨other, otherStored, _, _, rfl⟩
    rw [stored] at otherStored
    rw [Option.some.inj otherStored]

theorem BoundAtoms.exists_yields_atomNames :
    ∃ names, registry.Yields (atoms.mapM atomName) names registry := by
  induction bound with
  | nil => exact ⟨[], yields_pure_iff.mpr ⟨rfl, rfl⟩⟩
  | cons head _ inductionHypothesis =>
      obtain ⟨node, stored, isAtom, _, _⟩ := head
      obtain ⟨names, rest⟩ := inductionHypothesis
      have first := yields_atomName_iff.mpr
        ⟨⟨node, stored, isAtom, rfl⟩, rfl⟩
      refine ⟨node.name :: names, ?_⟩
      rw [List.mapM_cons]
      exact first.bind (rest.bind (yields_pure_iff.mpr ⟨rfl, rfl⟩))

end Atoms

/-! ## The formula recorded -/

section Building

variable {registry : Registry} (wellFormed : registry.WellFormed)
  (deep : 4 ≤ registry.levels 1) {atoms : List Key} {strings : List String}
  (bound : registry.BoundAtoms atoms strings) (distinct : atoms.Nodup)
  (several : 2 ≤ atoms.length) {rows : UInt64} (nonzero : rows ≠ 0)

include wellFormed deep bound distinct several nonzero

/-- A disjunctive normal form shows the simplification of the disjunction of the
minterms of its rows. -/
theorem WellFormed.exists_yields_dnf_of_simplified :
    ∃ key final tree,
      registry.Yields (dnf atoms rows) key final ∧
        final.WellFormed ∧ registry.Extends final ∧
        final.Shows (final.levels 0) key (.generated tree) ∧
        (Tree.junction .disjunction
          ((selectedRows rows).map (Tree.minterm strings))).simplify =
            some tree := by
  obtain ⟨names, naming⟩ := bound.exists_yields_atomNames
  obtain ⟨formula, middle, tree, generation, middleWellFormed, extension,
    shows, simplified⟩ :=
    exists_yields_minterms wellFormed bound.presents
      (bound.nodup wellFormed distinct) (bound.length_eq ▸ several) deep
      (selectedRows_ne_nil nonzero)
  obtain ⟨key, name, final, insertion, added⟩ :=
    adds_insertFresh middleWellFormed .compound none
      (admits_dnf wellFormed naming generation rows)
  refine ⟨key, final, tree, naming.bind (generation.bind insertion),
    added.wellFormed, extension.trans added.extension,
    ⟨_, added.stored, ?_⟩, simplified⟩
  have normal := Tree.normal_of_simplify simplified
  obtain ⟨node, stored, shape⟩ := shows
  have same : final.levels 0 = registry.levels 1 + 1 := by
    rw [added.extension.levels_eq, extension.levels_eq]
    rfl
  have kept := unfold_eq_of_gaps_eq_nil middleWellFormed added.wellFormed
    added.extension stored
    (shape ▸ normal.resolved.gaps_eq_nil : (middle.unfold
      (registry.levels 1) node).gaps = [])
  rw [same, unfold_dnf rfl, recordedTree, Option.bind_some,
    added.extension.node? stored, Option.map_some, Option.getD_some, kept,
    shape]

/-- A disjunctive normal form shows a generated formula that is true in the
states that agree with one of the rows. -/
theorem WellFormed.exists_yields_dnf :
    ∃ key final tree,
      registry.Yields (dnf atoms rows) key final ∧
        final.Shows (final.levels 0) key (.generated tree) ∧
        tree.Normal ∧
        (∀ literal ∈ tree.literals true, literal.1 ∈ strings) ∧
        ∀ state, tree.holds state ↔
          ∃ row ∈ selectedRows rows, Tree.Agrees state strings row := by
  obtain ⟨key, final, tree, run, _, _, shows, simplified⟩ :=
    wellFormed.exists_yields_dnf_of_simplified deep bound distinct several
      nonzero
  obtain ⟨_, again, _, literals, truth⟩ := Tree.exists_simplify_minterms
    (bound.nodup wellFormed distinct) (bound.length_eq ▸ several)
    (selectedRows_ne_nil nonzero)
  obtain rfl := Option.some.inj (again.symm.trans simplified)
  exact ⟨key, final, _, run, shows, Tree.normal_of_simplify simplified,
    literals, truth⟩

end Building

/-- Where the atoms have classical values, the value of a formula that shows a
normal tree is the truth of the tree. -/
theorem evaluate_eq_of_shows
    {V : Type} [Interpretation V] [Conservative V] [Extensional V]
    {registry : Registry} {key : Key} {tree : Tree}
    (shows : registry.Shows (registry.levels 0) key (.generated tree))
    (normal : tree.Normal) {valuation : Valuation V}
    {state : String → Bool}
    (gives : Tree.Gives valuation state (tree.literals true)) :
    registry.evaluate valuation key =
      .ok (some (Conservative.embed (tree.holds state))) := by
  obtain ⟨node, stored, shape⟩ := shows
  rw [registry.evaluate_eq_value valuation stored, shape, Tree.value,
    normal.total.value_eq gives]

/-- Correctness of disjunctive normal forms.  Over at least two distinct atoms,
each bound to its own name, and for every nonempty set of rows, building the
form succeeds if at least four levels may be descended.  The form is true under
a classical valuation of the atoms exactly if some row of the set has the values
of the atoms for its bits, and is false otherwise; and it has the same value
under the same valuation read in the four values. -/
theorem Reachable.dnf_true_in_rows
    {registry : Registry} (reachable : registry.Reachable)
    (deep : 4 ≤ registry.settings.depthLimit.value)
    {atoms : List Key} {strings : List String}
    (bound : registry.BoundAtoms atoms strings) (distinct : atoms.Nodup)
    (several : 2 ≤ atoms.length) {rows : UInt64} (nonzero : rows ≠ 0) :
    ∃ key final, registry.Yields (dnf atoms rows) key final ∧
      ∀ valuation : Valuation Bool,
        (∀ string ∈ strings, valuation.contains string) →
        ∃ truth : Bool,
          final.evaluate valuation key = .ok (some truth) ∧
          (truth = true ↔ ∃ row < 64, rows.toNat.testBit row ∧
            ∀ position, ∀ inside : position < strings.length,
              valuation.get? strings[position] =
                some (row.testBit position)) ∧
          ∀ four : Valuation Four,
            (∀ string, four.get? string =
              (valuation.get? string).map Four.ofBool) →
            final.evaluate four key = .ok (some (Four.ofBool truth)) := by
  obtain ⟨key, final, tree, run, shows, normal, literals, truth⟩ :=
    reachable.wellFormed.exists_yields_dnf (by simpa [levels] using deep)
      bound distinct several nonzero
  refine ⟨key, final, run, fun valuation given => ?_⟩
  have gives : Tree.Gives valuation valuation.state (tree.literals true) :=
    fun literal member =>
      Valuation.get?_of_contains (given literal.1 (literals literal member))
  refine ⟨tree.holds valuation.state, evaluate_eq_of_shows shows normal gives,
    ?_, fun four embedded => ?_⟩
  · rw [truth]
    simp only [mem_selectedRows_iff, and_assoc]
    refine exists_congr fun row => and_congr_right fun _ =>
      and_congr_right fun _ => forall₂_congr fun position inside => ?_
    rw [Valuation.get?_of_contains (given _ (List.getElem_mem inside)),
      Option.some.injEq]
  · refine evaluate_eq_of_shows shows normal fun literal member => ?_
    rw [embedded, gives literal member]
    rfl

/-- The form of the rows one and two over two atoms is their exclusive
disjunction. -/
theorem dnf_true_in_rows_of_exclusive_disjunction :
    let registry := replay [.atom "p", .atom "q"]
    let first : Valuation Bool := Valuation.ofList [("p", true), ("q", false)]
    let both : Valuation Bool := Valuation.ofList [("p", true), ("q", true)]
    ∃ key final, registry.Yields (dnf [⟨1⟩, ⟨2⟩] 6) key final ∧
      final.evaluate first key = .ok (some true) ∧
      final.evaluate both key = .ok (some false) := by
  intro registry first both
  have reachable : registry.Reachable := reachable_replay _
  have bound : registry.BoundAtoms [⟨1⟩, ⟨2⟩] ["p", "q"] :=
    .cons ⟨{ name := 0, body := .atom }, by decide +kernel⟩
      (.cons ⟨{ name := 1, body := .atom }, by decide +kernel⟩ .nil)
  have deep : 4 ≤ registry.settings.depthLimit.value := by decide +kernel
  have nonzero : (6 : UInt64) ≠ 0 := by decide
  obtain ⟨key, final, run, correct⟩ := reachable.dnf_true_in_rows deep bound
    (by decide) (by decide) nonzero
  refine ⟨key, final, run, ?_, ?_⟩
  · obtain ⟨truth, evaluated, holds, _⟩ := correct first (by decide +kernel)
    rw [evaluated, holds.mpr (by decide +kernel)]
  · obtain ⟨truth, evaluated, holds, _⟩ := correct both (by decide +kernel)
    have never : ¬ truth = true := holds.not.mpr (by decide +kernel)
    rw [evaluated, Bool.eq_false_of_not_eq_true never]

end Registry

end NamedLogic
