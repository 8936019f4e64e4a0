import Mathlib.Data.Finset.Lattice.Fold
import NamedLogic.Proofs.Persistence
import NamedLogic.Proofs.Representation
import NamedLogic.Truth.Order

/-!
# Four-valued junctions without their order

The four-valued logic goes through the operands of a junction from left to right,
and leaves off in the middle once the junction is decided.  Where every operand
has an outcome, what it finds is nevertheless a matter of the lattice of values:
the meet of the operands, or their join, if that leaves the junction open, and
otherwise the value that decides it.  So neither the order of the operands nor
their number of times makes a difference.
-/

namespace NamedLogic

namespace Belnap

/-- What the four-valued logic makes of an outcome.  A refusal is read as no
evidence. -/
def reading : Traversed (Option Four) → Four
  | .ok value => TruthValue.coerce value
  | .error _ => Four.bottom

section Junctions

variable {α : Type} [DecidableEq α] {value : α → Traversed (Option Four)}
  {operands : List α} (ends : ∀ operand ∈ operands, (value operand).Ends)

include ends

/-- A conjunction that begins with a designated value is its meet with all the
operands, unless that is not designated.  Once the running value is not, no
further operand can make up for it. -/
theorem conjunctionFrom_eq
    (running : Four) (designated : running.forTruth = true) :
    conjunctionFrom value running operands =
      let met := running ⊓ operands.toFinset.inf (reading ∘ value)
      .ok (some (if met.forTruth then met else Four.falsity)) := by
  induction operands generalizing running with
  | nil =>
      dsimp only
      rw [conjunctionFrom, List.toFinset_nil, Finset.inf_empty, inf_top_eq,
        if_pos designated]
  | cons operand operands inductionHypothesis =>
      obtain ⟨⟨outcome, evaluated⟩, rest⟩ := List.forall_mem_cons.mp ends
      have gathered :
          running ⊓ (operand :: operands).toFinset.inf (reading ∘ value) =
            (running ⊓ TruthValue.coerce outcome) ⊓
              operands.toFinset.inf (reading ∘ value) := by
        rw [List.toFinset_cons, Finset.inf_insert, Function.comp_apply,
          evaluated, inf_assoc]
        rfl
      rw [conjunctionFrom, evaluated, gathered]
      change (if (running ⊓ TruthValue.coerce outcome).forTruth = true then
        conjunctionFrom value (running ⊓ TruthValue.coerce outcome) operands
        else .ok (some Four.falsity)) = _
      by_cases still : (running ⊓ TruthValue.coerce outcome).forTruth = true
      · rw [if_pos still, inductionHypothesis rest _ still]
      · dsimp only
        rw [if_neg still, Four.forTruth_inf (running ⊓ _),
          Bool.eq_false_iff.mpr still, Bool.false_and, if_neg Bool.false_ne_true]

/-- A disjunction that begins with an undesignated value is its join with all the
operands, unless that is designated. -/
theorem disjunctionFrom_eq
    (running : Four) (undesignated : running.forTruth = false) :
    disjunctionFrom value running operands =
      let joined := running ⊔ operands.toFinset.sup (reading ∘ value)
      .ok (some (if joined.forTruth then Four.truth else joined)) := by
  induction operands generalizing running with
  | nil =>
      dsimp only
      rw [disjunctionFrom, List.toFinset_nil, Finset.sup_empty, sup_bot_eq,
        undesignated, if_neg Bool.false_ne_true]
  | cons operand operands inductionHypothesis =>
      obtain ⟨⟨outcome, evaluated⟩, rest⟩ := List.forall_mem_cons.mp ends
      have gathered :
          running ⊔ (operand :: operands).toFinset.sup (reading ∘ value) =
            (running ⊔ TruthValue.coerce outcome) ⊔
              operands.toFinset.sup (reading ∘ value) := by
        rw [List.toFinset_cons, Finset.sup_insert, Function.comp_apply,
          evaluated, sup_assoc]
        rfl
      rw [disjunctionFrom, evaluated, gathered]
      change (if (running ⊔ TruthValue.coerce outcome).forTruth = true then
        .ok (some Four.truth) else
        disjunctionFrom value (running ⊔ TruthValue.coerce outcome)
          operands) = _
      by_cases decided : (running ⊔ TruthValue.coerce outcome).forTruth = true
      · dsimp only
        rw [if_pos decided, Four.forTruth_sup (running ⊔ _), decided,
          Bool.true_or, if_pos rfl]
      · rw [if_neg decided,
          inductionHypothesis rest _ (Bool.eq_false_iff.mpr decided)]

/-- Which operands a junction has determines what comes of it, whatever their
order and number. -/
theorem junction_eq_of_mem_iff
    {others : List α} (same : ∀ operand, operand ∈ others ↔ operand ∈ operands) :
    (Interpretation.conjunction value others : Traversed (Option Four)) =
        Interpretation.conjunction value operands ∧
      (Interpretation.disjunction value others : Traversed (Option Four)) =
        Interpretation.disjunction value operands := by
  have alsoEnd : ∀ operand ∈ others, (value operand).Ends :=
    fun operand member => ends operand ((same operand).mp member)
  have set : others.toFinset = operands.toFinset := by
    ext operand
    rw [List.mem_toFinset, List.mem_toFinset, same]
  constructor
  · change conjunctionFrom value Four.truth others =
      conjunctionFrom value Four.truth operands
    rw [conjunctionFrom_eq ends _ rfl, conjunctionFrom_eq alsoEnd _ rfl, set]
  · change disjunctionFrom value Four.falsity others =
      disjunctionFrom value Four.falsity operands
    rw [disjunctionFrom_eq ends _ rfl, disjunctionFrom_eq alsoEnd _ rfl, set]

end Junctions

end Belnap

/-- A conjunction of names that all have an outcome is the meet of their values,
no value being read as no evidence, if that is designated, and false otherwise.
A disjunction is the join of the values if that is not designated, and true
otherwise.  In the lattice of values a meet begins with what is true and a join
with what is false.  It follows that names may be permuted and repeated. -/
theorem Registry.junctions_by_lattice
    (registry : Registry) (valuation : Valuation Four) (depth : Nat)
    {names : List Name} {value : Name → Option Four}
    (evaluated : ∀ name ∈ names,
      registry.nameValue valuation depth (some name) = .ok (value name)) :
    let conjunction :=
      Interpretation.conjunction (registry.nameValue valuation depth ∘ some)
    let disjunction :=
      Interpretation.disjunction (registry.nameValue valuation depth ∘ some)
    let met := names.toFinset.inf fun name =>
      (value name).getD Four.bottom
    let joined := names.toFinset.sup fun name =>
      (value name).getD Four.bottom
    conjunction names = .ok (some
        (if TruthValue.designated met then met else Four.falsity)) ∧
      disjunction names = .ok (some
        (if TruthValue.designated joined then Four.truth else joined)) ∧
      ∀ others : List Name, (∀ name, name ∈ others ↔ name ∈ names) →
        conjunction others = conjunction names ∧
          disjunction others = disjunction names := by
  intro conjunction disjunction met joined
  have ends : ∀ name ∈ names,
      ((registry.nameValue valuation depth ∘ some) name).Ends :=
    fun name member => ⟨value name, evaluated name member⟩
  have read : ∀ name ∈ names.toFinset,
      (Belnap.reading ∘ registry.nameValue valuation depth ∘ some) name =
        (value name).getD Four.bottom := by
    intro name member
    rw [Function.comp_apply, Function.comp_apply,
      evaluated name (List.mem_toFinset.mp member)]
    cases value name <;> rfl
  refine ⟨?_, ?_, fun others same => Belnap.junction_eq_of_mem_iff ends same⟩
  · refine (Belnap.conjunctionFrom_eq ends Four.truth rfl).trans ?_
    rw [Finset.inf_congr rfl read]
    exact congrArg (fun met : Four => Except.ok (some
      (if met.forTruth then met else Four.falsity))) (top_inf_eq _)
  · refine (Belnap.disjunctionFrom_eq ends Four.falsity rfl).trans ?_
    rw [Finset.sup_congr rfl read]
    exact congrArg (fun joined : Four => Except.ok (some
      (if joined.forTruth then Four.truth else joined))) (bot_sup_eq _)

/-- There is conflicting evidence for an atom, and so for its negation.  Beside
them are a name that stands for nothing and an atom that is false. -/
theorem Registry.junctions_of_repeated_names :
    let registry := replay
      [.atom "p", .atom "q", .atom "r", .negation ⟨1⟩, .removeKey ⟨2⟩]
    let valuation :=
      Valuation.ofList [("p", Four.top), ("r", Four.falsity)]
    let conjunction :=
      Interpretation.conjunction (registry.nameValue valuation 3 ∘ some)
    let disjunction :=
      Interpretation.disjunction (registry.nameValue valuation 3 ∘ some)
    registry.referent? 1 = none ∧
      conjunction [3, 0, 3] = .ok (some Four.top) ∧
      conjunction [0, 3] = conjunction [3, 0, 3] ∧
      disjunction [2, 1, 2] = .ok (some Four.bottom) ∧
      disjunction [1, 2] = disjunction [2, 1, 2] := by
  intro registry valuation conjunction disjunction
  let value (name : Name) : Option Four :=
    if name = 1 then none else if name = 2 then some Four.falsity
    else some Four.top
  have conflicting : ∀ name ∈ [3, 0, 3],
      registry.nameValue valuation 3 (some name) = .ok (value name) := by
    decide +kernel
  have lacking : ∀ name ∈ [2, 1, 2],
      registry.nameValue valuation 3 (some name) = .ok (value name) := by
    decide +kernel
  obtain ⟨conjoined, _, reordered⟩ :=
    registry.junctions_by_lattice valuation 3 conflicting
  obtain ⟨_, disjoined, others⟩ :=
    registry.junctions_by_lattice valuation 3 lacking
  exact ⟨by decide +kernel, conjoined.trans (by decide +kernel),
    (reordered [0, 3] (by simp [or_comm])).1,
    disjoined.trans (by decide +kernel),
    (others [1, 2] (by simp [or_comm])).2⟩

end NamedLogic
