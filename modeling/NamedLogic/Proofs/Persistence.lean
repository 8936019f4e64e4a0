import NamedLogic.Proofs.TreeValue

/-!
# Values found with more levels

A value found within some number of levels is found again with more levels.
This holds for every reading of the connectives that does not come by a value
through an operand whose evaluation is refused.
-/

namespace NamedLogic

/-- Whatever an evaluation of operands yields, another one yields as well. -/
def Persists
    {α V : Type} (value larger : α → Traversed (Option V)) : Prop :=
  ∀ operand outcome, value operand = .ok outcome →
    larger operand = .ok outcome

/-- A reading of the connectives that keeps a value when more operands can be
evaluated. -/
class Persistent (V : Type) [Interpretation V] : Prop where
  conjunction {α : Type} {value larger : α → Traversed (Option V)}
    (persists : Persists value larger) {operands : List α}
    {outcome : Option V}
    (found : Interpretation.conjunction value operands = .ok outcome) :
    Interpretation.conjunction larger operands = .ok outcome
  disjunction {α : Type} {value larger : α → Traversed (Option V)}
    (persists : Persists value larger) {operands : List α}
    {outcome : Option V}
    (found : Interpretation.disjunction value operands = .ok outcome) :
    Interpretation.disjunction larger operands = .ok outcome
  implication {α : Type} {value larger : α → Traversed (Option V)}
    (persists : Persists value larger) {antecedent consequent : α}
    {outcome : Option V}
    (found : Interpretation.implication value antecedent consequent =
      .ok outcome) :
    Interpretation.implication larger antecedent consequent = .ok outcome

/-! ## Sequences of traversals -/

theorem Traversed.bind_eq_ok_iff
    {α β : Type} {first : Traversed α} {next : α → Traversed β} {outcome : β} :
    (first >>= next) = .ok outcome ↔
      ∃ middle, first = .ok middle ∧ next middle = .ok outcome := by
  cases first with
  | error reason => simp [bind, Except.bind]
  | ok middle => simp [bind, Except.bind]

/-- A traversal that is not refused. -/
def Traversed.Ends {α : Type} (traversed : Traversed α) : Prop :=
  ∃ outcome, traversed = .ok outcome

instance {α : Type} (traversed : Traversed α) : Decidable traversed.Ends :=
  match traversed with
  | .ok outcome => .isTrue ⟨outcome, rfl⟩
  | .error _ => .isFalse nofun

theorem Traversed.Ends.bind
    {α β : Type} {first : Traversed α} {next : α → Traversed β}
    (ends : first.Ends) (rest : ∀ outcome, (next outcome).Ends) :
    (first >>= next).Ends := by
  have ⟨outcome, evaluated⟩ := ends
  rw [evaluated]
  exact rest outcome

/-! ## The two readings -/

section Readings

variable {α : Type}

theorem Classical.conjunction_persists
    {value larger : α → Traversed (Option Bool)}
    (persists : Persists value larger) {operands : List α}
    {outcome : Option Bool}
    (found : Classical.conjunction value operands = .ok outcome) :
    Classical.conjunction larger operands = .ok outcome := by
  induction operands with
  | nil => exact found
  | cons operand operands inductionHypothesis =>
      rw [Classical.conjunction, Traversed.bind_eq_ok_iff] at found ⊢
      obtain ⟨first, evaluated, rest⟩ := found
      refine ⟨first, persists operand first evaluated, ?_⟩
      rcases first with _ | _ | _
      · exact rest
      · exact rest
      · exact inductionHypothesis rest

theorem Classical.disjunction_persists
    {value larger : α → Traversed (Option Bool)}
    (persists : Persists value larger) {operands : List α}
    {outcome : Option Bool}
    (found : Classical.disjunction value operands = .ok outcome) :
    Classical.disjunction larger operands = .ok outcome := by
  induction operands with
  | nil => exact found
  | cons operand operands inductionHypothesis =>
      rw [Classical.disjunction, Traversed.bind_eq_ok_iff] at found ⊢
      obtain ⟨first, evaluated, rest⟩ := found
      refine ⟨first, persists operand first evaluated, ?_⟩
      rcases first with _ | _ | _
      · exact inductionHypothesis rest
      · exact inductionHypothesis rest
      · exact rest

theorem Classical.implication_persists
    {value larger : α → Traversed (Option Bool)}
    (persists : Persists value larger) {antecedent consequent : α}
    {outcome : Option Bool}
    (found : Classical.implication value antecedent consequent =
      .ok outcome) :
    Classical.implication larger antecedent consequent = .ok outcome := by
  rw [Classical.implication, Traversed.bind_eq_ok_iff] at found ⊢
  obtain ⟨conclusion, evaluated, rest⟩ := found
  refine ⟨conclusion, persists consequent conclusion evaluated, ?_⟩
  rcases conclusion with _ | _ | _
  · exact rest
  · obtain ⟨premise, premiseEvaluated, rest⟩ :=
      Traversed.bind_eq_ok_iff.mp rest
    exact Traversed.bind_eq_ok_iff.mpr
      ⟨premise, persists antecedent premise premiseEvaluated, rest⟩
  · exact rest

instance : Persistent Bool where
  conjunction := Classical.conjunction_persists
  disjunction := Classical.disjunction_persists
  implication := Classical.implication_persists

theorem Belnap.conjunctionFrom_persists
    {value larger : α → Traversed (Option Four)}
    (persists : Persists value larger) {running : Four} {operands : List α}
    {outcome : Option Four}
    (found : Belnap.conjunctionFrom value running operands = .ok outcome) :
    Belnap.conjunctionFrom larger running operands = .ok outcome := by
  induction operands generalizing running with
  | nil => exact found
  | cons operand operands inductionHypothesis =>
      rw [Belnap.conjunctionFrom, Traversed.bind_eq_ok_iff] at found ⊢
      obtain ⟨first, evaluated, rest⟩ := found
      refine ⟨first, persists operand first evaluated, ?_⟩
      dsimp only at rest ⊢
      by_cases continues :
          (running.conjunct (TruthValue.coerce first)).forTruth
      · rw [if_pos continues] at rest ⊢
        exact inductionHypothesis rest
      · rw [if_neg continues] at rest ⊢
        exact rest

theorem Belnap.disjunctionFrom_persists
    {value larger : α → Traversed (Option Four)}
    (persists : Persists value larger) {running : Four} {operands : List α}
    {outcome : Option Four}
    (found : Belnap.disjunctionFrom value running operands = .ok outcome) :
    Belnap.disjunctionFrom larger running operands = .ok outcome := by
  induction operands generalizing running with
  | nil => exact found
  | cons operand operands inductionHypothesis =>
      rw [Belnap.disjunctionFrom, Traversed.bind_eq_ok_iff] at found ⊢
      obtain ⟨first, evaluated, rest⟩ := found
      refine ⟨first, persists operand first evaluated, ?_⟩
      dsimp only at rest ⊢
      by_cases decided :
          (running.disjunct (TruthValue.coerce first)).forTruth
      · rw [if_pos decided] at rest ⊢
        exact rest
      · rw [if_neg decided] at rest ⊢
        exact inductionHypothesis rest

theorem Belnap.implication_persists
    {value larger : α → Traversed (Option Four)}
    (persists : Persists value larger) {antecedent consequent : α}
    {outcome : Option Four}
    (found : Belnap.implication value antecedent consequent =
      .ok outcome) :
    Belnap.implication larger antecedent consequent = .ok outcome := by
  rw [Belnap.implication, Traversed.bind_eq_ok_iff] at found ⊢
  obtain ⟨premise, premiseEvaluated, rest⟩ := found
  obtain ⟨conclusion, evaluated, rest⟩ := Traversed.bind_eq_ok_iff.mp rest
  exact ⟨premise, persists antecedent premise premiseEvaluated,
    Traversed.bind_eq_ok_iff.mpr
      ⟨conclusion, persists consequent conclusion evaluated, rest⟩⟩

instance : Persistent Four where
  conjunction persists _ _ found :=
    Belnap.conjunctionFrom_persists persists found
  disjunction persists _ _ found :=
    Belnap.disjunctionFrom_persists persists found
  implication := Belnap.implication_persists

end Readings

/-! ## Nodes -/

namespace Registry

variable {V : Type} [Interpretation V] {registry : Registry}
  {valuation : Valuation V}

theorem sideValue_persists
    {levels : Nat}
    (nodes : Persists (registry.nodeValue valuation levels)
      (registry.nodeValue valuation (levels + 1))) :
    Persists (registry.sideValue valuation levels)
      (registry.sideValue valuation (levels + 1)) := by
  intro side outcome found
  unfold sideValue at found ⊢
  split at found
  · exact nodes _ outcome found
  · exact found

/-- One more level keeps the values found. -/
theorem nodeValue_persists [Persistent V] (levels : Nat) :
    Persists (registry.nodeValue valuation levels)
      (registry.nodeValue valuation (levels + 1)) := by
  induction levels with
  | zero =>
      intro node outcome found
      cases found
  | succ levels inductionHypothesis =>
      intro node outcome found
      have sides := sideValue_persists inductionHypothesis
      rw [nodeValue_succ] at found ⊢
      cases body : node.body with
      | atom =>
          rw [body] at found
          exact found
      | negation operand =>
          simp only [body] at found ⊢
          cases evaluated :
              registry.sideValue valuation levels (some operand) with
          | error reason =>
              rw [evaluated] at found
              cases found
          | ok value =>
              rw [evaluated] at found
              rw [sides (some operand) value evaluated]
              exact found
      | junction connective operands =>
          have named : Persists
              (registry.sideValue valuation levels ∘ some)
              (registry.sideValue valuation (levels + 1) ∘ some) :=
            fun name => sides (some name)
          rw [body] at found
          cases connective with
          | conjunction => exact Persistent.conjunction named found
          | disjunction => exact Persistent.disjunction named found
      | implication antecedent consequent =>
          rw [body] at found
          exact Persistent.implication sides found
      | dnf atoms rows recorded =>
          simp only [body] at found ⊢
          split at found
          · exact inductionHypothesis _ outcome found
          · exact found

end Registry

end NamedLogic
