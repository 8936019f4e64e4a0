import NamedLogic.Simplification.Basic
import NamedLogic.StateFormula
import NamedLogic.Proofs.Update

/-!
# Relations that compose

Formulas are simplified, and valuations described, by making negations and
junctions and by little else.  So a relation between the registries before and
after that composes is shown once of each of these, and then holds around the
whole, whether it is refused or not.
-/

namespace NamedLogic

namespace Registry

/-- A relation that composes and holds around the making of negations and of
junctions. -/
structure Formative (relation : Registry → Registry → Prop) : Prop where
  refl : ∀ registry, relation registry registry
  trans : ∀ {first second third}, relation first second →
    relation second third → relation first third
  negation : ∀ registry operand,
    relation registry (registry.after (negation operand))
  junction : ∀ registry connective operands,
    relation registry (registry.after (junction connective operands))

/-- A relation that moreover holds around the rebuilding of stored junctions,
and so around all that simplification does. -/
structure Sustained (relation : Registry → Registry → Prop) : Prop
    extends Formative relation where
  rebuild : ∀ {registry key node}, registry.node? key = some node →
    ∀ placement connective operands, relation registry
      (registry.after (rebuild placement node connective operands))

section Sequences

variable {relation : Registry → Registry → Prop}
  (formative : Formative relation)

include formative

theorem Formative.bind
    {α β : Type} {registry : Registry} {update : Update α}
    {next : α → Update β}
    (first : relation registry (registry.after update))
    (rest : ∀ value middle, registry.Yields update value middle →
      relation middle (middle.after (next value))) :
    relation registry (registry.after (update >>= next)) :=
  after_bind_of_trans relation formative.trans first rest

/-- A last step that only changes the value yielded. -/
theorem Formative.bind_pure
    {α β : Type} {registry : Registry} {update : Update α} {result : α → β}
    (first : relation registry (registry.after update)) :
    relation registry (registry.after do pure (result (← update))) :=
  formative.bind first fun _ last _ => formative.refl last

/-- A valuation is described by atoms and their negations, and a junction of
these. -/
theorem Formative.toFormula
    (atom : ∀ registry string,
      relation registry (registry.after (atom string)))
    {V : Type} [TruthValue V] (valuation : Valuation V)
    (registry : Registry) :
    relation registry (registry.after valuation.toFormula) := by
  refine formative.bind ?_ ?_
  · refine after_mapM_of_trans relation formative.refl formative.trans ?_
    intro entry current
    refine formative.bind (atom current entry.1) ?_
    intro literal middle _
    split
    · exact formative.refl middle
    · exact formative.negation middle literal
  · intro literals middle _
    split
    · exact formative.refl middle
    · exact formative.refl middle
    · exact formative.bind_pure (formative.junction middle _ _)

end Sequences

/-! ## Simplification -/

section Simplification

variable {relation : Registry → Registry → Prop}
  (sustained : Sustained relation)

include sustained

section Parts

variable {simplify : Key → Update (Option Key)}
  (simplifySustains : ∀ key registry,
    relation registry (registry.after (simplify key)))

include simplifySustains

theorem Sustained.simplifyOperands
    (registry : Registry) (connective : Connective) (names : List Name) :
    relation registry
      (registry.after (simplifyOperands simplify connective names)) := by
  induction names generalizing registry with
  | nil => exact sustained.refl registry
  | cons name names inductionHypothesis =>
      rw [Registry.simplifyOperands, after_get_bind]
      cases registry.binding name with
      | none => exact inductionHypothesis registry
      | some operand =>
          refine sustained.bind (simplifySustains operand registry) ?_
          intro simplified middle _
          cases simplified with
          | none => exact inductionHypothesis middle
          | some result =>
              dsimp only
              rw [after_get_bind]
              exact sustained.bind_pure (inductionHypothesis middle)

theorem Sustained.simplifyNegations
    (registry : Registry) (names : List Name) :
    relation registry
      (registry.after (simplifyNegations simplify names)) := by
  induction names generalizing registry with
  | nil => exact sustained.refl registry
  | cons name names inductionHypothesis =>
      rw [Registry.simplifyNegations, after_get_bind]
      cases registry.binding name with
      | none => exact inductionHypothesis registry
      | some operand =>
          refine sustained.bind (sustained.negation registry operand) ?_
          intro negated middle _
          refine sustained.bind (simplifySustains negated middle) ?_
          intro front next _
          exact sustained.bind_pure (inductionHypothesis next)

theorem Sustained.simplifyJunction
    (registry : Registry) (placement : Placement) (key : Key)
    (connective : Connective) (names : List Name) :
    relation registry
      (registry.after
        (simplifyJunction simplify placement key connective names)) := by
  refine sustained.bind (sustained.simplifyOperands simplifySustains registry
    connective names) ?_
  intro operands middle _
  rw [after_get_bind]
  split
  · exact sustained.refl middle
  · exact sustained.refl middle
  · exact sustained.refl middle
  · split
    · exact sustained.refl middle
    · rename_i stored
      exact sustained.bind_pure
        (sustained.rebuild stored placement connective _)

theorem Sustained.simplifyNegation
    (registry : Registry) (key : Key) (operand : Name) :
    relation registry
      (registry.after (simplifyNegation simplify key operand)) := by
  rw [Registry.simplifyNegation, after_get_bind]
  split
  · exact sustained.refl registry
  · split
    · exact sustained.refl registry
    · refine sustained.bind (simplifySustains _ registry) ?_
      intro simplified middle _
      cases simplified with
      | none => exact sustained.refl middle
      | some result =>
          dsimp only
          rw [after_get_bind]
          split
          · exact sustained.refl middle
          · exact sustained.refl middle
          · refine sustained.bind
              (sustained.simplifyNegations simplifySustains middle _) ?_
            intro negated next _
            split
            · exact sustained.refl next
            · exact sustained.refl next
            · exact sustained.bind_pure (sustained.junction next _ _)
          · exact sustained.bind_pure (sustained.negation middle result)

theorem Sustained.simplifyImplication
    (registry : Registry) (antecedent consequent : Option Name) :
    relation registry
      (registry.after
        (simplifyImplication simplify antecedent consequent)) := by
  rw [Registry.simplifyImplication, after_get_bind]
  split
  · exact sustained.refl registry
  · exact simplifySustains _ registry
  · exact sustained.bind (sustained.negation registry _)
      fun negated middle _ => simplifySustains negated middle
  · refine sustained.bind (sustained.negation registry _) ?_
    intro negated second _
    refine sustained.bind (simplifySustains negated second) ?_
    intro left third _
    refine sustained.bind (simplifySustains _ third) ?_
    intro right fourth _
    split
    · exact sustained.bind (sustained.junction fourth _ _)
        fun disjunction last _ => simplifySustains disjunction last
    · exact sustained.refl fourth
    · exact sustained.refl fourth

end Parts

/-- The induction is on the number of levels. -/
theorem Sustained.simplifyWithin
    (levels : Nat) (placement : Placement) (key : Key)
    (registry : Registry) :
    relation registry
      (registry.after (simplifyWithin levels placement key)) := by
  induction levels generalizing placement key registry with
  | zero => exact sustained.refl registry
  | succ levels inductionHypothesis =>
      have operandsSustain : ∀ operand registry, relation registry
          (registry.after (Registry.simplifyWithin levels .named operand)) :=
        inductionHypothesis .named
      rw [Registry.simplifyWithin, after_get_bind]
      split
      · exact sustained.refl registry
      · exact sustained.refl registry
      · exact sustained.simplifyNegation operandsSustain registry key _
      · exact sustained.simplifyJunction operandsSustain registry placement
          key _ _
      · exact sustained.simplifyImplication operandsSustain registry _ _
      · exact sustained.refl registry

theorem Sustained.simplify (key : Key) (registry : Registry) :
    relation registry (registry.after (simplify key)) := by
  rw [Registry.simplify, after_get_bind]
  exact sustained.simplifyWithin _ _ key registry

end Simplification

end Registry

end NamedLogic
