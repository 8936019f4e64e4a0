import NamedLogic.Evaluation
import NamedLogic.Proofs.Unfolding

/-!
# Values of trees

The value of a node is the value of its tree, so that evaluation depends on a
registry through trees alone.  This holds for every reading of the connectives
that asks its operands for nothing but their values.
-/

namespace NamedLogic

/-- A reading of the connectives that sees its operands only through their
values. -/
class Extensional (V : Type) [Interpretation V] : Prop where
  conjunction_map {α β : Type} (value : β → Traversed (Option V))
    (operand : α → β) (operands : List α) :
    Interpretation.conjunction value (operands.map operand) =
      Interpretation.conjunction (value ∘ operand) operands
  disjunction_map {α β : Type} (value : β → Traversed (Option V))
    (operand : α → β) (operands : List α) :
    Interpretation.disjunction value (operands.map operand) =
      Interpretation.disjunction (value ∘ operand) operands
  implication_map {α β : Type} (value : β → Traversed (Option V))
    (operand : α → β) (antecedent consequent : α) :
    Interpretation.implication value (operand antecedent)
        (operand consequent) =
      Interpretation.implication (value ∘ operand) antecedent consequent

/-! ## The two readings -/

section Readings

variable {α β : Type}

theorem Classical.conjunction_map
    (value : β → Traversed (Option Bool)) (operand : α → β)
    (operands : List α) :
    Classical.conjunction value (operands.map operand) =
      Classical.conjunction (value ∘ operand) operands := by
  induction operands with
  | nil => rfl
  | cons head tail inductionHypothesis =>
      simp only [List.map_cons, Classical.conjunction,
        inductionHypothesis, Function.comp_apply]

theorem Classical.disjunction_map
    (value : β → Traversed (Option Bool)) (operand : α → β)
    (operands : List α) :
    Classical.disjunction value (operands.map operand) =
      Classical.disjunction (value ∘ operand) operands := by
  induction operands with
  | nil => rfl
  | cons head tail inductionHypothesis =>
      simp only [List.map_cons, Classical.disjunction,
        inductionHypothesis, Function.comp_apply]

theorem Belnap.conjunctionFrom_map
    (value : β → Traversed (Option Four)) (operand : α → β)
    (running : Four) (operands : List α) :
    Belnap.conjunctionFrom value running (operands.map operand) =
      Belnap.conjunctionFrom (value ∘ operand) running operands := by
  induction operands generalizing running with
  | nil => rfl
  | cons head tail inductionHypothesis =>
      simp only [List.map_cons, Belnap.conjunctionFrom,
        inductionHypothesis, Function.comp_apply]

theorem Belnap.disjunctionFrom_map
    (value : β → Traversed (Option Four)) (operand : α → β)
    (running : Four) (operands : List α) :
    Belnap.disjunctionFrom value running (operands.map operand) =
      Belnap.disjunctionFrom (value ∘ operand) running operands := by
  induction operands generalizing running with
  | nil => rfl
  | cons head tail inductionHypothesis =>
      simp only [List.map_cons, Belnap.disjunctionFrom,
        inductionHypothesis, Function.comp_apply]

instance : Extensional Bool where
  conjunction_map := Classical.conjunction_map
  disjunction_map := Classical.disjunction_map
  implication_map _ _ _ _ := rfl

instance : Extensional Four where
  conjunction_map value operand :=
    Belnap.conjunctionFrom_map value operand Four.truth
  disjunction_map value operand :=
    Belnap.disjunctionFrom_map value operand Four.falsity
  implication_map _ _ _ _ := rfl

end Readings

namespace Tree

variable {V : Type} [Interpretation V]

mutual

/-- The value of a tree under a valuation.  A gap has no value, and what lies
beyond the levels unfolded refuses an evaluation that comes there. -/
def value (valuation : Valuation V) : Tree → Traversed (Option V)
  | atom string => .ok (valuation.get? string)
  | unresolved _ => .ok none
  | absent => .ok none
  | negation operand =>
      (operand.value valuation).map (Option.map TruthValue.negate)
  | junction .conjunction operands =>
      Interpretation.conjunction id (values valuation operands)
  | junction .disjunction operands =>
      Interpretation.disjunction id (values valuation operands)
  | implication antecedent consequent =>
      Interpretation.implication id (antecedent.value valuation)
        (consequent.value valuation)
  | generated formula => formula.value valuation
  | beyond => .error .depthExceeded

/-- The values of a list of trees. -/
def values (valuation : Valuation V) :
    List Tree → List (Traversed (Option V))
  | [] => []
  | operand :: operands =>
      operand.value valuation :: values valuation operands

end

theorem values_eq_map (valuation : Valuation V) (operands : List Tree) :
    values valuation operands = operands.map (value valuation) := by
  induction operands with
  | nil => rfl
  | cons operand operands inductionHypothesis =>
      rw [values, inductionHypothesis, List.map_cons]

end Tree

namespace Registry

section NodeValue

variable {V : Type} [Interpretation V]
  (registry : Registry) (valuation : Valuation V)

/-- The value of a side of an implication. -/
def sideValue (levels : Nat) (side : Option Name) : Traversed (Option V) :=
  match side.bind registry.referent? with
  | some operand => registry.nodeValue valuation levels operand
  | none => .ok none

variable {registry valuation} in
theorem sideValue_of_referent
    {name : Name} {operand : Node}
    (stands : registry.referent? name = some operand) (levels : Nat) :
    registry.sideValue valuation levels (some name) =
      registry.nodeValue valuation levels operand := by
  rw [sideValue, Option.bind_some, stands]

variable {registry} in
/-- What relates the values of the nodes met next relates the values of the names
looked up, provided it relates no value to no value. -/
theorem sideValue_related
    {W : Type} [Interpretation W]
    (related : Traversed (Option V) → Traversed (Option W) → Prop)
    (missing : related (.ok none) (.ok none)) {levels : Nat} {node : Node}
    {first : Valuation V} {second : Valuation W}
    (nodes : ∀ next, registry.Descends node next →
      related (registry.nodeValue first levels next)
        (registry.nodeValue second levels next))
    {side : Option Name} (named : ∀ name ∈ side, name ∈ node.lookups) :
    related (registry.sideValue first levels side)
      (registry.sideValue second levels side) := by
  cases side with
  | none => exact missing
  | some name =>
      cases stands : registry.referent? name with
      | none =>
          rw [sideValue, sideValue, Option.bind_some, stands]
          exact missing
      | some operand =>
          rw [sideValue_of_referent stands, sideValue_of_referent stands]
          exact nodes operand (.operand (named name rfl) stands)

theorem nodeValue_succ (levels : Nat) (node : Node) :
    registry.nodeValue valuation (levels + 1) node =
      match node.body with
      | .atom => .ok (valuation.get? (registry.string node.name))
      | .negation operand =>
          (registry.sideValue valuation levels (some operand)).map
            (Option.map TruthValue.negate)
      | .junction .conjunction operands =>
          Interpretation.conjunction
            (registry.sideValue valuation levels ∘ some) operands
      | .junction .disjunction operands =>
          Interpretation.disjunction
            (registry.sideValue valuation levels ∘ some) operands
      | .implication antecedent consequent =>
          Interpretation.implication (registry.sideValue valuation levels)
            antecedent consequent
      | .dnf _ _ generated =>
          match generated.bind registry.node? with
          | some formula => registry.nodeValue valuation levels formula
          | none => .ok none := by
  rw [nodeValue]
  rfl

/-- The value of a side is that of its tree, a missing one included. -/
theorem sideValue_eq_value
    {levels : Nat}
    (nodes : ∀ node, registry.nodeValue valuation levels node =
      (registry.unfold levels node).value valuation) :
    registry.sideValue valuation levels =
      Tree.value valuation ∘ registry.sideTree levels := by
  funext side
  cases side with
  | none => rfl
  | some name =>
      cases stands : registry.referent? name with
      | none =>
          simp [sideValue, sideTree, stands, nameTree_of_no_referent stands,
            Tree.value]
      | some operand =>
          simp [sideValue, sideTree, stands, nameTree_of_referent stands,
            nodes]

variable [Extensional V]

/-- The value of a node is the value of its tree. -/
theorem nodeValue_eq_value (levels : Nat) (node : Node) :
    registry.nodeValue valuation levels node =
      (registry.unfold levels node).value valuation := by
  induction levels generalizing node with
  | zero => rfl
  | succ levels inductionHypothesis =>
      rw [nodeValue_succ,
        registry.sideValue_eq_value valuation inductionHypothesis]
      cases body : node.body with
      | atom => rw [unfold_atom body, Tree.value]
      | negation operand =>
          rw [unfold_negation body, Tree.value]
          rfl
      | junction connective operands =>
          rw [unfold_junction body]
          cases connective with
          | conjunction =>
              rw [Tree.value, Tree.values_eq_map,
                Extensional.conjunction_map, Extensional.conjunction_map]
              rfl
          | disjunction =>
              rw [Tree.value, Tree.values_eq_map,
                Extensional.disjunction_map, Extensional.disjunction_map]
              rfl
      | implication antecedent consequent =>
          rw [unfold_implication body, Tree.value]
          exact (Extensional.implication_map id
            (Tree.value valuation ∘ registry.sideTree levels)
            antecedent consequent).symm
      | dnf atoms rows recorded =>
          rw [unfold_dnf body, Tree.value, recordedTree]
          dsimp only
          cases recorded.bind registry.node? with
          | none => rfl
          | some formula => exact inductionHypothesis formula

theorem evaluate_eq_value
    {key : Key} {node : Node} (stored : registry.node? key = some node) :
    registry.evaluate valuation key =
      (registry.unfold (registry.levels 0) node).value valuation := by
  rw [evaluate, stored]
  exact registry.nodeValue_eq_value valuation _ node

/-- A stored formula that has the same tree in a larger registry has the same
value there. -/
theorem evaluate_eq_of_unfold_eq
    {after : Registry} (extension : registry.Extends after)
    {key : Key} {node : Node} (stored : registry.node? key = some node)
    (same : after.unfold (after.levels 0) node =
      registry.unfold (registry.levels 0) node) :
    after.evaluate valuation key = registry.evaluate valuation key := by
  rw [after.evaluate_eq_value valuation (extension.node? stored), same,
    registry.evaluate_eq_value valuation stored]

end NodeValue

end Registry

end NamedLogic
