import Mathlib.Data.List.ReduceOption
import NamedLogic.Proofs.ClassicalAgreement
import NamedLogic.Proofs.Comparison
import NamedLogic.Proofs.NormalForms

/-!
# Designation in partial states

Where atoms lack a value, the logics find different values: what leaves a
conjunction without a value in the classical logic makes it false in the
four-valued one.  Yet both ask whether all operands of a conjunction are
designated, and whether some operand of a disjunction is, and both go on to the
next operand for as long as this is open.  Only negations and implications turn
a value that is not designated into one that is.  As long as there are none,
except for negated atoms, the logics therefore designate the same formulas, and
are refused alike.
-/

namespace NamedLogic

/-! ## Verdicts -/

namespace Traversed

/-- Whether a designated value is found. -/
def designates
    {V : Type} [TruthValue V] (traversed : Traversed (Option V)) :
    Traversed Bool :=
  traversed.map fun outcome => outcome.any TruthValue.designated

theorem designates_eq_error_iff
    {V : Type} [TruthValue V] {traversed : Traversed (Option V)}
    {cause : LogicError} :
    traversed.designates = .error cause ↔ traversed = .error cause := by
  cases traversed <;> simp [designates, Except.map]

theorem respected_eq : Respected Eq where
  answer _ := rfl
  both left right := by rw [left, right]
  either left right := by rw [left, right]

end Traversed

section Readings

variable {α : Type}

/-- A classical conjunction stops at an operand that is not true, whether it
lacks a value or is false. -/
theorem Classical.designates_conjunction
    (value : α → Traversed (Option Bool)) (operands : List α) :
    (conjunction value operands).designates =
      operands.allM fun operand => (value operand).designates := by
  induction operands with
  | nil => rfl
  | cons operand operands inductionHypothesis =>
      rw [conjunction, Traversed.allM_cons, ← inductionHypothesis]
      rcases value operand with _ | _ | _ | _ <;> rfl

theorem Classical.designates_disjunction
    (value : α → Traversed (Option Bool)) (operands : List α) :
    (disjunction value operands).designates =
      operands.anyM fun operand => (value operand).designates := by
  induction operands with
  | nil => rfl
  | cons operand operands inductionHypothesis =>
      rw [disjunction, Traversed.anyM_cons, ← inductionHypothesis]
      rcases value operand with _ | _ | _ | _ <;> rfl

/-- What no evidence is read as is not designated. -/
theorem Belnap.forTruth_coerce (outcome : Option Four) :
    (TruthValue.coerce outcome : Four).forTruth =
      outcome.any TruthValue.designated := by
  cases outcome <;> rfl

/-- Up to the operand at which a conjunction stops, the running value is
designated. -/
theorem Belnap.designates_conjunctionFrom
    (value : α → Traversed (Option Four)) (operands : List α)
    {running : Four} (designated : running.forTruth = true) :
    (conjunctionFrom value running operands).designates =
      operands.allM fun operand => (value operand).designates := by
  induction operands generalizing running with
  | nil => exact congrArg Except.ok designated
  | cons operand operands inductionHypothesis =>
      rw [conjunctionFrom, Traversed.allM_cons]
      cases value operand with
      | error cause => rfl
      | ok outcome =>
          let met := running.conjunct (TruthValue.coerce outcome)
          have evidence :
              met.forTruth = outcome.any TruthValue.designated := by
            change (running.forTruth && Four.forTruth _) = _
            rw [designated, Bool.true_and, forTruth_coerce]
          change Traversed.designates (if met.forTruth = true then
            conjunctionFrom value met operands
            else .ok (some Four.falsity)) =
              Traversed.both (.ok (outcome.any TruthValue.designated)) _
          rw [← evidence]
          cases still : met.forTruth with
          | false => rfl
          | true =>
              rw [if_pos rfl, inductionHypothesis still]
              rfl

/-- Up to the operand at which a disjunction stops, the running value is not
designated. -/
theorem Belnap.designates_disjunctionFrom
    (value : α → Traversed (Option Four)) (operands : List α)
    {running : Four} (undesignated : running.forTruth = false) :
    (disjunctionFrom value running operands).designates =
      operands.anyM fun operand => (value operand).designates := by
  induction operands generalizing running with
  | nil => exact congrArg Except.ok undesignated
  | cons operand operands inductionHypothesis =>
      rw [disjunctionFrom, Traversed.anyM_cons]
      cases value operand with
      | error cause => rfl
      | ok outcome =>
          let joined := running.disjunct (TruthValue.coerce outcome)
          have evidence :
              joined.forTruth = outcome.any TruthValue.designated := by
            change (running.forTruth || Four.forTruth _) = _
            rw [undesignated, Bool.false_or, forTruth_coerce]
          change Traversed.designates (if joined.forTruth = true then
            .ok (some Four.truth)
            else disjunctionFrom value joined operands) =
              Traversed.either (.ok (outcome.any TruthValue.designated)) _
          rw [← evidence]
          cases decided : joined.forTruth with
          | true => rfl
          | false =>
              rw [if_neg Bool.false_ne_true, inductionHypothesis decided]
              rfl

end Readings

/-! ## Concurring traversals -/

/-- The two traversals both find a designated value, both find none, or are
refused alike. -/
def Concurs
    (four : Traversed (Option Four)) (classical : Traversed (Option Bool)) :
    Prop :=
  four.designates = classical.designates

theorem concurs_ofBool (classical : Traversed (Option Bool)) :
    Concurs (classical.map (Option.map Four.ofBool)) classical := by
  rcases classical with _ | _ | _ <;> rfl

/-- Where the four-valued value is a classical one, negation does not tell the
logics apart. -/
theorem concurs_negate_ofBool (classical : Traversed (Option Bool)) :
    Concurs
      ((classical.map (Option.map Four.ofBool)).map
        (Option.map TruthValue.negate))
      (classical.map (Option.map TruthValue.negate)) := by
  rcases classical with _ | _ | _ <;> rfl

section Junctions

variable {α : Type} {four : α → Traversed (Option Four)}
  {classical : α → Traversed (Option Bool)} {operands : List α}
  (parts : ∀ operand ∈ operands, Concurs (four operand) (classical operand))

include parts

theorem concurs_conjunction :
    Concurs (Belnap.conjunctionFrom four Four.truth operands)
      (Classical.conjunction classical operands) :=
  calc
    _ = operands.allM fun operand => (four operand).designates :=
      Belnap.designates_conjunctionFrom four operands rfl
    _ = operands.allM fun operand => (classical operand).designates :=
      Traversed.respected_eq.allM parts
    _ = _ := (Classical.designates_conjunction classical operands).symm

theorem concurs_disjunction :
    Concurs (Belnap.disjunctionFrom four Four.falsity operands)
      (Classical.disjunction classical operands) :=
  calc
    _ = operands.anyM fun operand => (four operand).designates :=
      Belnap.designates_disjunctionFrom four operands rfl
    _ = operands.anyM fun operand => (classical operand).designates :=
      Traversed.respected_eq.anyM parts
    _ = _ := (Classical.designates_disjunction classical operands).symm

end Junctions

/-! ## Nodes -/

namespace Registry

variable {registry : Registry} {node : Node} {valuation : Valuation Bool}

/-- The node is no implication, and if it is a negation, its operand is an atom
or stands for nothing. -/
def NegatesAtomsOnly (registry : Registry) (node : Node) : Prop :=
  match node.body with
  | .negation operand => ∀ atom ∈ registry.referent? operand, atom.isAtom
  | .implication _ _ => False
  | _ => True

instance (registry : Registry) (node : Node) :
    Decidable (registry.NegatesAtomsOnly node) :=
  have : Decidable (match node.body with
      | .negation operand => ∀ atom ∈ registry.referent? operand, atom.isAtom
      | .implication _ _ => False
      | _ => True) :=
    match node.body with
    | .negation operand =>
        inferInstanceAs <| Decidable <|
          ∀ atom ∈ registry.referent? operand, atom.isAtom
    | .implication _ _ => .isFalse id
    | .atom | .junction _ _ | .dnf _ _ _ => .isTrue trivial
  this

theorem NegatesAtomsOnly.isAtom
    (normal : registry.NegatesAtomsOnly node) {operand : Name}
    (body : node.body = .negation operand) {atom : Node}
    (stands : registry.referent? operand = some atom) : atom.isAtom := by
  rw [NegatesAtomsOnly, body] at normal
  exact normal atom stands

theorem NegatesAtomsOnly.body_ne_implication
    (normal : registry.NegatesAtomsOnly node)
    (antecedent consequent : Option Name) :
    node.body ≠ .implication antecedent consequent := by
  intro body
  rw [NegatesAtomsOnly, body] at normal
  exact normal

/-- An atom has the value that the classical valuation gives it, if any. -/
theorem nodeValue_fourValued_of_isAtom
    (isAtom : node.isAtom) (levels : Nat) :
    registry.nodeValue valuation.fourValued levels node =
      (registry.nodeValue valuation levels node).map
        (Option.map Four.ofBool) := by
  cases levels with
  | zero => rfl
  | succ levels =>
      rw [nodeValue_succ, nodeValue_succ, Node.body_eq_atom_of_isAtom isAtom]
      exact congrArg Except.ok (valuation.get?_fourValued _)

/-- The induction is on the levels; both logics descend alike. -/
theorem concurs_nodeValue
    {levels : Nat}
    (normal : ∀ part, registry.Meets node part →
      registry.NegatesAtomsOnly part) :
    Concurs (registry.nodeValue valuation.fourValued levels node)
      (registry.nodeValue valuation levels node) := by
  induction levels generalizing node with
  | zero => rfl
  | succ levels inductionHypothesis =>
      have here := normal node (.here node)
      have next : ∀ next, registry.Descends node next →
          Concurs (registry.nodeValue valuation.fourValued levels next)
            (registry.nodeValue valuation levels next) :=
        fun next step => inductionHypothesis
          fun part rest => normal part (.further step rest)
      rw [nodeValue_succ, nodeValue_succ]
      cases body : node.body with
      | atom =>
          rw [Valuation.get?_fourValued]
          exact concurs_ofBool (.ok _)
      | negation operand =>
          cases stands : registry.referent? operand with
          | none =>
              simp only [sideValue, Option.bind_some, stands]
              rfl
          | some atom =>
              simp only [sideValue_of_referent stands,
                nodeValue_fourValued_of_isAtom (here.isAtom body stands)]
              exact concurs_negate_ofBool _
      | junction connective operands =>
          have parts : ∀ name ∈ operands,
              Concurs
                (registry.sideValue valuation.fourValued levels (some name))
                (registry.sideValue valuation levels (some name)) := by
            intro name member
            have named : ∀ other ∈ some name, other ∈ node.lookups := by
              rintro _ ⟨⟩
              exact Node.mem_lookups_of_junction body member
            exact sideValue_related Concurs rfl next named
          cases connective with
          | conjunction => exact concurs_conjunction parts
          | disjunction => exact concurs_disjunction parts
      | implication antecedent consequent =>
          exact (here.body_ne_implication _ _ body).elim
      | dnf atoms rows recorded =>
          cases recorded with
          | none => rfl
          | some key =>
              simp only [Option.bind_some]
              cases present : registry.node? key with
              | none => rfl
              | some formula => exact next formula (.generated body present)

/-- In a formula without implications whose negations are of atoms, the two
logics designate the same.  Under any classical valuation of some of the atoms
they are refused alike, and where they are not, the four-valued logic finds a
designated value exactly if the classical one finds the formula true. -/
theorem designated_iff_true
    {key : Key}
    (normal : ∀ node, registry.node? key = some node →
      ∀ part, registry.Meets node part → registry.NegatesAtomsOnly part)
    (valuation : Valuation Bool) :
    (∀ cause, registry.evaluate valuation.fourValued key = .error cause ↔
      registry.evaluate valuation key = .error cause) ∧
    ∀ four classical, registry.evaluate valuation.fourValued key = .ok four →
      registry.evaluate valuation key = .ok classical →
      (four.any TruthValue.designated = true ↔ classical = some true) := by
  have concurring :
      Concurs (registry.evaluate valuation.fourValued key)
        (registry.evaluate valuation key) := by
    unfold evaluate
    cases stored : registry.node? key with
    | none => rfl
    | some node => exact concurs_nodeValue (normal node stored)
  constructor
  · intro cause
    rw [← Traversed.designates_eq_error_iff, concurring,
      Traversed.designates_eq_error_iff]
  · intro four classical first second
    rw [first, second] at concurring
    have same :
        four.any TruthValue.designated = classical.any TruthValue.designated :=
      Except.ok.inj concurring
    rw [same]
    cases classical <;> simp [TruthValue.designated]

/-- A disjunction of a disjunctive normal form, one of whose rows is false in the
four-valued logic and has no value in the classical one, of the negation of a
name that stands for nothing, and of a negated atom that is false. -/
theorem designated_beside_missing_values :
    let registry := replay
      [.atom "p", .atom "q", .dnf [⟨1⟩, ⟨2⟩] 6, .atom "r", .atom "s",
        .negation ⟨12⟩, .negation ⟨13⟩,
        .junction .disjunction [⟨11⟩, ⟨15⟩, ⟨14⟩], .removeKey ⟨13⟩]
    let valuation := Valuation.ofList [("p", true), ("r", false)]
    registry.evaluate valuation.fourValued ⟨8⟩ = .ok (some Four.falsity) ∧
      registry.evaluate valuation ⟨8⟩ = .ok none ∧
      registry.evaluate valuation ⟨15⟩ = .ok none ∧
      registry.evaluate valuation.fourValued ⟨16⟩ = .ok (some Four.truth) ∧
      registry.evaluate valuation ⟨16⟩ = .ok (some true) := by
  intro registry valuation
  let nodes := registry.nodes.toList.reduceOption
  have closed : ∀ node ∈ nodes, registry.successors node ⊆ nodes := by
    decide +kernel
  have normal : ∀ node ∈ nodes, registry.NegatesAtomsOnly node := by
    decide +kernel
  have among : ∀ node ∈ registry.node? ⟨16⟩, node ∈ nodes := by
    decide +kernel
  obtain ⟨refusals, same⟩ := registry.designated_iff_true
    (fun node stored part meets => normal part
      (meets.comesTo.mem_of_closed closed (among node stored))) valuation
  have found : registry.evaluate valuation.fourValued ⟨16⟩ =
      .ok (some Four.truth) := by decide +kernel
  refine ⟨by decide +kernel, by decide +kernel, by decide +kernel, found, ?_⟩
  cases classical : registry.evaluate valuation ⟨16⟩ with
  | error cause =>
      have refused := (refusals cause).mpr classical
      rw [found] at refused
      cases refused
  | ok outcome => rw [(same _ _ found classical).mp rfl]

end Registry

end NamedLogic
