import NamedLogic.Proofs.GatheredJunction
import NamedLogic.Proofs.Persistence

/-!
# Operands in sequence

A junction reads its operands from left to right, and stops once it is decided.
So junctions of outcomes multiply like words in which a letter met before is
idle: multiplication is associative, and a repeated outcome counts only where it
stands first.  It follows that operands may be spliced in place of a junction of
the same kind, and that a name need be taken only once.
-/

namespace NamedLogic

namespace Interpretation

/-- What a reading makes of the operands of a junction. -/
def junction {V α : Type} [Interpretation V]
    (connective : Connective) (value : α → Traversed (Option V))
    (operands : List α) : Traversed (Option V) :=
  match connective with
  | .conjunction => conjunction value operands
  | .disjunction => disjunction value operands

/-- What a reading makes of a list of outcomes. -/
abbrev joined {V : Type} [Interpretation V]
    (connective : Connective) (outcomes : List (Traversed (Option V))) :
    Traversed (Option V) :=
  junction connective id outcomes

end Interpretation

open Interpretation

/-- A reading that goes through outcomes in sequence, and for which an outcome
met before is idle. -/
class Sequential (V : Type) [Interpretation V] : Prop where
  joined_cons (connective : Connective) (first : Traversed (Option V))
    (rest : List (Traversed (Option V))) :
    joined connective (first :: rest) =
      joined connective [first, joined connective rest]
  joined_unit (connective : Connective)
    (rest : List (Traversed (Option V))) :
    joined connective [joined connective [], joined connective rest] =
      joined connective rest
  joined_assoc (connective : Connective)
    (first second third : Traversed (Option V)) :
    joined connective [joined connective [first, second], third] =
      joined connective [first, joined connective [second, third]]
  joined_repeated (connective : Connective)
    (first second third : Traversed (Option V)) :
    joined connective
        [first, joined connective [second, joined connective [first, third]]] =
      joined connective [first, joined connective [second, third]]

/-! ## The two readings -/

theorem Classical.conjunction_single (outcome : Traversed (Option Bool)) :
    Classical.conjunction id [outcome] = outcome := by
  rcases outcome with _ | _ | _ | _ <;> rfl

theorem Classical.disjunction_single
    (outcomes : List (Traversed (Option Bool))) :
    Classical.disjunction id [Classical.disjunction id outcomes] =
      Classical.disjunction id outcomes := by
  induction outcomes with
  | nil => rfl
  | cons outcome outcomes inductionHypothesis =>
      rcases outcome with _ | _ | _ | _
      · rfl
      · exact inductionHypothesis
      · exact inductionHypothesis
      · rfl

instance : Sequential Bool where
  joined_cons connective first rest := by
    cases connective with
    | conjunction =>
        rcases first with _ | _ | _ | _
        · rfl
        · rfl
        · rfl
        · exact (Classical.conjunction_single _).symm
    | disjunction =>
        rcases first with _ | _ | _ | _
        · rfl
        · exact (Classical.disjunction_single rest).symm
        · exact (Classical.disjunction_single rest).symm
        · rfl
  joined_unit connective rest := by
    cases connective with
    | conjunction => exact Classical.conjunction_single _
    | disjunction => exact Classical.disjunction_single rest
  joined_assoc connective first second third := by
    cases connective <;> rcases first with _ | _ | _ | _ <;>
      rcases second with _ | _ | _ | _ <;>
        rcases third with _ | _ | _ | _ <;> rfl
  joined_repeated connective first second third := by
    cases connective <;> rcases first with _ | _ | _ | _ <;>
      rcases second with _ | _ | _ | _ <;>
        rcases third with _ | _ | _ | _ <;> rfl

/-- A running value may be met with the rest at the end. -/
theorem Belnap.conjunctionFrom_eq_pair
    (forFalsity : Bool) (outcomes : List (Traversed (Option Four))) :
    Belnap.conjunctionFrom id ⟨true, forFalsity⟩ outcomes =
      Belnap.conjunctionFrom id ⟨true, forFalsity⟩
        [Belnap.conjunctionFrom id Four.truth outcomes] := by
  induction outcomes generalizing forFalsity with
  | nil => cases forFalsity <;> rfl
  | cons outcome outcomes inductionHypothesis =>
      rcases outcome with _ | _ | ⟨_ | _, conflict⟩
      · rfl
      · rfl
      · rfl
      · change conjunctionFrom id ⟨true, forFalsity || conflict⟩ outcomes =
          conjunctionFrom id ⟨true, forFalsity⟩
            [conjunctionFrom id ⟨true, conflict⟩ outcomes]
        rw [inductionHypothesis (forFalsity || conflict),
          inductionHypothesis conflict]
        rcases conjunctionFrom id Four.truth outcomes with
            _ | _ | ⟨_ | _, _ | _⟩ <;>
          cases forFalsity <;> cases conflict <;> rfl

/-- A running value may be joined with the rest at the end. -/
theorem Belnap.disjunctionFrom_eq_pair
    (forFalsity : Bool) (outcomes : List (Traversed (Option Four))) :
    Belnap.disjunctionFrom id ⟨false, forFalsity⟩ outcomes =
      Belnap.disjunctionFrom id ⟨false, forFalsity⟩
        [Belnap.disjunctionFrom id Four.falsity outcomes] := by
  induction outcomes generalizing forFalsity with
  | nil => cases forFalsity <;> rfl
  | cons outcome outcomes inductionHypothesis =>
      -- An outcome without a value gives no evidence.
      have undecided : ∀ evidence : Bool,
          disjunctionFrom id ⟨false, forFalsity && evidence⟩ outcomes =
            disjunctionFrom id ⟨false, forFalsity⟩
              [disjunctionFrom id ⟨false, evidence⟩ outcomes] := by
        intro evidence
        rw [inductionHypothesis (forFalsity && evidence),
          inductionHypothesis evidence]
        rcases disjunctionFrom id Four.falsity outcomes with
            _ | _ | ⟨_ | _, _ | _⟩ <;>
          cases forFalsity <;> cases evidence <;> rfl
      rcases outcome with _ | _ | ⟨_ | _, evidence⟩
      · rfl
      · exact undecided false
      · exact undecided evidence
      · rfl

instance : Sequential Four where
  joined_cons connective first rest := by
    cases connective with
    | conjunction =>
        rcases first with _ | _ | ⟨_ | _, conflict⟩
        · rfl
        · rfl
        · rfl
        · exact Belnap.conjunctionFrom_eq_pair conflict rest
    | disjunction =>
        rcases first with _ | _ | ⟨_ | _, evidence⟩
        · rfl
        · exact Belnap.disjunctionFrom_eq_pair false rest
        · exact Belnap.disjunctionFrom_eq_pair evidence rest
        · rfl
  joined_unit connective rest := by
    cases connective with
    | conjunction => exact (Belnap.conjunctionFrom_eq_pair false rest).symm
    | disjunction => exact (Belnap.disjunctionFrom_eq_pair true rest).symm
  joined_assoc connective first second third := by
    cases connective <;> rcases first with _ | _ | ⟨_ | _, _ | _⟩ <;>
      rcases second with _ | _ | ⟨_ | _, _ | _⟩ <;>
        rcases third with _ | _ | ⟨_ | _, _ | _⟩ <;> rfl
  joined_repeated connective first second third := by
    cases connective <;> rcases first with _ | _ | ⟨_ | _, _ | _⟩ <;>
      rcases second with _ | _ | ⟨_ | _, _ | _⟩ <;>
        rcases third with _ | _ | ⟨_ | _, _ | _⟩ <;> rfl

/-! ## Splicing and repetition -/

section Sequences

variable {V : Type} [Interpretation V] [Sequential V]
  (connective : Connective)

theorem joined_append (first second : List (Traversed (Option V))) :
    joined connective (first ++ second) =
      joined connective [joined connective first,
        joined connective second] := by
  induction first with
  | nil => exact (Sequential.joined_unit connective second).symm
  | cons outcome outcomes inductionHypothesis =>
      rw [List.cons_append, Sequential.joined_cons, inductionHypothesis,
        ← Sequential.joined_assoc,
        ← Sequential.joined_cons connective outcome outcomes]

/-- An outcome met before is idle. -/
theorem joined_append_cons_of_mem
    {present : List (Traversed (Option V))} {outcome : Traversed (Option V)}
    (member : outcome ∈ present) (rest : List (Traversed (Option V))) :
    joined connective (present ++ outcome :: rest) =
      joined connective (present ++ rest) := by
  obtain ⟨before, between, rfl⟩ := List.append_of_mem member
  have idle : joined connective (outcome :: between ++ outcome :: rest) =
      joined connective (outcome :: between ++ rest) := by
    rw [List.cons_append, List.cons_append, Sequential.joined_cons,
      joined_append, Sequential.joined_cons connective outcome rest,
      Sequential.joined_repeated, ← joined_append,
      ← Sequential.joined_cons]
  rw [List.append_assoc, List.append_assoc, joined_append, idle,
    ← joined_append]

/-- Names may be taken once. -/
theorem joined_foldl_appendNew
    (value : Name → Traversed (Option V)) (present names : List Name) :
    joined connective ((names.foldl appendNew present).map value) =
      joined connective ((present ++ names).map value) := by
  induction names generalizing present with
  | nil => rw [List.foldl_nil, List.append_nil]
  | cons name names inductionHypothesis =>
      rw [List.foldl_cons, inductionHypothesis, appendNew]
      split
      · rename_i contained
        have member : name ∈ present := by simpa using contained
        rw [List.map_append, List.map_append, List.map_cons]
        exact (joined_append_cons_of_mem connective
          (List.mem_map_of_mem member) _).symm
      · rw [List.append_assoc]
        rfl

/-- Every item may be replaced by a list of outcomes that has the same effect
before any rest. -/
theorem joined_flatMap
    {α : Type} {parts : α → List (Traversed (Option V))}
    {value : α → Traversed (Option V)} {items : List α}
    (same : ∀ item ∈ items, ∀ rest,
      joined connective (parts item ++ rest) =
        joined connective [value item, joined connective rest]) :
    joined connective (items.flatMap parts) =
      joined connective (items.map value) := by
  induction items with
  | nil => rfl
  | cons item items inductionHypothesis =>
      rw [List.flatMap_cons, same item List.mem_cons_self,
        inductionHypothesis fun other member =>
          same other (List.mem_cons_of_mem _ member),
        List.map_cons, ← Sequential.joined_cons]

end Sequences

/-! ## The rules on values -/

/-- The classical rule.  The first operand that is not true decides a
conjunction, and a disjunction is true if some operand is. -/
def Classical.rule : Connective → List (Option Bool) → Option Bool
  | .conjunction, values =>
      (values.find? fun value => value != some true).getD (some true)
  | .disjunction, values => some (values.contains (some true))

/-- Meet a running value with further values, reading no value as no evidence,
until the running value is not designated. -/
def Belnap.meetFrom (running : Four) : List (Option Four) → Four
  | [] => running
  | value :: rest =>
      let met := running.conjunct (value.getD Four.bottom)
      if met.forTruth then Belnap.meetFrom met rest else Four.falsity

/-- Join a running value with further values, reading no value as no evidence,
until the running value is designated. -/
def Belnap.joinFrom (running : Four) : List (Option Four) → Four
  | [] => running
  | value :: rest =>
      let joined := running.disjunct (value.getD Four.bottom)
      if joined.forTruth then Four.truth else Belnap.joinFrom joined rest

/-- The four-valued rule. -/
def Belnap.rule : Connective → List (Option Four) → Option Four
  | .conjunction, values => some (Belnap.meetFrom Four.truth values)
  | .disjunction, values => some (Belnap.joinFrom Four.falsity values)

theorem Classical.joined_ok
    (connective : Connective) (values : List (Option Bool)) :
    joined connective (values.map .ok) =
      .ok (Classical.rule connective values) := by
  cases connective with
  | conjunction =>
      induction values with
      | nil => rfl
      | cons value values inductionHypothesis =>
          rcases value with _ | _ | _
          · rfl
          · rfl
          · exact inductionHypothesis
  | disjunction =>
      induction values with
      | nil => rfl
      | cons value values inductionHypothesis =>
          rcases value with _ | _ | _
          · exact inductionHypothesis
          · exact inductionHypothesis
          · rfl

theorem Belnap.conjunctionFrom_ok
    (running : Four) (values : List (Option Four)) :
    Belnap.conjunctionFrom id running (values.map .ok) =
      .ok (some (Belnap.meetFrom running values)) := by
  induction values generalizing running with
  | nil => rfl
  | cons value values inductionHypothesis =>
      have same : TruthValue.coerce value = value.getD Four.bottom := by
        cases value <;> rfl
      rw [List.map_cons, Belnap.conjunctionFrom, Belnap.meetFrom, ← same]
      change (if (running.conjunct (TruthValue.coerce value)).forTruth = true
        then _ else _) = _
      split
      · exact inductionHypothesis _
      · rfl

theorem Belnap.disjunctionFrom_ok
    (running : Four) (values : List (Option Four)) :
    Belnap.disjunctionFrom id running (values.map .ok) =
      .ok (some (Belnap.joinFrom running values)) := by
  induction values generalizing running with
  | nil => rfl
  | cons value values inductionHypothesis =>
      have same : TruthValue.coerce value = value.getD Four.bottom := by
        cases value <;> rfl
      rw [List.map_cons, Belnap.disjunctionFrom, Belnap.joinFrom, ← same]
      change (if (running.disjunct (TruthValue.coerce value)).forTruth = true
        then _ else _) = _
      split
      · rfl
      · exact inductionHypothesis _

theorem Belnap.joined_ok
    (connective : Connective) (values : List (Option Four)) :
    joined connective (values.map .ok) =
      .ok (Belnap.rule connective values) := by
  cases connective with
  | conjunction => exact Belnap.conjunctionFrom_ok Four.truth values
  | disjunction => exact Belnap.disjunctionFrom_ok Four.falsity values

end NamedLogic
