import NamedLogic.Proofs.TreeSoundness
import NamedLogic.Proofs.TreeValue

/-!
# Classical truth within the families of truth values

Both families contain the classical values, and both read the connectives of
classical operands classically.  So where nothing is missing and every atom has
a classical value, the value of a formula is its classical truth.
-/

namespace NamedLogic

/-- A reading of the connectives that is classical on classical values. -/
class Conservative (V : Type) [Interpretation V] where
  /-- A classical value as one of the family. -/
  embed : Bool → V
  negate_embed (truth : Bool) :
    TruthValue.negate (embed truth) = embed (!truth)
  conjunction_embed (truths : List Bool) :
    Interpretation.conjunction (fun truth => .ok (some (embed truth)))
      truths = .ok (some (embed (Tree.joined .conjunction truths)))
  disjunction_embed (truths : List Bool) :
    Interpretation.disjunction (fun truth => .ok (some (embed truth)))
      truths = .ok (some (embed (Tree.joined .disjunction truths)))
  implication_embed (antecedent consequent : Bool) :
    Interpretation.implication (fun truth => .ok (some (embed truth)))
      antecedent consequent = .ok (some (embed (!antecedent || consequent)))

/-- The state of a classical valuation, in which what has no value is false. -/
def Valuation.state (valuation : Valuation Bool) (string : String) : Bool :=
  (valuation.get? string).getD false

theorem Valuation.get?_of_contains
    {valuation : Valuation Bool} {string : String}
    (given : valuation.contains string) :
    valuation.get? string = some (valuation.state string) := by
  obtain ⟨truth, found⟩ := Option.isSome_iff_exists.mp given
  rw [state, found, Option.getD_some]

/-! ## The two readings -/

theorem Classical.conjunction_ok (truths : List Bool) :
    Classical.conjunction (fun truth => .ok (some truth)) truths =
      .ok (some (Tree.joined .conjunction truths)) := by
  induction truths with
  | nil => rfl
  | cons truth truths inductionHypothesis =>
      cases truth with
      | false => rfl
      | true => exact inductionHypothesis

theorem Classical.disjunction_ok (truths : List Bool) :
    Classical.disjunction (fun truth => .ok (some truth)) truths =
      .ok (some (Tree.joined .disjunction truths)) := by
  induction truths with
  | nil => rfl
  | cons truth truths inductionHypothesis =>
      cases truth with
      | false => exact inductionHypothesis
      | true => rfl

instance : Conservative Bool where
  embed := id
  negate_embed _ := rfl
  conjunction_embed := Classical.conjunction_ok
  disjunction_embed := Classical.disjunction_ok
  implication_embed antecedent consequent := by
    cases antecedent <;> cases consequent <;> rfl

theorem Belnap.conjunctionFrom_ofBool (truths : List Bool) :
    Belnap.conjunctionFrom (fun truth => .ok (some (Four.ofBool truth)))
        Four.truth truths =
      .ok (some (Four.ofBool (Tree.joined .conjunction truths))) := by
  induction truths with
  | nil => rfl
  | cons truth truths inductionHypothesis =>
      cases truth with
      | false => rfl
      | true => exact inductionHypothesis

theorem Belnap.disjunctionFrom_ofBool (truths : List Bool) :
    Belnap.disjunctionFrom (fun truth => .ok (some (Four.ofBool truth)))
        Four.falsity truths =
      .ok (some (Four.ofBool (Tree.joined .disjunction truths))) := by
  induction truths with
  | nil => rfl
  | cons truth truths inductionHypothesis =>
      cases truth with
      | false => exact inductionHypothesis
      | true => rfl

instance : Conservative Four where
  embed := Four.ofBool
  negate_embed truth := by cases truth <;> rfl
  conjunction_embed := Belnap.conjunctionFrom_ofBool
  disjunction_embed := Belnap.disjunctionFrom_ofBool
  implication_embed antecedent consequent := by
    cases antecedent <;> cases consequent <;> rfl

/-! ## Values of whole trees -/

namespace Tree

/-- A tree in which nothing is missing, and that is not cut off below. -/
def Total (tree : Tree) : Prop :=
  tree.Every fun
    | unresolved _ | absent | beyond => False
    | _ => True

theorem Complete.total
    {tree : Tree} (complete : tree.Complete) (settled : tree.Settled) :
    tree.Total := by
  induction tree using Tree.inductionOn with
  | atom => exact trivial
  | unresolved | absent => exact complete
  | generated => exact complete.1.elim
  | beyond => exact settled rfl
  | negation operand inductionHypothesis =>
      exact ⟨trivial, inductionHypothesis complete.2 settled.2⟩
  | junction connective operands inductionHypothesis =>
      obtain ⟨_, completeParts⟩ := every_junction_iff.mp complete
      obtain ⟨_, settledParts⟩ := every_junction_iff.mp settled
      exact every_junction_iff.mpr ⟨trivial, fun operand member =>
        inductionHypothesis operand member (completeParts operand member)
          (settledParts operand member)⟩
  | implication antecedent consequent premise conclusion =>
      exact ⟨trivial, premise complete.2.1 settled.2.1,
        conclusion complete.2.2 settled.2.2⟩

theorem Normal.total {tree : Tree} (normal : tree.Normal) :
    tree.Total := by
  induction normal with
  | positive => exact trivial
  | negative => exact ⟨trivial, trivial⟩
  | joined _ _ inductionHypothesis =>
      exact every_junction_iff.mpr ⟨trivial, inductionHypothesis⟩

variable {V : Type} [Interpretation V] [Conservative V]

/-- A valuation gives the atoms of a tree their classical values in a state. -/
def Gives
    (valuation : Valuation V) (state : String → Bool)
    (literals : List (String × Bool)) : Prop :=
  ∀ literal ∈ literals,
    valuation.get? literal.1 = some (Conservative.embed (state literal.1))

theorem values_junction
    [Extensional V] {valuation : Valuation V} {state : String → Bool}
    {operands : List Tree}
    (values : ∀ operand ∈ operands, operand.value valuation =
      .ok (some (Conservative.embed (operand.holds state))))
    (connective : Connective) :
    (junction connective operands).value valuation =
      .ok (some (Conservative.embed
        (joined connective (operands.map (holds state))))) := by
  have embedded : operands.map (value valuation) =
      (operands.map (holds state)).map fun truth =>
        .ok (some (Conservative.embed truth)) := by
    rw [List.map_map]
    exact List.map_congr_left values
  cases connective with
  | conjunction =>
      rw [value, values_eq_map, embedded, Extensional.conjunction_map]
      exact Conservative.conjunction_embed _
  | disjunction =>
      rw [value, values_eq_map, embedded, Extensional.disjunction_map]
      exact Conservative.disjunction_embed _

/-- Where every atom has a classical value, the value of a whole tree is its
classical truth. -/
theorem Total.value_eq
    [Extensional V] {tree : Tree} (total : tree.Total)
    {valuation : Valuation V} {state : String → Bool} {positive : Bool}
    (gives : Gives valuation state (tree.literals positive)) :
    tree.value valuation =
      .ok (some (Conservative.embed (tree.holds state))) := by
  induction tree using Tree.inductionOn generalizing positive with
  | atom string =>
      have given := gives (string, positive) (List.mem_singleton_self _)
      rw [value, given, holds]
  | unresolved | absent | beyond => exact total.elim
  | negation operand inductionHypothesis =>
      rw [value, inductionHypothesis total.2 gives, holds,
        ← Conservative.negate_embed]
      rfl
  | junction connective operands inductionHypothesis =>
      obtain ⟨_, parts⟩ := every_junction_iff.mp total
      rw [holds_junction]
      refine values_junction (fun operand member => ?_) connective
      have given : Gives valuation state (operand.literals positive) :=
        fun literal among =>
          gives literal (mem_literalsAmong.mpr ⟨operand, member, among⟩)
      exact inductionHypothesis operand member (parts operand member) given
  | implication antecedent consequent premise conclusion =>
      have left := premise total.2.1 fun literal member =>
        gives literal (List.mem_append_left _ member)
      have right := conclusion total.2.2 fun literal member =>
        gives literal (List.mem_append_right _ member)
      rw [value, left, right, holds, ← Conservative.implication_embed]
      exact Extensional.implication_map id
        (fun truth => .ok (some (Conservative.embed truth))) _ _
  | generated formula inductionHypothesis =>
      exact inductionHypothesis total.2 gives

end Tree

end NamedLogic
