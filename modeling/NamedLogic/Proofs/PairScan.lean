import NamedLogic.Simplification.Basic
import NamedLogic.Proofs.PairRemainders
import NamedLogic.Proofs.Presentation
import NamedLogic.Proofs.Representation

/-!
# Pairs of literals and junctions

The operands that simplification compares in pairs are literals and junctions.
Where structural equality is an equivalence on them, one operand is the negation
of another exactly if the two are complementary literals, and so what the
comparison leaves can be told from the literals alone: complementary ones decide a
conjunction and drop out of a disjunction, and of the other operands the first of
each class is kept.
-/

namespace NamedLogic

/-- An atom, told by its name, or the negation of one. -/
structure Literal where
  name : Name
  positive : Bool
  deriving DecidableEq

namespace Literal

/-- The literal of the same atom that is false where this one is true. -/
def complement (literal : Literal) : Literal :=
  { literal with positive := !literal.positive }

end Literal

namespace Pairing

variable {α : Type} {opposed equal : α → α → Bool}

/-- The laws need to hold among the operands only. -/
theorem reduce?_spec_among
    (connective : Connective) {operands : List α}
    (lawful : Lawful
      (fun first second : { operand // operand ∈ operands } =>
        opposed first.1 second.1)
      fun first second => equal first.1 second.1) :
    (reduce? connective opposed equal operands = none ∧
        connective = .conjunction ∧ Conflicting opposed operands) ∨
      (reduce? connective opposed equal operands =
          some (remaining opposed equal operands) ∧
        (connective = .conjunction → ¬ Conflicting opposed operands)) := by
  have whole : operands.attach.map Subtype.val = operands :=
    List.attach_map_subtype_val operands
  have scan : reduce? connective opposed equal
        (operands.attach.map Subtype.val) = _ :=
    reduce?_map connective (fun _ _ _ _ => rfl) fun _ _ _ _ => rfl
  have conflict : Conflicting opposed (operands.attach.map Subtype.val) ↔ _ :=
    conflicting_map_iff Subtype.val
  have rest : remaining opposed equal
        (operands.attach.map Subtype.val) = _ :=
    remaining_map Subtype.val operands.attach
  rw [whole] at scan conflict rest
  rw [scan, conflict, rest]
  rcases reduce?_spec lawful connective operands.attach with
    ⟨decided, conflicting⟩ | ⟨reduced, compatible⟩
  · exact Or.inl ⟨by rw [decided, Option.map_none], conflicting⟩
  · exact Or.inr ⟨by rw [reduced, Option.map_some], compatible⟩

end Pairing

namespace Registry

/-! ## Operands that are literals or junctions -/

/-- The literal stored under a key, if it is an atom or the negation of a name that
is bound to an atom. -/
def literal? (registry : Registry) (key : Key) : Option Literal :=
  (registry.node? key).bind fun node =>
    match node.body with
    | .atom => some { name := node.name, positive := true }
    | .negation operand =>
        ((registry.referent? operand).filter Node.isAtom).map fun atom =>
          { name := atom.name, positive := false }
    | _ => none

/-- The formula stored under a key is a literal or a junction. -/
def LiteralOrJunction (registry : Registry) (key : Key) : Prop :=
  (registry.literal? key).isSome ∨
    ((registry.node? key).bind Node.junction?).isSome

instance (registry : Registry) (key : Key) :
    Decidable (registry.LiteralOrJunction key) :=
  inferInstanceAs (Decidable (_ ∨ _))

/-- Whether the operand is a literal whose complement is among the operands. -/
def complemented
    (registry : Registry) (operands : List Key) (operand : Key) : Bool :=
  (registry.literal? operand).any fun literal =>
    operands.any fun other =>
      registry.literal? other == some literal.complement

/-- Two of the operands are complementary literals. -/
def Contradictory (registry : Registry) (operands : List Key) : Prop :=
  ∃ first ∈ operands, ∃ second ∈ operands, ∃ literal,
    registry.literal? first = some literal ∧
      registry.literal? second = some literal.complement

section Operands

variable {registry : Registry}

/-- The forms of the operands, each with the literal it is. -/
inductive HasForm (registry : Registry) (key : Key) :
    Option Literal → Prop where
  | atom
      {node : Node} (stored : registry.node? key = some node)
      (body : node.body = .atom) :
      HasForm registry key (some { name := node.name, positive := true })
  | negation
      {node atom : Node} {operand : Name}
      (stored : registry.node? key = some node)
      (body : node.body = .negation operand)
      (stands : registry.referent? operand = some atom)
      (plain : atom.body = .atom) :
      HasForm registry key (some { name := atom.name, positive := false })
  | junction
      {node : Node} {connective : Connective} {operands : List Name}
      (stored : registry.node? key = some node)
      (body : node.body = .junction connective operands) :
      HasForm registry key none

theorem LiteralOrJunction.hasForm
    {key : Key} (formed : registry.LiteralOrJunction key) :
    registry.HasForm key (registry.literal? key) := by
  unfold LiteralOrJunction at formed
  cases stored : registry.node? key with
  | none => simp [literal?, stored] at formed
  | some node =>
      cases body : node.body with
      | atom =>
          have form := HasForm.atom stored body
          simpa [literal?, stored, body] using form
      | negation operand =>
          cases stands : registry.referent? operand with
          | none =>
              simp [literal?, stored, body, stands, Node.junction?] at formed
          | some atom =>
              cases plain : atom.isAtom with
              | true =>
                  have form := HasForm.negation stored body stands
                    (Node.body_eq_atom_of_isAtom plain)
                  simpa [literal?, stored, body, stands, Option.filter,
                    plain] using form
              | false =>
                  simp [literal?, stored, body, stands, Option.filter, plain,
                    Node.junction?] at formed
      | junction connective operands =>
          have form := HasForm.junction stored body
          simpa [literal?, stored, body] using form
      | implication | dnf =>
          simp [literal?, stored, body, Node.junction?] at formed

/-- With a level to spare, formulas stored are compared by their bodies. -/
theorem alike_of_stored
    {left right : Key} {leftNode rightNode : Node}
    (leftStored : registry.node? left = some leftNode)
    (rightStored : registry.node? right = some rightNode) :
    registry.alike left right =
      registry.nodesAlike (registry.levels 1 + 1) leftNode rightNode := by
  rw [alike, leftStored, rightStored]
  rfl

theorem nodesAlike_atom_iff
    {levels : Nat} {left right : Node}
    (leftBody : left.body = .atom) (rightBody : right.body = .atom) :
    registry.nodesAlike levels left right ↔
      levels ≠ 0 ∧ left.name = right.name := by
  cases levels with
  | zero => simp [nodesAlike]
  | succ levels => simp [nodesAlike_succ, leftBody, rightBody]

theorem nodesAlike_negation_iff
    {levels : Nat} {left right leftOperand rightOperand : Node}
    {leftName rightName : Name} (leftBody : left.body = .negation leftName)
    (rightBody : right.body = .negation rightName)
    (leftStands : registry.referent? leftName = some leftOperand)
    (rightStands : registry.referent? rightName = some rightOperand) :
    registry.nodesAlike (levels + 1) left right ↔
      registry.nodesAlike levels leftOperand rightOperand := by
  simp [nodesAlike_succ, leftBody, rightBody, sidesAlike, leftStands,
    rightStands]

/-- Operands that are alike are the same literal, or both are junctions. -/
theorem HasForm.eq_of_alike
    {left right : Key} {leftForm rightForm : Option Literal}
    (leftHas : registry.HasForm left leftForm)
    (rightHas : registry.HasForm right rightForm)
    (same : registry.alike left right) : leftForm = rightForm := by
  cases leftHas with
  | atom leftStored leftBody =>
      cases rightHas with
      | atom rightStored rightBody =>
          rw [alike_of_stored leftStored rightStored,
            nodesAlike_atom_iff leftBody rightBody] at same
          rw [same.2]
      | negation rightStored rightBody | junction rightStored rightBody =>
          rw [alike_of_stored leftStored rightStored, nodesAlike_succ,
            leftBody, rightBody] at same
          cases same
  | negation leftStored leftBody leftStands leftPlain =>
      cases rightHas with
      | negation rightStored rightBody rightStands rightPlain =>
          rw [alike_of_stored leftStored rightStored,
            nodesAlike_negation_iff leftBody rightBody leftStands rightStands,
            nodesAlike_atom_iff leftPlain rightPlain] at same
          rw [same.2]
      | atom rightStored rightBody | junction rightStored rightBody =>
          rw [alike_of_stored leftStored rightStored, nodesAlike_succ,
            leftBody, rightBody] at same
          cases same
  | junction leftStored leftBody =>
      cases rightHas with
      | junction => rfl
      | atom rightStored rightBody | negation rightStored rightBody =>
          rw [alike_of_stored leftStored rightStored, nodesAlike_succ,
            leftBody, rightBody] at same
          cases same

/-- The same literal is alike under both keys, if it is alike to itself. -/
theorem HasForm.alike_of_eq
    {left right : Key} {literal : Literal}
    (leftHas : registry.HasForm left (some literal))
    (rightHas : registry.HasForm right (some literal))
    (itself : registry.alike left left) : registry.alike left right := by
  cases leftHas with
  | atom leftStored leftBody =>
      generalize same : some _ = form at rightHas
      cases rightHas with
      | atom rightStored rightBody =>
          rw [alike_of_stored leftStored rightStored,
            nodesAlike_atom_iff leftBody rightBody]
          exact ⟨Nat.succ_ne_zero _, (Literal.mk.inj (Option.some.inj same)).1⟩
      | negation | junction => simp at same
  | negation leftStored leftBody leftStands leftPlain =>
      generalize same : some _ = form at rightHas
      cases rightHas with
      | negation rightStored rightBody rightStands rightPlain =>
          rw [alike_of_stored leftStored leftStored,
            nodesAlike_negation_iff leftBody leftBody leftStands leftStands,
            nodesAlike_atom_iff leftPlain leftPlain] at itself
          rw [alike_of_stored leftStored rightStored,
            nodesAlike_negation_iff leftBody rightBody leftStands rightStands,
            nodesAlike_atom_iff leftPlain rightPlain]
          exact ⟨itself.1, (Literal.mk.inj (Option.some.inj same)).1⟩
      | atom | junction => simp at same

/-- One operand is the negation of another exactly if it is the negative literal
of an atom and the other is the atom. -/
theorem HasForm.negates_iff
    {left right : Key} {leftForm rightForm : Option Literal}
    (leftHas : registry.HasForm left leftForm)
    (rightHas : registry.HasForm right rightForm) :
    registry.negates left right ↔
      ∃ name, leftForm = some { name, positive := false } ∧
        rightForm = some { name, positive := true } := by
  cases leftHas with
  | atom stored body | junction stored body =>
      simp [negates, stored, Node.negated?, body]
  | negation stored body stands plain =>
      obtain ⟨operand, bound, operandStored⟩ :=
        (referent?_eq_some_iff _ _).mp stands
      have against : registry.negates left right =
          registry.alike operand right := by
        simp [negates, stored, Node.negated?, body, bound]
      rw [against]
      cases rightHas with
      | atom rightStored rightBody =>
          rw [alike_of_stored operandStored rightStored,
            nodesAlike_atom_iff plain rightBody]
          simp [eq_comm]
      | negation rightStored rightBody | junction rightStored rightBody =>
          simp [alike_of_stored operandStored rightStored, nodesAlike_succ,
            plain, rightBody]

section Scan

variable {operands : List Key}
  (formed : ∀ operand ∈ operands, registry.LiteralOrJunction operand)
  (equivalence : Equivalence
    fun left right : { operand // operand ∈ operands } =>
      registry.alike left right = true)

include formed

theorem negates_iff_of_mem
    {left right : Key} (leftMember : left ∈ operands)
    (rightMember : right ∈ operands) :
    registry.negates left right ↔
      ∃ name, registry.literal? left = some { name, positive := false } ∧
        registry.literal? right = some { name, positive := true } :=
  (formed left leftMember).hasForm.negates_iff
    (formed right rightMember).hasForm

theorem conflicting_iff_contradictory :
    Pairing.Conflicting registry.negates operands ↔
      registry.Contradictory operands := by
  constructor
  · rintro ⟨left, leftMember, right, rightMember, against⟩
    obtain ⟨name, negative, positive⟩ :=
      (negates_iff_of_mem formed leftMember rightMember).mp against
    exact ⟨left, leftMember, right, rightMember, _, negative, positive⟩
  · rintro ⟨first, firstMember, second, secondMember, ⟨name, sign⟩, this, other⟩
    cases sign with
    | true =>
        exact ⟨second, secondMember, first, firstMember,
          (negates_iff_of_mem formed secondMember firstMember).mpr
            ⟨name, other, this⟩⟩
    | false =>
        exact ⟨first, firstMember, second, secondMember,
          (negates_iff_of_mem formed firstMember secondMember).mpr
            ⟨name, this, other⟩⟩

theorem cancelled_eq_complemented
    {operand : Key} (member : operand ∈ operands) :
    Pairing.cancelled registry.negates operands operand =
      registry.complemented operands operand := by
  rw [Bool.eq_iff_iff, Pairing.cancelled_iff, complemented,
    Option.any_eq_true]
  constructor
  · rintro ⟨other, otherMember, against | against⟩
    · obtain ⟨name, negative, positive⟩ :=
        (negates_iff_of_mem formed member otherMember).mp against
      exact ⟨_, negative, List.any_eq_true.mpr
        ⟨other, otherMember, beq_iff_eq.mpr positive⟩⟩
    · obtain ⟨name, negative, positive⟩ :=
        (negates_iff_of_mem formed otherMember member).mp against
      exact ⟨_, positive, List.any_eq_true.mpr
        ⟨other, otherMember, beq_iff_eq.mpr negative⟩⟩
  · rintro ⟨⟨name, sign⟩, this, found⟩
    obtain ⟨other, otherMember, same⟩ := List.any_eq_true.mp found
    rw [beq_iff_eq] at same
    refine ⟨other, otherMember, ?_⟩
    cases sign with
    | true => exact Or.inr <|
        (negates_iff_of_mem formed otherMember member).mpr ⟨name, same, this⟩
    | false => exact Or.inl <|
        (negates_iff_of_mem formed member otherMember).mpr ⟨name, this, same⟩

include equivalence

/-- Opposition and structural equality of the operands fit together, as both are
told by the literals. -/
theorem lawful_of_equivalence :
    Pairing.Lawful
      (fun first second : { operand // operand ∈ operands } =>
        registry.negates first.1 second.1)
      fun first second => registry.alike first.1 second.1 := by
  have forms := fun operand : { operand // operand ∈ operands } =>
    (formed operand.1 operand.2).hasForm
  have literals {first second : { operand // operand ∈ operands }}
      (same : registry.alike first.1 second.1) :
      registry.literal? first.1 = registry.literal? second.1 :=
    (forms first).eq_of_alike (forms second) same
  have opposition (first second : { operand // operand ∈ operands }) :=
    negates_iff_of_mem formed first.2 second.2
  exact {
    refl := equivalence.refl
    symm := equivalence.symm
    trans := equivalence.trans
    left := fun {first second other} same against => by
      rw [opposition, literals same] at against
      exact (opposition second other).mpr against
    right := fun {first second other} same against => by
      rw [opposition, literals same] at against
      exact (opposition other second).mpr against
    unchained := fun {first second third} against chained => by
      obtain ⟨_, _, positive⟩ := (opposition first second).mp against
      obtain ⟨_, negative, _⟩ := (opposition second third).mp chained
      rw [positive] at negative
      simp at negative
    unique := fun {first second other} left right => by
      obtain ⟨name, negative, positive⟩ := (opposition first other).mp left
      obtain ⟨_, alsoNegative, alsoPositive⟩ :=
        (opposition second other).mp right
      rw [positive] at alsoPositive
      obtain rfl := (Literal.mk.inj (Option.some.inj alsoPositive)).1
      exact (negative ▸ forms first).alike_of_eq
        (alsoNegative ▸ forms second) (equivalence.refl first) }

/-- What the comparison of all pairs means for literals and junctions on which
structural equality is an equivalence.  It decides a conjunction exactly if the
operands hold an atom and its negation.  Otherwise the first operand of each class
is left, in order; and so it is for a disjunction, once every literal is dropped
whose complement is among the operands. -/
theorem reduction_of_literals_and_junctions :
    (Pairing.reduce? .conjunction registry.negates registry.alike operands =
        none ↔ registry.Contradictory operands) ∧
    (∀ remaining,
      Pairing.reduce? .conjunction registry.negates registry.alike operands =
          some remaining →
        remaining = Pairing.firsts registry.alike operands) ∧
    Pairing.reduce? .disjunction registry.negates registry.alike operands =
      some (Pairing.firsts registry.alike
        (operands.filter fun operand =>
          !registry.complemented operands operand)) := by
  have lawful := lawful_of_equivalence formed equivalence
  have kept : Pairing.remaining registry.negates registry.alike operands =
      Pairing.firsts registry.alike (operands.filter fun operand =>
        !registry.complemented operands operand) :=
    congrArg _ (List.filter_congr fun operand member => by
      rw [cancelled_eq_complemented formed member])
  have conjunction := Pairing.reduce?_spec_among .conjunction lawful
  rw [conflicting_iff_contradictory formed] at conjunction
  refine ⟨?_, ?_, ?_⟩
  · rcases conjunction with ⟨decided, -, conflict⟩ | ⟨reduced, compatible⟩
    · exact ⟨fun _ => conflict, fun _ => decided⟩
    · rw [reduced]
      exact ⟨nofun, fun conflict => (compatible rfl conflict).elim⟩
  · intro remaining left
    rcases conjunction with ⟨decided, -⟩ | ⟨reduced, compatible⟩
    · rw [decided] at left
      cases left
    · rw [reduced, Pairing.remaining, Pairing.filter_cancelled_eq_self] at left
      · exact (Option.some.inj left).symm
      · rw [conflicting_iff_contradictory formed]
        exact compatible rfl
  · rcases Pairing.reduce?_spec_among .disjunction lawful with
      ⟨-, junction, -⟩ | ⟨reduced, -⟩
    · cases junction
    · rw [reduced, kept]

end Scan

/-- Literals of both signs, each twice, around two conjunctions of the same
operands. -/
theorem reduction_of_repeated_literals :
    let registry := replay
      [.atom "a", .atom "b", .negation ⟨1⟩, .negation ⟨1⟩,
        .junction .conjunction [⟨1⟩, ⟨2⟩], .junction .conjunction [⟨2⟩, ⟨1⟩]]
    let scan := fun connective =>
      Pairing.reduce? connective registry.negates registry.alike
    scan .conjunction [⟨3⟩, ⟨2⟩, ⟨5⟩, ⟨1⟩, ⟨6⟩, ⟨4⟩, ⟨2⟩, ⟨1⟩] = none ∧
      scan .disjunction [⟨3⟩, ⟨2⟩, ⟨5⟩, ⟨1⟩, ⟨6⟩, ⟨4⟩, ⟨2⟩, ⟨1⟩] =
        some [⟨2⟩, ⟨5⟩] ∧
      scan .conjunction [⟨3⟩, ⟨2⟩, ⟨5⟩, ⟨6⟩, ⟨4⟩, ⟨2⟩] =
        some [⟨3⟩, ⟨2⟩, ⟨5⟩] := by
  intro registry scan
  let keys : List Key := [⟨1⟩, ⟨2⟩, ⟨3⟩, ⟨4⟩, ⟨5⟩, ⟨6⟩]
  let first : Key → Key := fun key =>
    if key = ⟨4⟩ then ⟨3⟩ else if key = ⟨6⟩ then ⟨5⟩ else key
  have formed : ∀ key ∈ keys, registry.LiteralOrJunction key := by
    decide +kernel
  have alike_iff : ∀ left ∈ keys, ∀ right ∈ keys,
      (registry.alike left right = true ↔ first left = first right) := by
    decide +kernel
  have equivalence {operands : List Key} (among : operands ⊆ keys) :
      Equivalence fun left right : { operand // operand ∈ operands } =>
        registry.alike left right = true := by
    have classes (left right : { operand // operand ∈ operands }) :=
      alike_iff left.1 (among left.2) right.1 (among right.2)
    exact {
      refl := fun operand => (classes operand operand).mpr rfl
      symm := fun same =>
        (classes _ _).mpr ((classes _ _).mp same).symm
      trans := fun same next =>
        (classes _ _).mpr (((classes _ _).mp same).trans
          ((classes _ _).mp next)) }
  have mixed : [⟨3⟩, ⟨2⟩, ⟨5⟩, ⟨1⟩, ⟨6⟩, ⟨4⟩, ⟨2⟩, ⟨1⟩] ⊆ keys := by decide
  have compatible : [⟨3⟩, ⟨2⟩, ⟨5⟩, ⟨6⟩, ⟨4⟩, ⟨2⟩] ⊆ keys := by decide
  obtain ⟨decided, -, left⟩ := reduction_of_literals_and_junctions
    (fun key member => formed key (mixed member)) (equivalence mixed)
  obtain ⟨undecided, order, -⟩ := reduction_of_literals_and_junctions
    (fun key member => formed key (compatible member))
    (equivalence compatible)
  obtain ⟨remaining, kept⟩ := Option.ne_none_iff_exists'.mp
    (undecided.not.mpr (by unfold Contradictory; decide +kernel))
  exact ⟨decided.mpr ⟨⟨1⟩, by decide, ⟨3⟩, by decide, ⟨0, true⟩,
      by decide +kernel, by decide +kernel⟩, left.trans (by decide +kernel),
    kept.trans (congrArg some ((order remaining kept).trans
      (by decide +kernel)))⟩

end Operands

end Registry

end NamedLogic
