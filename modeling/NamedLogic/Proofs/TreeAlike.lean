import NamedLogic.Proofs.PairRemainders
import NamedLogic.Proofs.Trees

/-!
# Structural equality of trees

Structural equality compares junctions as collections of equally many operands,
each operand of the first with some operand of the second.  It is transitive on
all trees, and reflexive on those written out in full.  Where no junction has
two operands alike, as in normal trees, it is also symmetric, since the operands
are then matched one to one.
-/

namespace NamedLogic

namespace Tree

/-! ## Structural equality -/

mutual

/-- Whether two trees without generated formulas are alike. -/
def alike : Tree → Tree → Bool
  | atom first, atom second => first == second
  | unresolved _, unresolved _ => true
  | unresolved _, absent => true
  | absent, unresolved _ => true
  | absent, absent => true
  | negation first, negation second => first.alike second
  | junction leftConnective firsts, junction rightConnective seconds =>
      leftConnective == rightConnective &&
        firsts.length == seconds.length && allAlike firsts seconds
  | implication firstAntecedent firstConsequent,
      implication secondAntecedent secondConsequent =>
      firstAntecedent.alike secondAntecedent &&
        firstConsequent.alike secondConsequent
  | _, _ => false

/-- Whether every tree of the first list is like some tree of the second. -/
def allAlike : List Tree → List Tree → Bool
  | [], _ => true
  | first :: firsts, seconds =>
      (seconds.any fun second => first.alike second) &&
        allAlike firsts seconds

end

attribute [grind =] alike

theorem allAlike_iff {firsts seconds : List Tree} :
    allAlike firsts seconds ↔
      ∀ first ∈ firsts, ∃ second ∈ seconds, first.alike second := by
  induction firsts with
  | nil => simp [allAlike]
  | cons first firsts inductionHypothesis =>
      simp [allAlike, inductionHypothesis]

/-! ### What a tree is like -/

theorem atom_alike_iff {string : String} {other : Tree} :
    (atom string).alike other ↔ other = atom string := by
  cases other with
  | atom inner =>
      simp only [alike, beq_iff_eq, atom.injEq]
      exact eq_comm
  | _ => simp [alike]

theorem negation_alike_iff {operand other : Tree} :
    (negation operand).alike other ↔
      ∃ inner, other = negation inner ∧ operand.alike inner := by
  cases other <;> simp [alike]

theorem junction_alike_iff
    {connective : Connective} {operands : List Tree} {other : Tree} :
    (junction connective operands).alike other ↔
      ∃ others, other = junction connective others ∧
        operands.length = others.length ∧
          ∀ first ∈ operands, ∃ second ∈ others, first.alike second := by
  cases other with
  | junction inner others =>
      simp only [alike, Bool.and_eq_true, beq_iff_eq, allAlike_iff,
        junction.injEq]
      constructor
      · rintro ⟨⟨same, sameLength⟩, matched⟩
        exact ⟨others, ⟨same.symm, rfl⟩, sameLength, matched⟩
      · rintro ⟨_, ⟨same, rfl⟩, sameLength, matched⟩
        exact ⟨⟨same.symm, sameLength⟩, matched⟩
  | _ => simp [alike]

theorem implication_alike_iff {antecedent consequent other : Tree} :
    (implication antecedent consequent).alike other ↔
      ∃ premise conclusion, other = implication premise conclusion ∧
        antecedent.alike premise ∧ consequent.alike conclusion := by
  cases other <;> simp [alike]

theorem alike_trans
    {first second third : Tree}
    (left : first.alike second) (right : second.alike third) :
    first.alike third := by
  induction first using Tree.inductionOn generalizing second third with
  | atom string =>
      obtain rfl := atom_alike_iff.mp left
      exact right
  | unresolved | absent =>
      cases second <;> cases third <;> grind
  | generated | beyond => simp [alike] at left
  | negation operand inductionHypothesis =>
      obtain ⟨_, rfl, toMiddle⟩ := negation_alike_iff.mp left
      obtain ⟨_, rfl, toLast⟩ := negation_alike_iff.mp right
      exact negation_alike_iff.mpr
        ⟨_, rfl, inductionHypothesis toMiddle toLast⟩
  | junction connective operands inductionHypothesis =>
      obtain ⟨_, rfl, firstLength, firstMatch⟩ := junction_alike_iff.mp left
      obtain ⟨_, rfl, secondLength, secondMatch⟩ :=
        junction_alike_iff.mp right
      refine junction_alike_iff.mpr
        ⟨_, rfl, firstLength.trans secondLength, fun operand member => ?_⟩
      obtain ⟨middle, present, toMiddle⟩ := firstMatch operand member
      obtain ⟨last, lastMember, toLast⟩ := secondMatch middle present
      exact ⟨last, lastMember,
        inductionHypothesis operand member toMiddle toLast⟩
  | implication antecedent consequent premise conclusion =>
      obtain ⟨_, _, rfl, leftPremise, leftConclusion⟩ :=
        implication_alike_iff.mp left
      obtain ⟨_, _, rfl, rightPremise, rightConclusion⟩ :=
        implication_alike_iff.mp right
      exact implication_alike_iff.mpr ⟨_, _, rfl,
        premise leftPremise rightPremise,
        conclusion leftConclusion rightConclusion⟩

/-! ## Trees that are like themselves -/

/-- A tree without generated formulas that is not cut off below. -/
def Explicit (tree : Tree) : Prop :=
  tree.Every fun
    | generated _ | beyond => False
    | _ => True

theorem explicit_junction_iff
    {connective : Connective} {operands : List Tree} :
    (junction connective operands).Explicit ↔
      ∀ operand ∈ operands, operand.Explicit := by
  simp [Explicit, every_junction_iff]

theorem Explicit.alike_refl
    {tree : Tree} (explicit : tree.Explicit) : tree.alike tree := by
  induction tree using Tree.inductionOn with
  | atom string => exact atom_alike_iff.mpr rfl
  | unresolved | absent => rfl
  | generated => exact explicit.1.elim
  | beyond => exact explicit.elim
  | negation operand inductionHypothesis =>
      exact negation_alike_iff.mpr
        ⟨operand, rfl, inductionHypothesis explicit.2⟩
  | junction connective operands inductionHypothesis =>
      have parts := explicit_junction_iff.mp explicit
      exact junction_alike_iff.mpr ⟨_, rfl, rfl,
        fun operand member => ⟨operand, member,
          inductionHypothesis operand member (parts operand member)⟩⟩
  | implication antecedent consequent premise conclusion =>
      exact implication_alike_iff.mpr
        ⟨_, _, rfl, premise explicit.2.1, conclusion explicit.2.2⟩

/-- Only explicit trees are like anything. -/
theorem explicit_of_alike
    {tree other : Tree} (same : tree.alike other) : tree.Explicit := by
  induction tree using Tree.inductionOn generalizing other with
  | atom | unresolved | absent => exact trivial
  | generated | beyond => simp [alike] at same
  | negation operand inductionHypothesis =>
      obtain ⟨_, rfl, inner⟩ := negation_alike_iff.mp same
      exact ⟨trivial, inductionHypothesis inner⟩
  | junction connective operands inductionHypothesis =>
      obtain ⟨_, rfl, _, matched⟩ := junction_alike_iff.mp same
      refine explicit_junction_iff.mpr fun operand member => ?_
      obtain ⟨_, _, toSecond⟩ := matched operand member
      exact inductionHypothesis operand member toSecond
  | implication antecedent consequent premise conclusion =>
      obtain ⟨_, _, rfl, left, right⟩ := implication_alike_iff.mp same
      exact ⟨trivial, premise left, conclusion right⟩

/-! ## Trees with distinct operands -/

/-- A tree in which no operand of a junction is like a later one. -/
def Distinct (tree : Tree) : Prop :=
  tree.Every fun
    | junction _ operands =>
        operands.Pairwise fun first second => ¬ first.alike second
    | _ => True

theorem distinct_junction_iff
    {connective : Connective} {operands : List Tree} :
    (junction connective operands).Distinct ↔
      (operands.Pairwise fun first second => ¬ first.alike second) ∧
        ∀ operand ∈ operands, operand.Distinct :=
  every_junction_iff

/-- If each of at least as many trees is like some tree of a list, and no two
of them like the same one, then every tree of the list has one like it. -/
theorem exists_alike_of_distinct
    {firsts seconds : List Tree}
    (enough : seconds.length ≤ firsts.length)
    (matched : ∀ first ∈ firsts, ∃ second ∈ seconds, first.alike second)
    (distinct : firsts.Pairwise fun first other =>
      ∀ second, first.alike second → ¬ other.alike second) :
    ∀ second ∈ seconds, ∃ first ∈ firsts, first.alike second := by
  induction firsts generalizing seconds with
  | nil =>
      intro second member
      rw [List.length_nil, Nat.le_zero, List.length_eq_zero_iff] at enough
      subst enough
      cases member
  | cons head firsts inductionHypothesis =>
      obtain ⟨apart, rest⟩ := List.pairwise_cons.mp distinct
      obtain ⟨image, present, toImage⟩ := matched head List.mem_cons_self
      obtain ⟨front, back, rfl⟩ := List.append_of_mem present
      -- The image of the head is like no other of the first trees.
      have remaining : ∀ first ∈ firsts,
          ∃ second ∈ front ++ back, first.alike second := by
        intro first member
        obtain ⟨second, among, toSecond⟩ :=
          matched first (List.mem_cons_of_mem _ member)
        refine ⟨second, ?_, toSecond⟩
        rcases List.mem_append.mp among with before | after
        · exact List.mem_append_left _ before
        · rcases List.mem_cons.mp after with rfl | later
          · exact (apart first member second toImage toSecond).elim
          · exact List.mem_append_right _ later
      have fewer : (front ++ back).length ≤ firsts.length := by
        simp only [List.length_append, List.length_cons] at enough ⊢
        omega
      intro second member
      by_cases isImage : second = image
      · exact ⟨head, List.mem_cons_self, isImage ▸ toImage⟩
      · have among : second ∈ front ++ back := by
          simpa [isImage] using member
        obtain ⟨first, firstMember, toSecond⟩ :=
          inductionHypothesis fewer remaining rest second among
        exact ⟨first, List.mem_cons_of_mem _ firstMember, toSecond⟩

/-- No two of several distinct operands are like the same tree. -/
theorem pairwise_apart
    {operands : List Tree}
    (distinct : operands.Pairwise fun first second => ¬ first.alike second)
    (symm : ∀ operand ∈ operands, ∀ {other}, operand.alike other →
      other.alike operand) :
    operands.Pairwise fun first other =>
      ∀ second, first.alike second → ¬ other.alike second := by
  refine distinct.imp_of_mem ?_
  intro first other _ otherMember apart second toSecond fromOther
  exact apart (alike_trans toSecond (symm other otherMember fromOther))

/-- Distinct operands are matched one to one. -/
theorem exists_alike_of_pairwise
    {operands others : List Tree}
    (distinct : operands.Pairwise fun first second => ¬ first.alike second)
    (symm : ∀ operand ∈ operands, ∀ {other}, operand.alike other →
      other.alike operand)
    (sameLength : operands.length = others.length)
    (matched : ∀ first ∈ operands, ∃ second ∈ others, first.alike second) :
    ∀ second ∈ others, ∃ first ∈ operands, first.alike second :=
  exists_alike_of_distinct (Nat.le_of_eq sameLength.symm) matched
    (pairwise_apart distinct symm)

theorem Distinct.alike_symm
    {tree other : Tree} (distinct : tree.Distinct)
    (same : tree.alike other) : other.alike tree := by
  induction tree using Tree.inductionOn generalizing other with
  | atom string =>
      obtain rfl := atom_alike_iff.mp same
      exact same
  | unresolved | absent => cases other <;> grind
  | generated | beyond => simp [alike] at same
  | negation operand inductionHypothesis =>
      obtain ⟨_, rfl, inner⟩ := negation_alike_iff.mp same
      exact negation_alike_iff.mpr
        ⟨_, rfl, inductionHypothesis distinct.2 inner⟩
  | junction connective operands inductionHypothesis =>
      obtain ⟨apart, parts⟩ := distinct_junction_iff.mp distinct
      have symm : ∀ operand ∈ operands, ∀ {other : Tree},
          operand.alike other → other.alike operand :=
        fun operand member => inductionHypothesis operand member
          (parts operand member)
      obtain ⟨others, rfl, sameLength, matched⟩ :=
        junction_alike_iff.mp same
      refine junction_alike_iff.mpr ⟨_, rfl, sameLength.symm, ?_⟩
      intro second member
      obtain ⟨first, present, toSecond⟩ :=
        exists_alike_of_pairwise apart symm sameLength matched second member
      exact ⟨first, present, symm first present toSecond⟩
  | implication antecedent consequent premise conclusion =>
      obtain ⟨_, _, rfl, left, right⟩ := implication_alike_iff.mp same
      exact implication_alike_iff.mpr ⟨_, _, rfl,
        premise distinct.2.1 left, conclusion distinct.2.2 right⟩

/-- A function that agrees on trees that are alike takes the same values on the
operands of two junctions that are alike. -/
theorem Distinct.mem_map_iff
    {connective : Connective} {operands others : List Tree}
    (distinct : (junction connective operands).Distinct)
    (same : (junction connective operands).alike (junction connective others))
    {β : Type} {value : Tree → β}
    (agrees : ∀ operand ∈ operands, ∀ {other}, operand.alike other →
      value operand = value other) (result : β) :
    result ∈ operands.map value ↔ result ∈ others.map value := by
  obtain ⟨apart, parts⟩ := distinct_junction_iff.mp distinct
  obtain ⟨_, ⟨⟩, sameLength, matched⟩ := junction_alike_iff.mp same
  have covered := exists_alike_of_pairwise apart
    (fun operand member => (parts operand member).alike_symm)
    sameLength matched
  simp only [List.mem_map]
  constructor
  · rintro ⟨first, member, rfl⟩
    obtain ⟨second, present, toSecond⟩ := matched first member
    exact ⟨second, present, (agrees first member toSecond).symm⟩
  · rintro ⟨second, member, rfl⟩
    obtain ⟨first, present, toSecond⟩ := covered second member
    exact ⟨first, present, agrees first present toSecond⟩

/-- A tree with distinct operands is true in the same states as any tree it is
like. -/
theorem Distinct.holds_eq_of_alike
    {tree other : Tree} (distinct : tree.Distinct)
    (same : tree.alike other) (state : String → Bool) :
    tree.holds state = other.holds state := by
  induction tree using Tree.inductionOn generalizing other with
  | atom string => rw [atom_alike_iff.mp same]
  | unresolved | absent =>
      cases other <;> first | rfl | simp [alike] at same
  | generated | beyond => simp [alike] at same
  | negation operand inductionHypothesis =>
      obtain ⟨_, rfl, inner⟩ := negation_alike_iff.mp same
      rw [holds, holds, inductionHypothesis distinct.2 inner]
  | junction connective operands inductionHypothesis =>
      obtain ⟨_, parts⟩ := distinct_junction_iff.mp distinct
      obtain ⟨others, rfl, _⟩ := junction_alike_iff.mp same
      rw [holds_junction, holds_junction]
      exact joined_eq_of_mem_iff (distinct.mem_map_iff same
        fun operand member => inductionHypothesis operand member
          (parts operand member))
  | implication antecedent consequent premise conclusion =>
      obtain ⟨_, _, rfl, left, right⟩ := implication_alike_iff.mp same
      rw [holds, holds, premise distinct.2.1 left,
        conclusion distinct.2.2 right]

/-! ## Normal trees -/

/-- Whether a tree is a junction of the given connective. -/
def joins (connective : Connective) : Tree → Bool
  | junction inner _ => inner == connective
  | _ => false

/-- Whether a tree is the negation of something like the other tree. -/
def opposed : Tree → Tree → Bool
  | negation operand, other => operand.alike other
  | _, _ => false

/-- The operands of a normal junction.  There are at least two, none is a
junction of the same kind, and no two are alike or opposed. -/
structure Irreducible
    (connective : Connective) (operands : List Tree) : Prop where
  several : 2 ≤ operands.length
  flat : ∀ operand ∈ operands, operand.joins connective = false
  distinct : operands.Pairwise fun first second => ¬ first.alike second
  compatible : ¬ Pairing.Conflicting opposed operands

/-- A normal tree is an atom, a negated atom, or an irreducible junction of
normal trees. -/
inductive Normal : Tree → Prop where
  | positive (string : String) : Normal (atom string)
  | negative (string : String) : Normal (negation (atom string))
  | joined
      {connective : Connective} {operands : List Tree}
      (irreducible : Irreducible connective operands)
      (parts : ∀ operand ∈ operands, Normal operand) :
      Normal (junction connective operands)

/-- The operands of a normal junction. -/
theorem Normal.parts
    {connective : Connective} {operands : List Tree}
    (normal : (junction connective operands).Normal) :
    Irreducible connective operands ∧
      ∀ operand ∈ operands, operand.Normal := by
  cases normal with
  | joined irreducible parts => exact ⟨irreducible, parts⟩

/-! ## Structural equality of normal trees -/

theorem Normal.explicit {tree : Tree} (normal : tree.Normal) :
    tree.Explicit := by
  induction normal with
  | positive => exact trivial
  | negative => exact ⟨trivial, trivial⟩
  | joined _ _ inductionHypothesis =>
      exact explicit_junction_iff.mpr inductionHypothesis

theorem Normal.distinct {tree : Tree} (normal : tree.Normal) :
    tree.Distinct := by
  induction normal with
  | positive => exact trivial
  | negative => exact ⟨trivial, trivial⟩
  | joined irreducible _ inductionHypothesis =>
      exact distinct_junction_iff.mpr
        ⟨irreducible.distinct, inductionHypothesis⟩

theorem Normal.alike_refl {tree : Tree} (normal : tree.Normal) :
    tree.alike tree :=
  normal.explicit.alike_refl

theorem Normal.alike_symm
    {tree other : Tree} (normal : tree.Normal) (same : tree.alike other) :
    other.alike tree :=
  normal.distinct.alike_symm same

/-- A normal tree is true in the same states as any tree it is like. -/
theorem Normal.holds_eq_of_alike
    {tree other : Tree} (normal : tree.Normal) (same : tree.alike other)
    (state : String → Bool) :
    tree.holds state = other.holds state :=
  normal.distinct.holds_eq_of_alike same state

end Tree

end NamedLogic
