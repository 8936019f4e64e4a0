import NamedLogic.Proofs.Persistence
import NamedLogic.Proofs.ReachedParts
import NamedLogic.Proofs.UnfoldingLevels

/-!
# Comparisons that tell a lack of levels apart

A comparison that runs out of levels answers that the formulas differ, so its
answer alone does not tell whether it saw all of them.  Here a comparison is a
traversal that is refused in this case.  It looks at the heads of two nodes and
leaves their parts to another comparison, so that whatever relates two
comparisons of parts relates the comparisons of wholes.
-/

namespace NamedLogic

namespace Traversed

/-- The second answer is asked for only if the first is positive. -/
def both (first second : Traversed Bool) : Traversed Bool := do
  if ← first then second else pure false

/-- The second answer is asked for only if the first is negative. -/
def either (first second : Traversed Bool) : Traversed Bool := do
  if ← first then pure true else second

theorem both_ok (first second : Bool) :
    both (.ok first) (.ok second) = .ok (first && second) := by
  cases first <;> rfl

theorem allM_ok {α : Type} (test : α → Bool) (items : List α) :
    (items.allM fun item => (.ok (test item) : Traversed Bool)) =
      .ok (items.all test) :=
  List.allM_pure

theorem anyM_ok {α : Type} (test : α → Bool) (items : List α) :
    (items.anyM fun item => (.ok (test item) : Traversed Bool)) =
      .ok (items.any test) :=
  List.anyM_pure

theorem both_eq_ok_iff {first second : Traversed Bool} {answer : Bool} :
    first.both second = .ok answer ↔
      first = .ok true ∧ second = .ok answer ∨
        first = .ok false ∧ answer = false := by
  rcases first with _ | _ | _ <;> simp [both, bind, Except.bind, pure,
    Except.pure, eq_comm]

theorem either_eq_ok_iff {first second : Traversed Bool} {answer : Bool} :
    first.either second = .ok answer ↔
      first = .ok false ∧ second = .ok answer ∨
        first = .ok true ∧ answer = true := by
  rcases first with _ | _ | _ <;> simp [either, bind, Except.bind, pure,
    Except.pure, eq_comm]

theorem allM_cons
    {α : Type} (test : α → Traversed Bool) (item : α) (items : List α) :
    (item :: items).allM test = both (test item) (items.allM test) :=
  List.allM_cons

theorem anyM_cons
    {α : Type} (test : α → Traversed Bool) (item : α) (items : List α) :
    (item :: items).anyM test = either (test item) (items.anyM test) :=
  List.anyM_cons

/-! ## Relations kept by sequences of questions -/

/-- A relation of traversals that holds of equal answers and is kept by asking
one question after another. -/
structure Respected
    (related : Traversed Bool → Traversed Bool → Prop) : Prop where
  answer (result : Bool) : related (.ok result) (.ok result)
  both {first second otherFirst otherSecond : Traversed Bool}
    (left : related first otherFirst) (right : related second otherSecond) :
    related (first.both second) (otherFirst.both otherSecond)
  either {first second otherFirst otherSecond : Traversed Bool}
    (left : related first otherFirst) (right : related second otherSecond) :
    related (first.either second) (otherFirst.either otherSecond)

section Lists

variable {α : Type} {related : Traversed Bool → Traversed Bool → Prop}
  {test other : α → Traversed Bool} {items : List α}

theorem Respected.allM
    (respected : Respected related)
    (pointwise : ∀ item ∈ items, related (test item) (other item)) :
    related (items.allM test) (items.allM other) := by
  induction items with
  | nil => exact respected.answer true
  | cons item items inductionHypothesis =>
      rw [allM_cons, allM_cons]
      exact respected.both (pointwise item List.mem_cons_self)
        (inductionHypothesis fun later member =>
          pointwise later (List.mem_cons_of_mem _ member))

theorem Respected.anyM
    (respected : Respected related)
    (pointwise : ∀ item ∈ items, related (test item) (other item)) :
    related (items.anyM test) (items.anyM other) := by
  induction items with
  | nil => exact respected.answer false
  | cons item items inductionHypothesis =>
      rw [anyM_cons, anyM_cons]
      exact respected.either (pointwise item List.mem_cons_self)
        (inductionHypothesis fun later member =>
          pointwise later (List.mem_cons_of_mem _ member))

end Lists

/-- Whatever the first traversal answers, the second answers as well. -/
def Refines (first second : Traversed Bool) : Prop :=
  ∀ answer, first = .ok answer → second = .ok answer

/-- The second traversal does not deny what the first affirms. -/
def Supports (first second : Traversed Bool) : Prop :=
  ∀ answer, first = .ok true → second = .ok answer → answer = true

theorem respected_refines : Respected Refines where
  answer _ _ answered := answered
  both left right answer answered := by
    rcases both_eq_ok_iff.mp answered with
      ⟨affirmed, rest⟩ | ⟨denied, negative⟩
    · exact both_eq_ok_iff.mpr (.inl ⟨left _ affirmed, right _ rest⟩)
    · exact both_eq_ok_iff.mpr (.inr ⟨left _ denied, negative⟩)
  either left right answer answered := by
    rcases either_eq_ok_iff.mp answered with
      ⟨denied, rest⟩ | ⟨affirmed, positive⟩
    · exact either_eq_ok_iff.mpr (.inl ⟨left _ denied, right _ rest⟩)
    · exact either_eq_ok_iff.mpr (.inr ⟨left _ affirmed, positive⟩)

theorem respected_supports : Respected Supports where
  answer result answer affirmed answered := by
    rw [affirmed] at answered
    exact (Except.ok.inj answered).symm
  both left right answer affirmed answered := by
    obtain ⟨first, second⟩ | ⟨_, impossible⟩ := both_eq_ok_iff.mp affirmed
    · rcases both_eq_ok_iff.mp answered with ⟨_, rest⟩ | ⟨denied, _⟩
      · exact right _ second rest
      · cases left _ first denied
    · cases impossible
  either left right answer affirmed answered := by
    rcases either_eq_ok_iff.mp answered with ⟨denied, rest⟩ | ⟨_, positive⟩
    · obtain ⟨_, second⟩ | ⟨first, _⟩ := either_eq_ok_iff.mp affirmed
      · exact right _ second rest
      · cases left _ first denied
    · exact positive

end Traversed

namespace Registry

/-! ## Comparing the heads of two nodes -/

/-- Compare the formulas two sides stand for.  Sides that stand for nothing
are alike. -/
def compareSides
    (registry : Registry) (compare : Node → Node → Traversed Bool)
    (first second : Option Name) : Traversed Bool :=
  match first.bind registry.referent?, second.bind registry.referent? with
  | some first, some second => compare first second
  | none, none => .ok true
  | _, _ => .ok false

/-- Compare the formula recorded for a disjunctive normal form.  Nothing is like
one without a formula. -/
def compareRecorded
    (registry : Registry) (compare : Node → Traversed Bool)
    (recorded : Option Key) : Traversed Bool :=
  match recorded.bind registry.node? with
  | some formula => compare formula
  | none => .ok false

/-- Compare two nodes by their heads, and their parts by the given
comparison. -/
def compareHeads
    (registry : Registry) (compare : Node → Node → Traversed Bool)
    (left right : Node) : Traversed Bool :=
  match left.body, right.body with
  | .dnf _ _ recorded, _ =>
      registry.compareRecorded (fun formula => compare formula right) recorded
  | _, .dnf _ _ recorded =>
      registry.compareRecorded (compare left) recorded
  | .atom, .atom => .ok (left.name == right.name)
  | .negation first, .negation second =>
      registry.compareSides compare (some first) (some second)
  | .junction leftConnective firsts, .junction rightConnective seconds =>
      Traversed.both
        (.ok (leftConnective == rightConnective &&
          firsts.length == seconds.length))
        (firsts.allM fun first => seconds.anyM fun second =>
          registry.compareSides compare (some first) (some second))
  | .implication firstAntecedent firstConsequent,
      .implication secondAntecedent secondConsequent =>
      Traversed.both
        (registry.compareSides compare firstAntecedent secondAntecedent)
        (registry.compareSides compare firstConsequent secondConsequent)
  | _, _ => .ok false

/-- Compare two nodes, descending through at most the given number of levels.
The comparison is refused where no level is left. -/
def compareNodes (registry : Registry) :
    (levels : Nat) → Node → Node → Traversed Bool
  | 0, _, _ => .error .depthExceeded
  | levels + 1, left, right =>
      registry.compareHeads (registry.compareNodes levels) left right

/-- Compare the formulas stored under two keys. -/
def comparison (registry : Registry) (left right : Key) : Traversed Bool :=
  match registry.node? left, registry.node? right with
  | some left, some right =>
      registry.compareNodes (registry.levels 0) left right
  | none, none => .ok true
  | _, _ => .ok false

section Comparison

variable {registry : Registry}

theorem comparison_of_node?
    {left right : Key} {leftNode rightNode : Node}
    (leftStored : registry.node? left = some leftNode)
    (rightStored : registry.node? right = some rightNode) :
    registry.comparison left right =
      registry.compareNodes (registry.levels 0) leftNode rightNode := by
  simp only [comparison, leftStored, rightStored]

theorem alike_of_node?
    {left right : Key} {leftNode rightNode : Node}
    (leftStored : registry.node? left = some leftNode)
    (rightStored : registry.node? right = some rightNode) :
    registry.alike left right =
      registry.nodesAlike (registry.levels 0) leftNode rightNode := by
  simp only [alike, leftStored, rightStored]

/-- A node itself, or what one step of a traversal leads to. -/
def Nears (registry : Registry) (node part : Node) : Prop :=
  part = node ∨ registry.Descends node part

theorem descends_of_bind
    {node part : Node} {side : Option Name}
    (named : ∀ name ∈ side, name ∈ node.lookups)
    (stands : side.bind registry.referent? = some part) :
    registry.Descends node part := by
  obtain ⟨name, present, referent⟩ := Option.bind_eq_some_iff.mp stands
  exact .operand (named name present) referent

/-- Comparisons of sides are related as those of what they stand for. -/
theorem compareSides_related
    {related : Traversed Bool → Traversed Bool → Prop}
    (respected : Traversed.Respected related)
    {compare other : Node → Node → Traversed Bool}
    {first second : Option Name}
    (parts : ∀ left right, first.bind registry.referent? = some left →
      second.bind registry.referent? = some right →
        related (compare left right) (other left right)) :
    related (registry.compareSides compare first second)
      (registry.compareSides other first second) := by
  rw [compareSides, compareSides]
  cases firstStands : first.bind registry.referent? with
  | none =>
      cases second.bind registry.referent? with
      | none => exact respected.answer true
      | some => exact respected.answer false
  | some left =>
      cases secondStands : second.bind registry.referent? with
      | none => exact respected.answer false
      | some right => exact parts left right firstStands secondStands

/-- Comparisons of recorded formulas are related as those of the formulas
are. -/
theorem compareRecorded_related
    {related : Traversed Bool → Traversed Bool → Prop}
    (respected : Traversed.Respected related)
    {compare other : Node → Traversed Bool} {node : Node}
    (parts : ∀ formula, registry.Nears node formula →
      related (compare formula) (other formula))
    {atoms : List Name} {rows : UInt64} {recorded : Option Key}
    (body : node.body = .dnf atoms rows recorded) :
    related (registry.compareRecorded compare recorded)
      (registry.compareRecorded other recorded) := by
  rw [compareRecorded, compareRecorded]
  cases found : recorded.bind registry.node? with
  | none => exact respected.answer false
  | some formula =>
      obtain ⟨key, rfl, stored⟩ := Option.bind_eq_some_iff.mp found
      exact parts formula (.inr (.generated body stored))

/-- Comparisons of wholes are related as those of their parts are. -/
theorem compareHeads_related
    {related : Traversed Bool → Traversed Bool → Prop}
    (respected : Traversed.Respected related)
    {compare other : Node → Node → Traversed Bool} {left right : Node}
    (parts : ∀ first second, registry.Nears left first →
      registry.Nears right second →
        related (compare first second) (other first second)) :
    related (registry.compareHeads compare left right)
      (registry.compareHeads other left right) := by
  have sides : ∀ first second : Option Name,
      (∀ name ∈ first, name ∈ left.lookups) →
      (∀ name ∈ second, name ∈ right.lookups) →
        related (registry.compareSides compare first second)
          (registry.compareSides other first second) :=
    fun _ _ firstNamed secondNamed => compareSides_related respected
      fun first second firstStands secondStands => parts first second
        (.inr (descends_of_bind firstNamed firstStands))
        (.inr (descends_of_bind secondNamed secondStands))
  unfold compareHeads
  split
  · next leftBody =>
      exact compareRecorded_related respected
        (fun formula near => parts formula right near (.inl rfl)) leftBody
  · next rightBody _ =>
      exact compareRecorded_related respected
        (fun formula near => parts left formula (.inl rfl) near) rightBody
  · exact respected.answer _
  · next first second leftBody rightBody =>
      refine sides (some first) (some second) ?_ ?_
      · rintro _ ⟨⟩
        exact Node.mem_lookups_of_negation leftBody
      · rintro _ ⟨⟩
        exact Node.mem_lookups_of_negation rightBody
  · next leftBody rightBody =>
      refine respected.both (respected.answer _)
        (respected.allM fun first member =>
          respected.anyM fun second present =>
            sides (some first) (some second) ?_ ?_)
      · rintro _ ⟨⟩
        exact Node.mem_lookups_of_junction leftBody member
      · rintro _ ⟨⟩
        exact Node.mem_lookups_of_junction rightBody present
  · next leftBody rightBody =>
      obtain ⟨leftFirst, leftSecond⟩ :=
        Node.mem_lookups_of_implication leftBody
      obtain ⟨rightFirst, rightSecond⟩ :=
        Node.mem_lookups_of_implication rightBody
      exact respected.both (sides _ _ leftFirst rightFirst)
        (sides _ _ leftSecond rightSecond)
  · exact respected.answer false

/-! ## More levels -/

/-- What a comparison answers, it answers with more levels. -/
theorem compareNodes_refines_succ (levels : Nat) (left right : Node) :
    Traversed.Refines (registry.compareNodes levels left right)
      (registry.compareNodes (levels + 1) left right) := by
  induction levels generalizing left right with
  | zero =>
      intro answer answered
      cases answered
  | succ levels inductionHypothesis =>
      exact compareHeads_related Traversed.respected_refines
        fun first second _ _ => inductionHypothesis first second

theorem compareNodes_eq_ok_of_le
    {small large : Nat} {left right : Node} {answer : Bool}
    (answered : registry.compareNodes small left right = .ok answer)
    (more : small ≤ large) :
    registry.compareNodes large left right = .ok answer := by
  induction more with
  | refl => exact answered
  | step _ inductionHypothesis =>
      exact compareNodes_refines_succ _ left right answer
        inductionHypothesis

/-! ## Structural equality -/

theorem compareSides_ok
    (compare : Node → Node → Bool) (first second : Option Name) :
    registry.compareSides (fun left right => .ok (compare left right))
        first second =
      .ok (match first.bind registry.referent?,
          second.bind registry.referent? with
        | some first, some second => compare first second
        | none, none => true
        | _, _ => false) := by
  rw [compareSides]
  split <;> rfl

theorem compareRecorded_ok
    (compare : Node → Bool) (recorded : Option Key) :
    registry.compareRecorded (fun formula => .ok (compare formula))
        recorded =
      .ok (match recorded.bind registry.node? with
        | some formula => compare formula
        | none => false) := by
  rw [compareRecorded]
  split <;> rfl

/-- Structural equality compares heads like any comparison, and is never
refused. -/
theorem compareHeads_nodesAlike (levels : Nat) (left right : Node) :
    registry.compareHeads
        (fun first second => .ok (registry.nodesAlike levels first second))
        left right =
      .ok (registry.nodesAlike (levels + 1) left right) := by
  have sides : ∀ first second, registry.compareSides
      (fun left right => .ok (registry.nodesAlike levels left right))
        first second = .ok (registry.sidesAlike levels first second) :=
    compareSides_ok (registry.nodesAlike levels)
  rw [nodesAlike_succ, compareHeads]
  cases left.body <;> cases right.body
  case negation.negation => exact sides _ _
  case junction.junction =>
    simp only [sides, Traversed.anyM_ok, Traversed.allM_ok,
      Traversed.both_ok]
  case implication.implication => simp only [sides, Traversed.both_ok]
  all_goals first
    | rfl
    | exact compareRecorded_ok _ _

/-- What a comparison answers is what structural equality says. -/
theorem compareNodes_refines_nodesAlike
    (levels : Nat) (left right : Node) :
    Traversed.Refines (registry.compareNodes levels left right)
      (.ok (registry.nodesAlike levels left right)) := by
  induction levels generalizing left right with
  | zero =>
      intro answer answered
      cases answered
  | succ levels inductionHypothesis =>
      rw [← compareHeads_nodesAlike]
      exact compareHeads_related Traversed.respected_refines
        fun first second _ _ => inductionHypothesis first second

theorem nodesAlike_eq_of_compareNodes
    {levels : Nat} {left right : Node} {answer : Bool}
    (answered : registry.compareNodes levels left right = .ok answer) :
    registry.nodesAlike levels left right = answer :=
  Except.ok.inj (compareNodes_refines_nodesAlike levels left right answer
    answered)

end Comparison

/-! ## Comparisons that see whole formulas -/

/-- A set of nodes that contains the parts of its nodes, and on which a test
agrees with comparing heads and testing parts. -/
structure Consistent
    (registry : Registry) (nodes : Set Node) (test : Node → Node → Bool) :
    Prop where
  parts : ∀ node ∈ nodes, ∀ part, registry.Descends node part → part ∈ nodes
  heads : ∀ left ∈ nodes, ∀ right ∈ nodes,
    registry.compareHeads (fun first second => .ok (test first second))
      left right = .ok (test left right)

namespace Consistent

variable {registry : Registry} {nodes : Set Node} {test : Node → Node → Bool}

theorem nears
    (consistent : registry.Consistent nodes test) {node part : Node}
    (member : node ∈ nodes) (near : registry.Nears node part) :
    part ∈ nodes := by
  obtain rfl | step := near
  · exact member
  · exact consistent.parts node member part step

/-- A comparison that is not refused answers like the test. -/
theorem compareNodes_refines
    (consistent : registry.Consistent nodes test) (levels : Nat)
    {left right : Node} (leftMember : left ∈ nodes)
    (rightMember : right ∈ nodes) :
    Traversed.Refines (registry.compareNodes levels left right)
      (.ok (test left right)) := by
  induction levels generalizing left right with
  | zero =>
      intro answer answered
      cases answered
  | succ levels inductionHypothesis =>
      rw [← consistent.heads left leftMember right rightMember]
      exact compareHeads_related Traversed.respected_refines
        fun first second leftNear rightNear => inductionHypothesis
          (consistent.nears leftMember leftNear)
          (consistent.nears rightMember rightNear)

/-- Nodes that are alike within some number of levels pass the test. -/
theorem of_nodesAlike
    (consistent : registry.Consistent nodes test) {levels : Nat}
    {left right : Node} (leftMember : left ∈ nodes)
    (rightMember : right ∈ nodes)
    (same : registry.nodesAlike levels left right) : test left right := by
  have supported : Traversed.Supports
      (.ok (registry.nodesAlike levels left right))
      (.ok (test left right)) := by
    clear same
    induction levels generalizing left right with
    | zero =>
        intro answer affirmed
        cases affirmed
    | succ levels inductionHypothesis =>
        rw [← compareHeads_nodesAlike,
          ← consistent.heads left leftMember right rightMember]
        exact compareHeads_related Traversed.respected_supports
          fun first second leftNear rightNear => inductionHypothesis
            (consistent.nears leftMember leftNear)
            (consistent.nears rightMember rightNear)
  exact supported _ (congrArg _ same) rfl

end Consistent

end Registry

end NamedLogic
