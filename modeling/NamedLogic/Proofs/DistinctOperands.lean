import NamedLogic.Proofs.PlainTrees

/-!
# Formulas compared with themselves

Comparing a formula with itself compares each operand of a junction with those
before it, until it comes to the operand itself.  So if such a comparison is not
refused, and no two operands of a junction are alike when compared on their own,
then no two operands of a junction have plain trees that are alike.
-/

namespace NamedLogic

/-! ## Searches among operands -/

namespace Traversed

variable {α : Type} {test : α → Traversed Bool}

/-- A search that affirms nothing before the given item comes to that item and
ends there. -/
theorem anyM_of_affirmed
    {front back : List α} {item : α} {answer : Bool}
    (found : (front ++ item :: back).anyM test = .ok answer)
    (before : ∀ other ∈ front, Refines (test other) (.ok false))
    (itself : Refines (test item) (.ok true)) :
    (∀ other ∈ front, test other = .ok false) ∧ test item = .ok true ∧
      answer = true := by
  induction front with
  | nil =>
      rw [List.nil_append, anyM_cons] at found
      rcases either_eq_ok_iff.mp found with
        ⟨denied, _⟩ | ⟨affirmed, positive⟩
      · cases itself _ denied
      · exact ⟨fun _ member => (List.not_mem_nil member).elim,
          affirmed, positive⟩
  | cons head front inductionHypothesis =>
      rw [List.cons_append, anyM_cons] at found
      rcases either_eq_ok_iff.mp found with ⟨denied, rest⟩ | ⟨affirmed, _⟩
      · obtain ⟨others, last⟩ := inductionHypothesis rest fun other member =>
          before other (List.mem_cons_of_mem _ member)
        exact ⟨List.forall_mem_cons.mpr ⟨denied, others⟩, last⟩
      · cases before head List.mem_cons_self _ affirmed

/-- If each item is affirmed against itself and against no earlier one, then
searching for each item among all of them asks for all of this. -/
theorem allM_anyM_of_affirmed
    {compare : α → α → Traversed Bool} {front back : List α} {answer : Bool}
    (found : back.allM (fun item => (front ++ back).anyM (compare item)) =
      .ok answer)
    (earlier : ∀ item ∈ back, ∀ other ∈ front,
      Refines (compare item other) (.ok false))
    (ordered : back.Pairwise fun first second =>
      Refines (compare second first) (.ok false))
    (itself : ∀ item ∈ back, Refines (compare item item) (.ok true)) :
    (∀ item ∈ back, compare item item = .ok true ∧
      ∀ other ∈ front, compare item other = .ok false) ∧
        back.Pairwise fun first second => compare second first = .ok false := by
  induction back generalizing front with
  | nil => exact ⟨fun _ member => (List.not_mem_nil member).elim, .nil⟩
  | cons item back inductionHypothesis =>
      obtain ⟨later, ordered⟩ := List.pairwise_cons.mp ordered
      rw [allM_cons] at found
      -- The search for the first item comes to it, and so the others follow.
      have search : ∀ {answer}, (front ++ item :: back).anyM (compare item) =
          .ok answer → _ := fun found =>
        anyM_of_affirmed found (earlier item List.mem_cons_self)
          (itself item List.mem_cons_self)
      rcases both_eq_ok_iff.mp found with ⟨first, rest⟩ | ⟨first, _⟩
      · obtain ⟨before, affirmed, _⟩ := search first
        rw [List.append_cons] at rest
        obtain ⟨others, apart⟩ := inductionHypothesis rest
          (fun other member => List.forall_mem_append.mpr
            ⟨earlier other (List.mem_cons_of_mem _ member),
              List.forall_mem_singleton.mpr (later other member)⟩)
          ordered
          fun other member => itself other (List.mem_cons_of_mem _ member)
        refine ⟨List.forall_mem_cons.mpr ⟨⟨affirmed, before⟩, ?_⟩,
          List.pairwise_cons.mpr ⟨?_, apart⟩⟩
        · intro other member
          obtain ⟨same, denied⟩ := others other member
          exact ⟨same, (List.forall_mem_append.mp denied).1⟩
        · intro other member
          exact (others other member).2 item (by simp)
      · cases (search first).2.2

end Traversed

namespace Registry

/-! ## Operands that are not alike -/

/-- No two operands of a node are alike when compared on their own. -/
def OperandsApart (registry : Registry) (node : Node) : Prop :=
  match node.body with
  | .junction _ operands =>
      operands.Pairwise fun first second =>
        ¬ registry.sidesAlike (registry.levels 0) (some first)
            (some second) ∧
          ¬ registry.sidesAlike (registry.levels 0) (some second)
            (some first)
  | _ => True

instance (registry : Registry) (node : Node) :
    Decidable (registry.OperandsApart node) :=
  match body : node.body with
  | .junction _ operands =>
      decidable_of_iff (operands.Pairwise fun first second =>
        ¬ registry.sidesAlike (registry.levels 0) (some first)
            (some second) ∧
          ¬ registry.sidesAlike (registry.levels 0) (some second)
            (some first)) (by rw [OperandsApart, body])
  | .atom | .negation _ | .implication _ _ | .dnf _ _ _ =>
      .isTrue (by simp only [OperandsApart, body])

/-- One step from a disjunctive normal form to the formula recorded for it. -/
def Records (registry : Registry) (node formula : Node) : Prop :=
  ∃ atoms rows recorded, node.body = .dnf atoms rows recorded ∧
    recorded.bind registry.node? = some formula

variable {registry : Registry}

theorem Records.descends
    {node formula : Node} (records : registry.Records node formula) :
    registry.Descends node formula := by
  obtain ⟨_, _, recorded, body, found⟩ := records
  obtain ⟨key, rfl, stored⟩ := Option.bind_eq_some_iff.mp found
  exact .generated body stored

/-- The plain tree of a disjunctive normal form is that of its formula. -/
theorem Records.plainTree_eq
    {levels : Nat} {node formula : Node}
    (records : registry.Records node formula)
    (settled : (registry.unfold levels node).Settled) :
    registry.plainTree levels node = registry.plainTree levels formula := by
  obtain ⟨_, _, recorded, body, found⟩ := records
  rw [plainTree_succ settled, unfold_dnf body, recordedTree, found,
    Option.map_some, Option.getD_some,
    Tree.plain_generated (unfold_ne_absent levels formula), plainTree]

section Comparisons

variable {compare : Node → Node → Traversed Bool}

theorem compareHeads_of_records_left
    {node formula : Node} (records : registry.Records node formula)
    (other : Node) :
    registry.compareHeads compare node other = compare formula other := by
  obtain ⟨_, _, recorded, body, found⟩ := records
  simp only [compareHeads, body, compareRecorded, found]

theorem compareHeads_of_records_right
    {node other formula : Node}
    (plain : ∀ atoms rows recorded, node.body ≠ .dnf atoms rows recorded)
    (records : registry.Records other formula) :
    registry.compareHeads compare node other = compare node formula := by
  obtain ⟨_, _, recorded, otherBody, found⟩ := records
  cases body : node.body with
  | dnf atoms rows recorded => exact (plain atoms rows recorded body).elim
  | _ => simp only [compareHeads, body, otherBody, compareRecorded, found]

end Comparisons

/-! ## Distinct plain trees -/

section Sides

variable {deep levels : Nat} {node : Node}

/-- Comparisons of sides answer whether their plain trees are alike. -/
theorem WellFormed.compareSides_refines
    (wellFormed : registry.WellFormed) (stored : node ∈ registry.whole deep)
    {first second : Option Name}
    (firstNamed : ∀ name ∈ first, name ∈ node.lookups)
    (secondNamed : ∀ name ∈ second, name ∈ node.lookups) :
    Traversed.Refines
      (registry.compareSides (registry.compareNodes levels) first second)
      (.ok ((registry.sideTree deep first).plain.alike
        (registry.sideTree deep second).plain)) := by
  have consistent := wellFormed.consistent_plainTree deep
  rw [← compareSides_plainTree]
  exact compareSides_related Traversed.respected_refines
    fun left right leftStands rightStands => consistent.compareNodes_refines
      levels
      (consistent.parts node stored left
        (descends_of_bind firstNamed leftStands))
      (consistent.parts node stored right
        (descends_of_bind secondNamed rightStands))

/-- Sides that are not alike are not found alike with fewer levels. -/
theorem compareSides_refines_of_not_sidesAlike
    (enough : levels ≤ registry.levels 0) {first second : Option Name}
    (apart : ¬ registry.sidesAlike (registry.levels 0) first second) :
    Traversed.Refines
      (registry.compareSides (registry.compareNodes levels) first second)
      (.ok false) := by
  have answer : registry.compareSides
      (fun left right => .ok (registry.nodesAlike (registry.levels 0) left
        right)) first second = .ok false := by
    rw [compareSides_ok]
    exact congrArg Except.ok (Bool.eq_false_iff.mpr apart)
  rw [← answer]
  refine compareSides_related Traversed.respected_refines
    fun left right _ _ result answered => ?_
  rw [nodesAlike_eq_of_compareNodes
    (compareNodes_eq_ok_of_le answered enough)]

end Sides

/-- If comparing a node with itself comes to an end, and the parts that are
compared with themselves on the way have distinct plain trees, then so has the
node. -/
theorem WellFormed.distinct_of_compareHeads
    (wellFormed : registry.WellFormed) {deep levels : Nat} {node : Node}
    (stored : node ∈ registry.whole deep)
    (explicit : (registry.plainTree deep node).Explicit)
    (enough : levels ≤ registry.levels 0)
    (apart : registry.OperandsApart node)
    (plain : ∀ atoms rows recorded, node.body ≠ .dnf atoms rows recorded)
    (parts : ∀ part, registry.Descends node part →
      (registry.plainTree deep part).Explicit → ∀ {answer},
        registry.compareNodes levels part part = .ok answer →
          (registry.plainTree deep part).Distinct)
    {answer : Bool}
    (answered : registry.compareHeads (registry.compareNodes levels)
      node node = .ok answer) :
    (registry.plainTree deep node).Distinct := by
  have itself {side : Option Name}
      (named : ∀ name ∈ side, name ∈ node.lookups)
      (whole : (registry.sideTree deep side).plain.Explicit) :
      Traversed.Refines
        (registry.compareSides (registry.compareNodes levels) side side)
        (.ok true) := by
    rw [← whole.alike_refl]
    exact wellFormed.compareSides_refines stored named named
  have distinct {side : Option Name}
      (named : ∀ name ∈ side, name ∈ node.lookups)
      (whole : (registry.sideTree deep side).plain.Explicit) {answer : Bool}
      (answered : registry.compareSides (registry.compareNodes levels)
        side side = .ok answer) :
      (registry.sideTree deep side).plain.Distinct := by
    refine plain_sideTree_cases Tree.distinct_of_isGap fun part stands => ?_
    rw [sideTree_of_bind stands] at whole
    simp only [compareSides, stands] at answered
    exact parts part (descends_of_bind named stands) whole answered
  rw [plainTree_succ stored.2] at explicit ⊢
  cases body : node.body with
  | dnf atoms rows recorded => exact (plain atoms rows recorded body).elim
  | atom =>
      rw [unfold_atom body]
      exact trivial
  | negation operand =>
      have named : ∀ name ∈ some operand, name ∈ node.lookups := by
        rintro _ ⟨⟩
        exact Node.mem_lookups_of_negation body
      rw [unfold_negation body] at explicit ⊢
      simp only [compareHeads, body] at answered
      exact ⟨trivial, distinct named explicit.2 answered⟩
  | junction connective operands =>
      have named : ∀ operand ∈ operands, ∀ name ∈ some operand,
          name ∈ node.lookups := by
        rintro operand member _ ⟨⟩
        exact Node.mem_lookups_of_junction body member
      rw [unfold_junction body, Tree.plain_junction] at explicit ⊢
      have whole : ∀ operand ∈ operands,
          (registry.sideTree deep (some operand)).plain.Explicit := by
        simpa [sideTree] using Tree.explicit_junction_iff.mp explicit
      rw [OperandsApart, body] at apart
      simp only [compareHeads, body, BEq.rfl, Bool.and_self] at answered
      obtain ⟨_, search⟩ | ⟨impossible, _⟩ :=
        Traversed.both_eq_ok_iff.mp answered
      · obtain ⟨same, denied⟩ := @Traversed.allM_anyM_of_affirmed _ _ []
          operands _ search
          (fun _ _ _ member => (List.not_mem_nil member).elim)
          (apart.imp fun differ =>
            compareSides_refines_of_not_sidesAlike enough differ.2)
          fun operand member =>
            itself (named operand member) (whole operand member)
        have parts : ∀ operand ∈ operands,
            (registry.sideTree deep (some operand)).plain.Distinct :=
          fun operand member => distinct (named operand member)
            (whole operand member) (same operand member).1
        rw [Tree.distinct_junction_iff, List.pairwise_map, List.pairwise_map]
        refine ⟨denied.imp_of_mem ?_, by simpa [sideTree] using parts⟩
        intro first second firstMember secondMember denied alike
        have differ := wellFormed.compareSides_refines stored
          (named second secondMember) (named first firstMember) _ denied
        have reversed := (parts first firstMember).alike_symm alike
        exact Bool.false_ne_true
          ((Except.ok.inj differ).symm.trans reversed)
      · cases impossible
  | implication antecedent consequent =>
      obtain ⟨leftNamed, rightNamed⟩ := Node.mem_lookups_of_implication body
      rw [unfold_implication body] at explicit ⊢
      simp only [compareHeads, body] at answered
      obtain ⟨_, left, right⟩ := explicit
      rcases Traversed.both_eq_ok_iff.mp answered with
        ⟨first, second⟩ | ⟨first, _⟩
      · exact ⟨trivial, distinct leftNamed left first,
          distinct rightNamed right second⟩
      · cases itself leftNamed left _ first

/-- If comparing a formula with itself comes to an end, and no two operands of a
junction are alike, then its plain tree is distinct.  On the way a part may be
compared with a normal form that it is recorded for. -/
theorem WellFormed.distinct_plainTree
    (wellFormed : registry.WellFormed) {deep levels : Nat}
    {node other : Node} (stored : node ∈ registry.whole deep)
    (explicit : (registry.plainTree deep node).Explicit)
    (enough : levels ≤ registry.levels 0)
    (apart : ∀ part, registry.Meets node part → registry.OperandsApart part)
    (records : Relation.ReflTransGen registry.Records other node)
    {answer : Bool}
    (answered : registry.compareNodes levels node other = .ok answer) :
    (registry.plainTree deep node).Distinct := by
  induction levels generalizing node other answer with
  | zero => cases answered
  | succ levels inductionHypothesis =>
      have fewer : levels ≤ registry.levels 0 := Nat.le_of_succ_le enough
      have descend {part target : Node}
          (step : registry.Descends node part) :=
        @inductionHypothesis part target
          ((wellFormed.consistent_plainTree deep).parts node stored part step)
      have inside {part : Node} (step : registry.Descends node part) :
          ∀ last, registry.Meets part last → registry.OperandsApart last :=
        fun last meets => apart last (.further step meets)
      rw [compareNodes] at answered
      cases body : node.body with
      | dnf atoms rows recorded =>
          cases found : recorded.bind registry.node? with
          | none =>
              rw [plainTree_succ stored.2, unfold_dnf body, recordedTree,
                found]
              exact trivial
          | some formula =>
              have step : registry.Records node formula :=
                ⟨atoms, rows, recorded, body, found⟩
              rw [compareHeads_of_records_left step] at answered
              rw [step.plainTree_eq stored.2] at explicit ⊢
              exact descend step.descends explicit fewer
                (inside step.descends) (records.tail step) answered
      | _ =>
          have plain : ∀ atoms rows recorded,
              node.body ≠ .dnf atoms rows recorded := by
            simp [body]
          rcases records.cases_head with rfl | ⟨next, step, rest⟩
          · exact wellFormed.distinct_of_compareHeads stored explicit fewer
              (apart other (.here other)) plain
              (fun part step whole {_} answered =>
                descend step whole fewer (inside step) .refl answered)
              answered
          · rw [compareHeads_of_records_right plain step] at answered
            exact inductionHypothesis stored explicit fewer apart rest
              answered

end Registry

end NamedLogic
