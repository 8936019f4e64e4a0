import NamedLogic.Proofs.TreeSoundness

/-!
# Parts reached from a node

The trees of a node show the nodes met from it, and no others.  So a condition
on all nodes met from a node is one on all its trees, however far they are
unfolded.
-/

namespace NamedLogic

namespace Node

/-- Whether a node, leaving aside what its names stand for, may be part of a
whole formula. -/
def lacksNothing (node : Node) : Bool :=
  match node.body with
  | .atom | .negation _ => true
  | .junction _ operands => !operands.isEmpty
  | .implication antecedent consequent =>
      antecedent.isSome && consequent.isSome
  | .dnf _ _ _ => false

end Node

namespace Registry

variable {registry : Registry}

/-! ## Nodes met -/

/-- A set of nodes that no step leaves contains all nodes met from its
nodes. -/
theorem Meets.mem_of_closed
    {nodes : Set Node}
    (closed : ∀ node ∈ nodes, ∀ next, registry.Descends node next →
      next ∈ nodes)
    {node part : Node} (meets : registry.Meets node part)
    (member : node ∈ nodes) : part ∈ nodes := by
  induction meets with
  | here => exact member
  | further step _ inductionHypothesis =>
      exact inductionHypothesis (closed _ member _ step)

/-- A step from a node whose formula is not a recorded one goes to what one of
its names stands for. -/
theorem Descends.exists_name
    {node next : Node} (step : registry.Descends node next)
    (plain : ∀ atoms rows recorded, node.body ≠ .dnf atoms rows recorded) :
    ∃ name ∈ node.lookups, registry.referent? name = some next := by
  cases step with
  | operand named stands => exact ⟨_, named, stands⟩
  | generated body _ => exact (plain _ _ _ body).elim

/-- A formula in which every name stands for something, no disjunctive normal
form is met, every junction has an operand, and every implication has both
sides. -/
structure Whole (registry : Registry) (node : Node) : Prop where
  bound : ∀ part, registry.Meets node part → ∀ name ∈ part.lookups,
    registry.referent? name ≠ none
  plain : ∀ part, registry.Meets node part → ∀ atoms rows recorded,
    part.body ≠ .dnf atoms rows recorded
  inhabited : ∀ part, registry.Meets node part → ∀ connective,
    part.body ≠ .junction connective []
  sided : ∀ part, registry.Meets node part → ∀ antecedent consequent,
    part.body = .implication antecedent consequent →
      antecedent ≠ none ∧ consequent ≠ none

namespace Whole

variable {node : Node}

theorem descend
    {next : Node} (whole : registry.Whole node) (step : registry.Descends node next) :
    registry.Whole next where
  bound part meets := whole.bound part (.further step meets)
  plain part meets := whole.plain part (.further step meets)
  inhabited part meets := whole.inhabited part (.further step meets)
  sided part meets := whole.sided part (.further step meets)

theorem complete_nameTree
    (whole : registry.Whole node) {levels : Nat}
    (nodes : ∀ {part}, registry.Whole part →
      (registry.unfold levels part).Complete)
    {name : Name} (named : name ∈ node.lookups) :
    (registry.nameTree levels name).Complete := by
  obtain ⟨operand, stands⟩ := Option.ne_none_iff_exists'.mp
    (whole.bound node (.here node) name named)
  rw [nameTree_of_referent stands]
  exact nodes (whole.descend (.operand named stands))

theorem complete_sideTree
    (whole : registry.Whole node) {levels : Nat}
    (nodes : ∀ {part}, registry.Whole part →
      (registry.unfold levels part).Complete)
    {side : Option Name} (present : side ≠ none)
    (named : ∀ name ∈ side, name ∈ node.lookups) :
    (registry.sideTree levels side).Complete := by
  obtain ⟨name, rfl⟩ := Option.ne_none_iff_exists'.mp present
  exact whole.complete_nameTree nodes (named name rfl)

/-- All trees of a whole formula are whole. -/
theorem complete (whole : registry.Whole node) (levels : Nat) :
    (registry.unfold levels node).Complete := by
  induction levels generalizing node with
  | zero => exact trivial
  | succ levels inductionHypothesis =>
      have here : registry.Meets node node := .here node
      cases body : node.body with
      | atom =>
          rw [unfold_atom body]
          exact trivial
      | negation operand =>
          rw [unfold_negation body]
          exact ⟨trivial, whole.complete_nameTree inductionHypothesis
            (Node.mem_lookups_of_negation body)⟩
      | junction connective operands =>
          rw [unfold_junction body]
          refine Tree.every_junction_iff.mpr ⟨?_, ?_⟩
          · cases operands with
            | nil => exact whole.inhabited node here connective body
            | cons => exact trivial
          · intro operand member
            obtain ⟨name, present, rfl⟩ := List.mem_map.mp member
            exact whole.complete_nameTree inductionHypothesis
              (Node.mem_lookups_of_junction body present)
      | implication antecedent consequent =>
          obtain ⟨premise, conclusion⟩ :=
            whole.sided node here antecedent consequent body
          obtain ⟨left, right⟩ := Node.mem_lookups_of_implication body
          rw [unfold_implication body]
          exact ⟨trivial,
            whole.complete_sideTree inductionHypothesis premise left,
            whole.complete_sideTree inductionHypothesis conclusion right⟩
      | dnf atoms rows recorded =>
          exact (whole.plain node here atoms rows recorded body).elim

end Whole

section Closed

variable {nodes : List Node}
  (shaped : ∀ node ∈ nodes, node.lacksNothing)
  (closed : ∀ node ∈ nodes, ∀ name ∈ node.lookups,
    ∃ next ∈ nodes, registry.referent? name = some next)
  {node : Node} (member : node ∈ nodes)

include shaped closed member

/-- Nodes that lack nothing and have their names stand for one another lead to
no other nodes. -/
theorem mem_of_meets_of_closed
    {part : Node} (meets : registry.Meets node part) : part ∈ nodes := by
  refine @Meets.mem_of_closed registry { node | node ∈ nodes } ?_ node
    part meets member
  intro earlier present next step
  have plain : ∀ atoms rows recorded,
      earlier.body ≠ .dnf atoms rows recorded := by
    intro atoms rows recorded body
    have lacks := shaped earlier present
    rw [Node.lacksNothing, body] at lacks
    cases lacks
  obtain ⟨name, among, stands⟩ := step.exists_name plain
  obtain ⟨other, otherMember, otherStands⟩ :=
    closed earlier present name among
  rw [stands] at otherStands
  exact Option.some.inj otherStands ▸ otherMember

/-- Such nodes are whole. -/
theorem whole_of_closed : registry.Whole node := by
  have met : ∀ part, registry.Meets node part → part ∈ nodes :=
    fun _ => mem_of_meets_of_closed shaped closed member
  constructor
  · intro part meets name among
    obtain ⟨next, _, stands⟩ := closed part (met part meets) name among
    simp [stands]
  · intro part meets atoms rows recorded body
    have lacks := shaped part (met part meets)
    rw [Node.lacksNothing, body] at lacks
    cases lacks
  · intro part meets connective body
    have lacks := shaped part (met part meets)
    rw [Node.lacksNothing, body] at lacks
    cases lacks
  · intro part meets antecedent consequent body
    have lacks := shaped part (met part meets)
    rw [Node.lacksNothing, body, Bool.and_eq_true] at lacks
    exact ⟨Option.isSome_iff_ne_none.mp lacks.1,
      Option.isSome_iff_ne_none.mp lacks.2⟩

end Closed

/-! ## Literals -/

theorem exists_of_mem_literals_nameTree
    {node : Node} {levels : Nat} {name : Name}
    (named : name ∈ node.lookups) {positive : Bool}
    {literal : String × Bool}
    (member : literal ∈ (registry.nameTree levels name).literals positive) :
    ∃ next, registry.Descends node next ∧
      literal ∈ (registry.unfold levels next).literals positive := by
  cases stands : registry.referent? name with
  | some operand =>
      rw [nameTree_of_referent stands] at member
      exact ⟨operand, .operand named stands, member⟩
  | none =>
      rw [nameTree_of_no_referent stands] at member
      cases member

theorem exists_of_mem_literals_sideTree
    {node : Node} {levels : Nat} {side : Option Name}
    (named : ∀ name ∈ side, name ∈ node.lookups) {positive : Bool}
    {literal : String × Bool}
    (member : literal ∈ (registry.sideTree levels side).literals positive) :
    ∃ next, registry.Descends node next ∧
      literal ∈ (registry.unfold levels next).literals positive := by
  cases side with
  | none => cases member
  | some name => exact exists_of_mem_literals_nameTree (named name rfl) member

/-- A literal in a tree is that of an atom met. -/
theorem exists_atom_of_mem_literals
    {node : Node} {levels : Nat} {positive : Bool}
    {literal : String × Bool}
    (member : literal ∈ (registry.unfold levels node).literals positive) :
    ∃ atom, registry.Meets node atom ∧ atom.body = .atom ∧
      registry.string atom.name = literal.1 := by
  induction levels generalizing node positive with
  | zero => cases member
  | succ levels inductionHypothesis =>
      have descend : ∀ {polarity}, (∃ next, registry.Descends node next ∧
          literal ∈ (registry.unfold levels next).literals polarity) →
          ∃ atom, registry.Meets node atom ∧ atom.body = .atom ∧
            registry.string atom.name = literal.1 := by
        rintro polarity ⟨next, step, among⟩
        obtain ⟨atom, meets, shape⟩ := inductionHypothesis among
        exact ⟨atom, .further step meets, shape⟩
      cases body : node.body with
      | atom =>
          rw [unfold_atom body] at member
          obtain rfl := List.mem_singleton.mp member
          exact ⟨node, .here node, body, rfl⟩
      | negation operand =>
          rw [unfold_negation body] at member
          exact descend (exists_of_mem_literals_nameTree
            (Node.mem_lookups_of_negation body) member)
      | junction connective operands =>
          rw [unfold_junction body] at member
          obtain ⟨operand, present, among⟩ :=
            Tree.mem_literalsAmong.mp member
          obtain ⟨name, named, rfl⟩ := List.mem_map.mp present
          exact descend (exists_of_mem_literals_nameTree
            (Node.mem_lookups_of_junction body named) among)
      | implication antecedent consequent =>
          rw [unfold_implication body] at member
          obtain ⟨left, right⟩ := Node.mem_lookups_of_implication body
          rcases List.mem_append.mp member with premise | conclusion
          · exact descend (exists_of_mem_literals_sideTree left premise)
          · exact descend (exists_of_mem_literals_sideTree right conclusion)
      | dnf atoms rows recorded =>
          rw [unfold_dnf body, Tree.literals] at member
          cases recorded with
          | none => cases member
          | some key =>
              cases found : registry.node? key with
              | none =>
                  rw [recordedTree, Option.bind_some, found] at member
                  cases member
              | some formula =>
                  rw [recordedTree, Option.bind_some, found] at member
                  exact descend ⟨formula, .generated body found, member⟩

end Registry

end NamedLogic
