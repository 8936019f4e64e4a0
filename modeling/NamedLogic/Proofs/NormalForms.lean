import NamedLogic.Proofs.Normalization
import NamedLogic.Proofs.ReachedParts
import NamedLogic.Proofs.Representation
import NamedLogic.Proofs.TreeHeight

/-!
# Normal forms

A node with a normal tree leads to such nodes only, and each step leads to a
lower tree.  So the nodes below it form no cycle, and what the tree says of its
parts can be said of the nodes themselves.
-/

namespace NamedLogic

/-- Whether a node is a disjunctive normal form. -/
def Node.isDnf (node : Node) : Bool :=
  match node.body with
  | .dnf _ _ _ => true
  | _ => false

namespace Registry

/-- The operands of a junction are at least two; none is a junction of the same
kind; no two of them, at different places, are alike in either direction; and
none is the negation of another. -/
structure NormalOperands
    (registry : Registry) (connective : Connective) (operands : List Name) :
    Prop where
  several : 2 ≤ operands.length
  flat : ∀ name ∈ operands, ∀ operand,
    registry.referent? name = some operand →
      operand.operandsUnder? connective = none
  distinct : operands.Pairwise fun first second =>
    ∀ left right, registry.binding first = some left →
      registry.binding second = some right →
        registry.alike left right = false ∧ registry.alike right left = false
  compatible : ∀ first ∈ operands, ∀ second ∈ operands,
    ∀ left right, registry.binding first = some left →
      registry.binding second = some right →
        registry.negates left right = false

/-- A node is an atom, the negation of a name that stands for an atom, or a
junction of normal operands. -/
def InNormalForm (registry : Registry) (node : Node) : Prop :=
  match node.body with
  | .atom => True
  | .negation operand =>
      ∃ atom, registry.referent? operand = some atom ∧ atom.isAtom
  | .junction connective operands =>
      registry.NormalOperands connective operands
  | .implication _ _ => False
  | .dnf _ _ _ => False

section NormalTrees

variable {registry : Registry} {levels : Nat} {node : Node}
  (normal : (registry.unfold (levels + 1) node).Normal)

include normal

/-! ## Steps -/

theorem references_eq_lookups_of_normal :
    node.references = node.lookups := by
  cases body : node.body with
  | dnf =>
      rw [unfold_dnf body] at normal
      cases normal
  | _ => simp [Node.references, Node.lookups, body]

/-- The names that a node with a normal tree looks up stand for lower normal
trees. -/
theorem normal_of_mem_lookups
    {name : Name} (named : name ∈ node.lookups) :
    (registry.nameTree levels name).Normal ∧
      (registry.nameTree levels name).height <
        (registry.unfold (levels + 1) node).height := by
  cases body : node.body with
  | atom => simp [Node.lookups, body, Body.references] at named
  | negation operand =>
      obtain rfl : name = operand := by
        simpa [Node.lookups, body, Body.references] using named
      rw [unfold_negation body] at normal ⊢
      generalize registry.nameTree levels name = tree at normal ⊢
      cases normal
      exact ⟨.positive _, Nat.lt_succ_self _⟩
  | junction connective operands =>
      have member : name ∈ operands := by
        simpa [Node.lookups, body, Body.references] using named
      have among := List.mem_map_of_mem (f := registry.nameTree levels) member
      rw [unfold_junction body] at normal ⊢
      refine ⟨normal.parts.2 _ among, ?_⟩
      have bounded : Tree.heightAmong
          (operands.map (registry.nameTree levels)) ≤ _ := le_rfl
      exact Nat.lt_succ_of_le (Tree.heightAmong_le_iff.mp bounded _ among)
  | implication =>
      rw [unfold_implication body] at normal
      cases normal
  | dnf =>
      rw [unfold_dnf body] at normal
      cases normal

theorem binding_ne_none_of_normal
    {name : Name} (named : name ∈ node.references) :
    registry.binding name ≠ none := by
  rw [references_eq_lookups_of_normal normal] at named
  exact binding_ne_none_of_resolved
    (normal_of_mem_lookups normal named).1.resolved

/-- A step leads to a lower normal tree. -/
theorem normal_of_descends
    {next : Node} (step : registry.Descends node next) :
    (registry.unfold (levels + 1) next).Normal ∧
      (registry.unfold (levels + 1) next).height <
        (registry.unfold (levels + 1) node).height := by
  have plain : ∀ atoms rows recorded, node.body ≠ .dnf atoms rows recorded := by
    intro atoms rows recorded body
    rw [unfold_dnf body] at normal
    cases normal
  obtain ⟨name, named, stands⟩ := step.exists_name plain
  obtain ⟨nameNormal, lower⟩ := normal_of_mem_lookups normal named
  rw [nameTree_of_referent stands] at nameNormal lower
  have same : registry.unfold (levels + 1) next =
      registry.unfold levels next :=
    unfold_eq_of_settled nameNormal.settled (Nat.le_succ levels)
  rw [same]
  exact ⟨nameNormal, lower⟩

/-- Whatever is met has a normal tree, and no higher one. -/
theorem normal_of_meets
    {part : Node} (meets : registry.Meets node part) :
    (registry.unfold (levels + 1) part).Normal ∧
      (registry.unfold (levels + 1) part).height ≤
        (registry.unfold (levels + 1) node).height := by
  induction meets with
  | here => exact ⟨normal, le_rfl⟩
  | further step _ inductionHypothesis =>
      obtain ⟨nextNormal, lower⟩ := normal_of_descends normal step
      obtain ⟨partNormal, notHigher⟩ := inductionHypothesis nextNormal
      exact ⟨partNormal, Nat.le_trans notHigher (Nat.le_of_lt lower)⟩

/-- No disjunctive normal form is met from a node with a normal tree. -/
theorem plain_of_normal :
    ∀ part, registry.Meets node part →
      ∀ atoms rows generated, part.body ≠ .dnf atoms rows generated := by
  intro part meets atoms rows generated body
  obtain ⟨partNormal, _⟩ := normal_of_meets normal meets
  rw [unfold_dnf body] at partNormal
  cases partNormal

/-- No step from a node with a normal tree leads to where the node is met
again. -/
theorem not_meets_of_descends
    {next : Node} (step : registry.Descends node next) :
    ¬ registry.Meets next node := by
  intro returns
  obtain ⟨nextNormal, lower⟩ := normal_of_descends normal step
  obtain ⟨_, notHigher⟩ := normal_of_meets nextNormal returns
  omega

/-! ## Shapes -/

theorem normalOperands_of_normal
    (wellFormed : registry.WellFormed) (enough : levels ≤ registry.levels 0)
    {connective : Connective} {operands : List Name}
    (body : node.body = .junction connective operands) :
    registry.NormalOperands connective operands := by
  rw [unfold_junction body] at normal
  obtain ⟨irreducible, parts⟩ := normal.parts
  have presents : ∀ {name : Name} {key : Key},
      registry.binding name = some key →
        registry.Presents .named levels key
          (registry.nameTree levels name) :=
    fun bound => wellFormed.presents_of_binding bound
  have partNormal : ∀ name ∈ operands,
      (registry.nameTree levels name).Normal :=
    fun name member => parts _ (List.mem_map_of_mem member)
  constructor
  · simpa using irreducible.several
  · intro name member operand stands
    have flat := irreducible.flat _ (List.mem_map_of_mem member)
    have shape := partNormal name member
    rw [nameTree_of_referent stands] at flat shape
    obtain _ | levels := levels
    · cases shape
    · rw [joins_unfold] at flat
      simpa using flat
  · refine (List.pairwise_map.mp irreducible.distinct).imp_of_mem ?_
    intro first second firstMember secondMember apart left right leftBound
      rightBound
    have firstNormal := partNormal first firstMember
    have secondNormal := partNormal second secondMember
    rw [wellFormed.alike_eq (presents leftBound) (presents rightBound)
        firstNormal secondNormal enough,
      wellFormed.alike_eq (presents rightBound) (presents leftBound)
        secondNormal firstNormal enough]
    exact ⟨Bool.eq_false_of_not_eq_true apart,
      Bool.eq_false_of_not_eq_true fun same =>
        apart (secondNormal.alike_symm same)⟩
  · intro first firstMember second secondMember left right leftBound
      rightBound
    rw [wellFormed.negates_eq (presents leftBound) (presents rightBound)
      (partNormal first firstMember) (partNormal second secondMember) enough]
    by_contra against
    exact irreducible.compatible ⟨_, List.mem_map_of_mem firstMember, _,
      List.mem_map_of_mem secondMember, by simpa using against⟩

theorem inNormalForm_of_normal
    (wellFormed : registry.WellFormed)
    (enough : levels ≤ registry.levels 0) :
    registry.InNormalForm node := by
  unfold InNormalForm
  cases body : node.body with
  | atom => exact trivial
  | negation operand =>
      rw [unfold_negation body] at normal
      generalize shape : registry.nameTree levels operand = tree at normal
      cases normal with
      | negative string =>
          cases stands : registry.referent? operand with
          | none =>
              rw [nameTree_of_no_referent stands] at shape
              cases shape
          | some atom =>
              rw [nameTree_of_referent stands] at shape
              refine ⟨atom, stands, ?_⟩
              obtain _ | levels := levels
              · cases shape
              cases atomBody : atom.body with
              | atom => simp [Node.isAtom, atomBody]
              | negation => simp [unfold_negation atomBody] at shape
              | junction => simp [unfold_junction atomBody] at shape
              | implication => simp [unfold_implication atomBody] at shape
              | dnf => simp [unfold_dnf atomBody] at shape
  | junction connective operands =>
      exact normalOperands_of_normal normal wellFormed enough body
  | implication =>
      rw [unfold_implication body] at normal
      cases normal
  | dnf =>
      rw [unfold_dnf body] at normal
      cases normal

end NormalTrees

/-! ## Results of simplification -/

theorem Meets.comesTo
    {registry : Registry} {node part : Node}
    (meets : registry.Meets node part) : registry.ComesTo node part := by
  induction meets with
  | here => exact .refl
  | further step _ inductionHypothesis =>
      exact .head (.descends step) inductionHypothesis

/-- From a list of nodes that no step leaves, and among which there is no
disjunctive normal form, none is met. -/
theorem plain_of_closed
    {registry : Registry} {nodes : List Node}
    (closed : ∀ node ∈ nodes, registry.successors node ⊆ nodes)
    (plain : ∀ node ∈ nodes, ¬ node.isDnf)
    {node : Node} (member : node ∈ nodes) :
    ∀ part, registry.Meets node part →
      ∀ atoms rows generated, part.body ≠ .dnf atoms rows generated := by
  intro part meets atoms rows generated body
  refine plain part (meets.comesTo.mem_of_closed closed member) ?_
  rw [Node.isDnf, body]

section Plain

variable {registry : Registry} {node : Node}
  (plain : ∀ part, registry.Meets node part →
    ∀ atoms rows generated, part.body ≠ .dnf atoms rows generated)

include plain

/-- Where no disjunctive normal form is met, simplification comes to what is met
and nothing else. -/
theorem meets_of_comesTo
    {part : Node} (comes : registry.ComesTo node part) :
    registry.Meets node part := by
  induction comes using Relation.ReflTransGen.head_induction_on with
  | refl => exact .here part
  | head leads _ inductionHypothesis =>
      cases leads with
      | descends step =>
          exact .further step <| inductionHypothesis fun other meets =>
            plain other (.further step meets)
      | namesake body _ _ => exact (plain _ (.here _) _ _ _ body).elim

theorem throughout_elementary :
    registry.Throughout Node.Elementary node := by
  intro part comes
  unfold Node.Elementary
  cases body : part.body with
  | dnf atoms rows generated =>
      exact (plain part (meets_of_comesTo plain comes) _ _ _ body).elim
  | _ => rfl

end Plain

/-- If no disjunctive normal form is met from a formula, then whatever its
simplification yields is in normal form, and so is everything below it: all
names are bound, the references form no cycle, and every node is an atom, the
negation of a name bound to an atom, or a junction of at least two operands, none
of which is a junction of the same kind, like another one, or the negation of
another one.  The formula itself may refer to names that stand for nothing,
lack sides, and have empty junctions. -/
theorem Reachable.simplify_normal
    {registry final : Registry} (reachable : registry.Reachable)
    {key result : Key}
    (plain : ∀ node part, registry.node? key = some node →
      registry.Meets node part →
        ∀ atoms rows generated, part.body ≠ .dnf atoms rows generated)
    (run : registry.Yields (simplify key) (some result) final) :
    ∃ node, final.node? result = some node ∧
      ∀ part, final.Meets node part →
        (∀ name ∈ part.references, final.binding name ≠ none) ∧
        (∀ next, final.Descends part next → ¬ final.Meets next part) ∧
        final.InNormalForm part := by
  have wellFormed := reachable.wellFormed
  obtain ⟨finalWellFormed, extension⟩ :=
    run.related (grows_simplify key registry) wellFormed
  cases stored : registry.node? key with
  | none =>
      obtain ⟨nothing, _⟩ := run.unique (yields_simplify_of_missing stored)
      cases nothing
  | some original =>
      obtain ⟨_, _, reading, run⟩ := yields_bind_iff.mp run
      obtain ⟨rfl, rfl⟩ := yields_get_iff.mp reading
      have covers : registry.Covers Node.Elementary .detached key :=
        ⟨original, stored,
          throughout_elementary fun part => plain original part stored,
          fun impossible => by cases impossible⟩
      obtain ⟨tree, normal, ⟨node, found, rfl⟩, _⟩ :=
        normalizes_simplifyWithin .detached (registry.levels 0) wellFormed
          le_rfl covers (fun impossible => by cases impossible) run
      refine ⟨node, found, fun part meets => ?_⟩
      obtain ⟨partNormal, _⟩ := normal_of_meets normal meets
      exact ⟨fun name => binding_ne_none_of_normal partNormal,
        fun next => not_meets_of_descends partNormal,
        inNormalForm_of_normal partNormal finalWellFormed
          (extension.levels_eq 0).ge⟩

/-- A conjunction of an implication whose consequent was removed, an empty
disjunction, the removed atom and another atom simplifies to the conjunction of
the negated antecedent and the other atom, which is in normal form. -/
theorem simplify_normal_despite_gaps :
    let registry := replay
      [.atom "p", .atom "q", .atom "r", .implication (some ⟨1⟩) (some ⟨2⟩),
        .junction .disjunction [],
        .junction .conjunction [⟨4⟩, ⟨5⟩, ⟨2⟩, ⟨3⟩], .remove "q"]
    let final := registry.after (simplify ⟨6⟩)
    registry.Yields (simplify ⟨6⟩) (some ⟨8⟩) final ∧
      final.node? ⟨8⟩ =
        some { name := 5, body := .junction .conjunction [6, 2] } ∧
      final.NormalOperands .conjunction [6, 2] := by
  intro registry final
  have reachable : registry.Reachable := reachable_replay _
  have run : registry.Yields (simplify ⟨6⟩) (some ⟨8⟩) final :=
    yields_after (by decide +kernel)
  have shape : final.node? ⟨8⟩ =
      some { name := 5, body := .junction .conjunction [6, 2] } := by
    decide +kernel
  let nodes : List Node := registry.nodes.toList.reduceOption
  have closed : ∀ node ∈ nodes, registry.successors node ⊆ nodes := by
    decide +kernel
  have elementary : ∀ node ∈ nodes, ∀ atoms rows generated,
      node.body ≠ .dnf atoms rows generated := by
    have bodies : nodes.map Node.body =
        [.atom, .atom, .implication (some 0) (some 1),
          .junction .disjunction [], .junction .conjunction [3, 4, 1, 2]] := by
      decide +kernel
    intro node member atoms rows generated body
    have listed := List.mem_map_of_mem (f := Node.body) member
    rw [bodies, body] at listed
    simp at listed
  have plain : ∀ node part, registry.node? ⟨6⟩ = some node →
      registry.Meets node part →
        ∀ atoms rows generated, part.body ≠ .dnf atoms rows generated := by
    intro node part stored meets
    have listed : ∀ node ∈ registry.node? ⟨6⟩, node ∈ nodes := by
      decide +kernel
    exact elementary part
      (meets.comesTo.mem_of_closed closed (listed node stored))
  obtain ⟨node, found, below⟩ := reachable.simplify_normal plain run
  rw [shape] at found
  obtain rfl := Option.some.inj found
  exact ⟨run, shape, (below _ (.here _)).2.2⟩

end Registry

end NamedLogic
