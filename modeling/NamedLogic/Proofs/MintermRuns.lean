import NamedLogic.Proofs.DnfGrowth
import NamedLogic.Proofs.GatheredJunction
import NamedLogic.Proofs.MintermTrees
import NamedLogic.Proofs.Progress

/-!
# Building minterms

Every round of the loop that builds a disjunctive normal form stores the minterm
of one row and adds it to the disjunction.  The disjunction is changed while
there are formulas in the registry that are to be kept; these are the minterms,
and none of them refers to a disjunction.
-/

namespace NamedLogic

/-! ## Changing a junction elsewhere -/

namespace Tree

/-- No part of a tree is a junction of the given connective. -/
def Avoids (connective : Connective) (tree : Tree) : Prop :=
  tree.Every fun part => part.joins connective = false

end Tree

namespace Registry

section Replacement

variable {registry : Registry} {key : Key} {target : Node}
  {connective : Connective} {present : List Name}
  (stored : registry.node? key = some target)
  (body : target.body = .junction connective present)

include stored body

/-- What is looked up under a key is the same as before, unless it is the
junction that changed. -/
theorem node?_replace_of_avoids
    (changed : Node) {levels : Nat} {other : Key} {node : Node}
    (found : registry.node? other = some node)
    (avoids : (registry.unfold (levels + 1) node).Avoids connective) :
    (registry.replace key changed).node? other = some node := by
  rw [node?_replace stored, found]
  refine if_neg ?_
  rintro rfl
  rw [stored] at found
  obtain rfl := Option.some.inj found
  rw [unfold_junction body] at avoids
  have joins := (Tree.every_junction_iff.mp avoids).1
  simp [Tree.joins] at joins

theorem nameTree_replace
    (changed : Node) {levels : Nat}
    (nodes : ∀ node : Node, (registry.unfold levels node).NegationNormal →
      (registry.unfold levels node).Avoids connective →
        (registry.replace key changed).unfold levels node =
          registry.unfold levels node)
    {name : Name}
    (negationNormal : (registry.nameTree levels name).NegationNormal)
    (avoids : (registry.nameTree levels name).Avoids connective) :
    (registry.replace key changed).nameTree levels name =
      registry.nameTree levels name := by
  obtain ⟨operand, stands, same⟩ :=
    exists_referent_of_resolved negationNormal.resolved
  obtain ⟨other, bound, found⟩ :=
    (referent?_eq_some_iff name operand).mp stands
  rw [same] at negationNormal avoids ⊢
  cases levels with
  | zero => cases negationNormal
  | succ levels =>
      have kept :=
        node?_replace_of_avoids stored body changed found avoids
      have standsAfter :
          (registry.replace key changed).referent? name = some operand := by
        simp [referent?, bound, kept]
      rw [nameTree_of_referent standsAfter,
        nodes operand negationNormal avoids]

/-- A negation normal form without junctions of some connective is kept when a
junction of that connective is changed. -/
theorem unfold_replace
    (changed : Node) {levels : Nat} {node : Node}
    (negationNormal : (registry.unfold levels node).NegationNormal)
    (avoids : (registry.unfold levels node).Avoids connective) :
    (registry.replace key changed).unfold levels node =
      registry.unfold levels node := by
  induction levels generalizing node with
  | zero => rfl
  | succ levels inductionHypothesis =>
      have names := fun {name : Name} =>
        @nameTree_replace registry key target connective present stored body
          changed levels (fun _ => inductionHypothesis) name
      cases shape : node.body with
      | atom =>
          rw [unfold_atom shape, unfold_atom shape]
          rfl
      | negation operand =>
          rw [unfold_negation shape] at negationNormal avoids
          rw [unfold_negation shape, unfold_negation shape,
            names negationNormal.of_negation avoids.2]
      | junction inner operands =>
          rw [unfold_junction shape] at negationNormal avoids
          obtain ⟨_, parts⟩ := Tree.every_junction_iff.mp avoids
          rw [unfold_junction shape, unfold_junction shape]
          refine congrArg _ (List.map_congr_left fun name member => ?_)
          have among := List.mem_map_of_mem (f := registry.nameTree levels)
            member
          exact names (negationNormal.of_junction _ among) (parts _ among)
      | implication =>
          rw [unfold_implication shape] at negationNormal
          cases negationNormal
      | dnf =>
          rw [unfold_dnf shape] at negationNormal
          cases negationNormal

end Replacement

end Registry

namespace Tree

theorem avoids_minterm (strings : List String) (row : Nat) :
    (minterm strings row).Avoids .disjunction := by
  refine every_junction_iff.mpr ⟨rfl, fun operand member => ?_⟩
  obtain ⟨placed, _, rfl⟩ := List.mem_map.mp member
  unfold rowLiteral
  split
  · exact rfl
  · exact ⟨rfl, rfl⟩

end Tree

namespace Registry

/-! ## One minterm -/

/-- Atoms with the given strings, each bound to its own name. -/
def PresentsAtoms
    (registry : Registry) (atoms : List Key) (strings : List String) : Prop :=
  List.Forall₂
    (fun key string => registry.Presents .named 1 key (.atom string))
    atoms strings

theorem PresentsAtoms.of_extends
    {before after : Registry} {atoms : List Key} {strings : List String}
    (presents : before.PresentsAtoms atoms strings)
    (beforeWellFormed : before.WellFormed)
    (afterWellFormed : after.WellFormed) (extension : before.Extends after) :
    after.PresentsAtoms atoms strings :=
  presents.imp fun _ _ shown =>
    shown.of_extends beforeWellFormed afterWellFormed extension trivial

/-- The literals of a row are atoms, or new negations of atoms. -/
theorem WellFormed.exists_yields_rowLiterals
    {registry : Registry} (wellFormed : registry.WellFormed) (row : Nat)
    {atoms : List Key} {strings : List String}
    (presents : registry.PresentsAtoms atoms strings) (start : Nat) :
    ∃ literals after,
      registry.Yields (rowLiterals row (atoms.zipIdx start)) literals after ∧
        after.WellFormed ∧ registry.Extends after ∧
        List.Forall₂ (after.Presents .named 2) literals
          ((strings.zipIdx start).map (Tree.rowLiteral row)) := by
  induction atoms generalizing registry strings start with
  | nil =>
      cases presents
      exact ⟨[], registry, yields_pure_iff.mpr ⟨rfl, rfl⟩, wellFormed,
        Extends.refl registry, .nil⟩
  | cons atom atoms inductionHypothesis =>
      obtain _ | @⟨_, string, _, strings, head, tail⟩ := presents
      have literalRun : ∃ literal middle,
          registry.Yields
            (if row.testBit start then pure atom else negation atom) literal
            middle ∧
          middle.WellFormed ∧ registry.Extends middle ∧
            middle.Presents .named 2 literal
              (Tree.rowLiteral row (string, start)) := by
        unfold Tree.rowLiteral
        split
        · exact ⟨atom, registry, yields_pure_iff.mpr ⟨rfl, rfl⟩, wellFormed,
            Extends.refl registry,
              head.more (Tree.settled_atom string) (Nat.le_succ 1)⟩
        · exact wellFormed.exists_yields_negation head trivial
      obtain ⟨literal, middle, first, middleWellFormed, extension, shown⟩ :=
        literalRun
      have stillAtoms : middle.PresentsAtoms atoms strings :=
        PresentsAtoms.of_extends tail wellFormed middleWellFormed extension
      obtain ⟨literals, after, rest, afterWellFormed, growth, shownRest⟩ :=
        inductionHypothesis middleWellFormed stillAtoms (start + 1)
      refine ⟨literal :: literals, after, ?_, afterWellFormed,
        extension.trans growth, .cons ?_ shownRest⟩
      · rw [List.zipIdx_cons, rowLiterals_cons]
        exact first.bind (rest.bind (yields_pure_iff.mpr ⟨rfl, rfl⟩))
      · exact shown.of_extends middleWellFormed afterWellFormed growth
          (Tree.normal_rowLiteral row _).resolved

/-- The junction of formulas whose trees make up a normal junction has these
trees for its operands. -/
theorem WellFormed.exists_yields_junction
    {registry : Registry} (wellFormed : registry.WellFormed)
    {connective : Connective} {operands : List Key} {levels : Nat}
    {trees : List Tree}
    (presents : List.Forall₂ (registry.Presents .named levels) operands
      trees)
    (irreducible : Tree.Irreducible connective trees)
    (parts : ∀ tree ∈ trees, tree.Normal) :
    ∃ key name names after,
      registry.Yields (junction connective operands) key after ∧
        registry.Adds after key
          { name, owner := none, body := .junction connective names } ∧
        names.map (after.nameTree levels) = trees := by
  have operandsStored : ∀ operand ∈ operands,
      registry.node? operand ≠ none := by
    intro operand member
    obtain ⟨⟨⟨node, stored, _⟩, _⟩, _⟩ := presents_of_mem presents member
    simp [stored]
  obtain ⟨additions, found⟩ := exists_additions operandsStored
  obtain ⟨key, name, after, run, added⟩ :=
    yields_junction wellFormed connective found
  obtain ⟨names, node, _, _, stored, _, body, shapes⟩ :=
    wellFormed.exists_gathered_of_irreducible run presents irreducible parts
  rw [added.stored] at stored
  obtain rfl := Option.some.inj stored
  exact ⟨key, name, names, after, run, body ▸ added, shapes⟩

end Registry

end NamedLogic
