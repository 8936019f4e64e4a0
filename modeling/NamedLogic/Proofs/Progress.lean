import NamedLogic.Proofs.Simulation
import NamedLogic.Proofs.Tiers

/-!
# Simplification of negation normal forms succeeds

In a negation normal form only atoms are negated.  It is simplified without
new negations, so that its tiers are the levels that are needed.
-/

namespace NamedLogic

namespace Registry

/-! ## Nodes by the shapes of their trees -/

section Shapes

variable {registry : Registry} {levels : Nat} {node : Node}

theorem body_of_unfold_atom
    {string : String} (shape : registry.unfold levels node = .atom string) :
    node.body = .atom := by
  cases levels with
  | zero => cases shape
  | succ levels =>
      cases body : node.body with
      | atom => rfl
      | negation => simp [unfold_negation body] at shape
      | junction => simp [unfold_junction body] at shape
      | implication => simp [unfold_implication body] at shape
      | dnf => simp [unfold_dnf body] at shape

theorem body_of_unfold_negation
    {operand : Tree}
    (shape : registry.unfold levels node = .negation operand) :
    ∃ name below, levels = below + 1 ∧ node.body = .negation name ∧
      registry.nameTree below name = operand := by
  cases levels with
  | zero => cases shape
  | succ levels =>
      cases body : node.body with
      | atom => simp [unfold_atom body] at shape
      | negation name =>
          rw [unfold_negation body] at shape
          exact ⟨name, levels, rfl, rfl, Tree.negation.inj shape⟩
      | junction => simp [unfold_junction body] at shape
      | implication => simp [unfold_implication body] at shape
      | dnf => simp [unfold_dnf body] at shape

theorem body_of_unfold_junction
    {connective : Connective} {operands : List Tree}
    (shape : registry.unfold levels node = .junction connective operands) :
    ∃ names below, levels = below + 1 ∧
      node.body = .junction connective names ∧
        names.map (registry.nameTree below) = operands := by
  cases levels with
  | zero => cases shape
  | succ levels =>
      cases body : node.body with
      | atom => simp [unfold_atom body] at shape
      | negation => simp [unfold_negation body] at shape
      | junction inner names =>
          rw [unfold_junction body] at shape
          obtain ⟨rfl, rfl⟩ := Tree.junction.inj shape
          exact ⟨names, levels, rfl, rfl, rfl⟩
      | implication => simp [unfold_implication body] at shape
      | dnf => simp [unfold_dnf body] at shape

end Shapes

/-! ## Runs that succeed -/

/-- An update succeeds if its first step does and the rest of it does. -/
theorem Yields.exists_bind
    {α β : Type} {before middle : Registry} {first : Update α}
    {next : α → Update β} {value : α} (run : before.Yields first value middle)
    (rest : ∃ result after, middle.Yields (next value) result after) :
    ∃ result after, before.Yields (first >>= next) result after := by
  obtain ⟨result, after, restRun⟩ := rest
  exact ⟨result, after, run.bind restRun⟩

theorem exists_yields_pure
    {α : Type} (registry : Registry) (value : α) :
    ∃ result after, registry.Yields (pure value) result after :=
  ⟨value, registry, yields_pure_iff.mpr ⟨rfl, rfl⟩⟩

theorem yields_get (registry : Registry) :
    registry.Yields (get : Update Registry) registry registry :=
  yields_get_iff.mpr ⟨rfl, rfl⟩

/-- Simplification with some number of levels succeeds on every presented
negation normal form that has no more tiers. -/
def SucceedsWithin
    (levels : Nat) (placement : Placement)
    (simplify : Key → Update (Option Key)) : Prop :=
  ∀ ⦃registry : Registry⦄ ⦃large : Nat⦄ ⦃key : Key⦄ ⦃tree : Tree⦄,
    registry.WellFormed → registry.Presents placement large key tree →
      tree.NegationNormal → tree.tiers ≤ levels →
        ∃ result after, registry.Yields (simplify key) result after

theorem exists_yields_insertFresh
    (registry : Registry) (flavour : Flavour) (owner : Option Entity)
    (body : Body) :
    ∃ key after, registry.Yields (insertFresh flavour owner body) key after :=
  ⟨_, _, Yields.bind (yields_modifyGet_iff.mpr ⟨rfl, rfl⟩)
    (yields_modifyGet_iff.mpr ⟨rfl, rfl⟩)⟩

theorem exists_yields_rebuild
    (registry : Registry) (placement : Placement) (node : Node)
    (connective : Connective) (operands : List Key) :
    ∃ key after, registry.Yields
      (rebuild placement node connective operands) key after := by
  cases placement with
  | detached =>
      exact (yields_get registry).exists_bind
        ⟨_, _, yields_modifyGet_iff.mpr ⟨rfl, rfl⟩⟩
  | named =>
      exact (yields_get registry).exists_bind
        (exists_yields_insertFresh registry _ _ _)

section Runs

variable {simplify : Key → Update (Option Key)} {tiers levels : Nat}
  (simplifyGrows : ∀ key registry,
    Grows registry (registry.after (simplify key)))
  (succeeds : SucceedsWithin tiers .named simplify)

include simplifyGrows succeeds

theorem exists_yields_simplifyOperands
    {registry : Registry} (wellFormed : registry.WellFormed)
    (connective : Connective) {names : List Name}
    (negationNormal : ∀ name ∈ names,
      (registry.nameTree levels name).NegationNormal)
    (shallow : ∀ name ∈ names,
      (registry.nameTree levels name).tiers ≤ tiers) :
    ∃ operands after, registry.Yields
      (simplifyOperands simplify connective names) operands after := by
  induction names generalizing registry with
  | nil => exact ⟨_, _, yields_pure_iff.mpr ⟨rfl, rfl⟩⟩
  | cons name names inductionHypothesis =>
      have normalHead := negationNormal name List.mem_cons_self
      obtain ⟨operand, bound, presents⟩ :=
        wellFormed.exists_presents normalHead.resolved
      obtain ⟨result, middle, run⟩ := succeeds wellFormed presents normalHead
        (shallow name List.mem_cons_self)
      obtain ⟨middleWellFormed, extension⟩ :=
        run.related (simplifyGrows operand registry) wellFormed
      have kept : ∀ other ∈ names,
          middle.nameTree levels other = registry.nameTree levels other :=
        fun other member => nameTree_eq_of_extends wellFormed
          middleWellFormed extension
          (negationNormal other (List.mem_cons_of_mem _ member)).resolved
      obtain ⟨back, last, rest⟩ := inductionHypothesis middleWellFormed
        (fun other member => kept other member ▸
          negationNormal other (List.mem_cons_of_mem _ member))
        (fun other member => kept other member ▸
          shallow other (List.mem_cons_of_mem _ member))
      rw [simplifyOperands]
      refine (yields_get registry).exists_bind ?_
      rw [bound]
      refine run.exists_bind ?_
      cases result with
      | none => exact ⟨back, last, rest⟩
      | some simplified =>
          refine (yields_get middle).exists_bind ?_
          exact rest.exists_bind (exists_yields_pure last _)

theorem exists_yields_simplifyJunction
    {registry : Registry} (wellFormed : registry.WellFormed)
    (placement : Placement) (key : Key) (connective : Connective)
    {names : List Name}
    (negationNormal : ∀ name ∈ names,
      (registry.nameTree levels name).NegationNormal)
    (shallow : ∀ name ∈ names,
      (registry.nameTree levels name).tiers ≤ tiers) :
    ∃ result after, registry.Yields
      (simplifyJunction simplify placement key connective names) result
      after := by
  obtain ⟨operands, middle, collecting⟩ :=
    exists_yields_simplifyOperands simplifyGrows succeeds wellFormed
      connective negationNormal shallow
  rw [simplifyJunction]
  refine collecting.exists_bind ?_
  refine (yields_get middle).exists_bind ?_
  split
  · exact exists_yields_pure middle _
  · exact exists_yields_pure middle _
  · exact exists_yields_pure middle _
  · split
    · exact exists_yields_pure middle _
    · rename_i node _
      obtain ⟨rebuilt, after, run⟩ := exists_yields_rebuild middle placement
        node connective _
      exact run.exists_bind (exists_yields_pure after _)

end Runs

/-- The negation of an atom is simple. -/
theorem yields_simplifyNegation_of_atom
    {registry : Registry} {simplify : Key → Update (Option Key)}
    {key operandKey : Key} {operand : Name} {node : Node}
    (resolved : registry.resolve operand = some (operandKey, node))
    (isAtom : node.isAtom) :
    registry.Yields (simplifyNegation simplify key operand) (some key)
      registry := by
  refine Yields.bind (yields_get_iff.mpr ⟨rfl, rfl⟩) ?_
  rw [resolved]
  simp only [isAtom, if_true]
  exact yields_pure_iff.mpr ⟨rfl, rfl⟩

/-- As many levels as a negation normal form has tiers suffice to simplify it. -/
theorem succeedsWithin_simplifyWithin (placement : Placement) (levels : Nat) :
    SucceedsWithin levels placement (simplifyWithin levels placement) := by
  induction levels generalizing placement with
  | zero =>
      intro _ _ _ tree _ _ _ shallow
      exact absurd shallow (Nat.not_le.mpr tree.tiers_pos)
  | succ levels inductionHypothesis =>
      intro registry large key tree wellFormed presents negationNormal shallow
      obtain ⟨⟨node, stored, shape⟩, _⟩ := presents
      rw [simplifyWithin]
      refine (yields_get registry).exists_bind ?_
      rw [stored, Option.map_some]
      cases negationNormal with
      | positive string =>
          rw [body_of_unfold_atom shape]
          exact exists_yields_pure registry _
      | negative string =>
          obtain ⟨operand, below, rfl, body, inner⟩ :=
            body_of_unfold_negation shape
          have resolved : (registry.nameTree below operand).Resolved := by
            rw [inner]
            exact trivial
          obtain ⟨bearer, stands, same⟩ :=
            exists_referent_of_resolved resolved
          obtain ⟨bearerKey, bound, bearerStored⟩ :=
            (referent?_eq_some_iff operand bearer).mp stands
          have resolution : registry.resolve operand =
              some (bearerKey, bearer) := by
            simp [resolve, bound, bearerStored]
          have isAtom : bearer.isAtom := by
            rw [Node.isAtom, body_of_unfold_atom (same.symm.trans inner)]
          rw [body]
          exact ⟨_, _, yields_simplifyNegation_of_atom resolution isAtom⟩
      | joined parts =>
          obtain ⟨names, below, rfl, body, rfl⟩ :=
            body_of_unfold_junction shape
          rw [Tree.tiers_junction_le_iff] at shallow
          rw [body]
          exact exists_yields_simplifyJunction
            (grows_simplifyWithin levels .named)
            (inductionHypothesis .named) wellFormed placement key _
            (fun name member => parts _ (List.mem_map_of_mem member))
            (fun name member => shallow _ (List.mem_map_of_mem member))

/-- A negation normal form that does not have too many tiers is simplified, and
what results presents its simplification. -/
theorem WellFormed.exists_yields_simplifyWithin
    {registry : Registry} (wellFormed : registry.WellFormed)
    {placement : Placement} {levels : Nat} {key : Key} {tree : Tree}
    (within : levels ≤ registry.levels 0)
    (presents : registry.Presents placement (levels + 1) key tree)
    (negationNormal : tree.NegationNormal) (shallow : tree.tiers ≤ levels) :
    ∃ result after,
      registry.Yields (simplifyWithin levels placement key) result after ∧
        after.WellFormed ∧ registry.Extends after ∧
        Option.Rel (after.Presents placement (levels + 1)) result
          tree.simplify := by
  obtain ⟨result, after, run⟩ := succeedsWithin_simplifyWithin placement
    levels wellFormed presents negationNormal shallow
  obtain ⟨afterWellFormed, extension⟩ :=
    run.related (grows_simplifyWithin levels placement key registry)
      wellFormed
  obtain ⟨_, outcome⟩ := simulates_simplifyWithin placement levels
    wellFormed within presents negationNormal.resolved run
  exact ⟨result, after, run, afterWellFormed, extension, outcome⟩

end Registry

end NamedLogic
