import Mathlib.Data.List.ReduceOption
import NamedLogic.Proofs.NormalForms
import NamedLogic.Proofs.RuleLists
import NamedLogic.Proofs.Valuations

/-!
# Values under more information

In the classical logic a value that was found without asking a disjunction is
final: it stays what it is when names without a value receive one.  A
disjunction, on the other hand, counts operands without a value as false, and
may come to be true.  So a rule without disjunctions, once triggered or violated,
remains so for as long as values are only added.
-/

namespace NamedLogic

/-! ## Operands -/

/-- A value found by the first traversal is found by the second as well. -/
def Informs {V : Type} (poorer richer : Traversed (Option V)) : Prop :=
  ∀ value, poorer = .ok (some value) → richer = .ok (some value)

section Readings

variable {α : Type} {poorer richer : α → Traversed (Option Bool)}

/-- Up to the operand that decides a conjunction all are true, and stay so. -/
theorem informs_conjunction
    {operands : List α}
    (parts : ∀ operand ∈ operands,
      Informs (poorer operand) (richer operand)) :
    Informs (Classical.conjunction poorer operands)
      (Classical.conjunction richer operands) := by
  induction operands with
  | nil => exact fun _ => id
  | cons operand operands inductionHypothesis =>
      obtain ⟨first, others⟩ := List.forall_mem_cons.mp parts
      intro value found
      rw [Classical.conjunction, Traversed.bind_eq_ok_iff] at found ⊢
      obtain ⟨outcome, evaluated, rest⟩ := found
      rcases outcome with _ | truth
      · cases rest
      · refine ⟨some truth, first truth evaluated, ?_⟩
        cases truth with
        | false => exact rest
        | true => exact inductionHypothesis others value rest

/-- A true consequent decides an implication, and otherwise both sides have a
value. -/
theorem informs_implication
    {antecedent consequent : α}
    (left : Informs (poorer antecedent) (richer antecedent))
    (right : Informs (poorer consequent) (richer consequent)) :
    Informs (Classical.implication poorer antecedent consequent)
      (Classical.implication richer antecedent consequent) := by
  intro value found
  rw [Classical.implication, Traversed.bind_eq_ok_iff] at found ⊢
  obtain ⟨conclusion, evaluated, rest⟩ := found
  rcases conclusion with _ | truth
  · cases rest
  · refine ⟨some truth, right truth evaluated, ?_⟩
    cases truth with
    | true => exact rest
    | false =>
        obtain ⟨premise, found, rest⟩ := Traversed.bind_eq_ok_iff.mp rest
        rcases premise with _ | truth
        · cases rest
        · exact Traversed.bind_eq_ok_iff.mpr
            ⟨some truth, left truth found, rest⟩

end Readings

/-! ## Nodes -/

namespace Registry

variable {registry : Registry} {node : Node} {first second : Valuation Bool}

/-- No disjunction is met from the node, itself included. -/
def WithoutDisjunction (registry : Registry) (node : Node) : Prop :=
  ∀ part, registry.Meets node part →
    ∀ operands, part.body ≠ .junction .disjunction operands

theorem WithoutDisjunction.descend
    (free : registry.WithoutDisjunction node) {next : Node}
    (step : registry.Descends node next) :
    registry.WithoutDisjunction next :=
  fun part meets => free part (.further step meets)

/-- From a list of nodes that no step leaves, and among which there is no
disjunction, none is met. -/
theorem withoutDisjunction_of_closed
    {nodes : List Node}
    (closed : ∀ node ∈ nodes, registry.successors node ⊆ nodes)
    (free : ∀ node ∈ nodes, node.operandsUnder? .disjunction = none)
    (member : node ∈ nodes) : registry.WithoutDisjunction node := by
  intro part meets operands body
  have flattened := operandsUnder?_eq_some_iff.mpr body
  rw [free part (meets.comesTo.mem_of_closed closed member)] at flattened
  cases flattened

/-- The induction is on the levels; more values lead to no further refusals. -/
theorem informs_nodeValue
    (extension : first.Extends second) {levels : Nat}
    (free : registry.WithoutDisjunction node) :
    Informs (registry.nodeValue first levels node)
      (registry.nodeValue second levels node) := by
  induction levels generalizing node with
  | zero => exact fun _ => nofun
  | succ levels inductionHypothesis =>
      have nodes : ∀ next, registry.Descends node next →
          Informs (registry.nodeValue first levels next)
            (registry.nodeValue second levels next) :=
        fun next step => inductionHypothesis (free.descend step)
      have sides : ∀ side : Option Name, (∀ name ∈ side, name ∈ node.lookups) →
          Informs (registry.sideValue first levels side)
            (registry.sideValue second levels side) :=
        fun _ => sideValue_related Informs nofun nodes
      have names : ∀ name ∈ node.lookups,
          Informs (registry.sideValue first levels (some name))
            (registry.sideValue second levels (some name)) :=
        fun name named => sides _ fun _ same => Option.some.inj same ▸ named
      intro value found
      rw [nodeValue_succ] at found ⊢
      cases body : node.body with
      | atom =>
          rw [body] at found
          exact congrArg Except.ok
            (extension _ value (Except.ok.inj found))
      | negation operand =>
          simp only [body] at found ⊢
          cases evaluated :
              registry.sideValue first levels (some operand) with
          | error cause =>
              rw [evaluated] at found
              cases found
          | ok outcome =>
              rcases outcome with _ | truth
              · rw [evaluated] at found
                cases found
              · rw [evaluated] at found
                rw [names operand (Node.mem_lookups_of_negation body) truth
                  evaluated]
                exact found
      | junction connective operands =>
          rw [body] at found
          cases connective with
          | conjunction =>
              exact informs_conjunction (fun name member =>
                names name (Node.mem_lookups_of_junction body member))
                value found
          | disjunction => exact (free node (.here node) operands body).elim
      | implication antecedent consequent =>
          obtain ⟨left, right⟩ := Node.mem_lookups_of_implication body
          rw [body] at found
          exact informs_implication (sides _ left) (sides _ right) value found
      | dnf atoms rows recorded =>
          simp only [body] at found ⊢
          cases recorded with
          | none => cases found
          | some key =>
              cases present : registry.node? key with
              | none =>
                  rw [Option.bind_some, present] at found
                  cases found
              | some formula =>
                  rw [Option.bind_some, present] at found ⊢
                  exact nodes formula (.generated body present) value found

end Registry

/-! ## Rules -/

namespace World

variable {world later : World}

/-- The second world has the same rules over the same formulas, and its current
state gives every value that the current state of the first gives. -/
structure Learns (world later : World) : Prop where
  registry : later.registry = world.registry
  rules : later.rules = world.rules
  current : world.current.valuation.Extends later.current.valuation

/-- Names without a value receive one. -/
theorem learns_updates
    {entries : List (String × Bool)}
    (unvalued : ∀ entry ∈ entries,
      world.current.valuation.get? entry.1 = none) :
    world.Learns (entries.foldl
      (fun world entry => world.update entry.1 (some entry.2)) world) := by
  suffices run : ∀ later : World, world.Learns later →
      world.Learns (entries.foldl
        (fun world entry => world.update entry.1 (some entry.2)) later) from
    run world ⟨rfl, rfl, fun _ _ => id⟩
  induction entries with
  | nil => exact fun _ => id
  | cons entry entries inductionHypothesis =>
      obtain ⟨first, others⟩ := List.forall_mem_cons.mp unvalued
      intro later learns
      exact inductionHypothesis others _ ⟨learns.registry, learns.rules,
        learns.current.insert first entry.2⟩

/-- A rule that applies still applies. -/
theorem Learns.triggers
    (learns : world.Learns later) {rule : Key}
    (free : ∀ node, world.registry.node? rule = some node →
      world.registry.WithoutDisjunction node)
    (applies : world.triggers rule = .ok true) :
    later.triggers rule = .ok true := by
  obtain ⟨antecedent, consequent, sides, premise⟩ :=
    triggers_eq_true_iff.mp applies
  refine triggers_eq_true_iff.mpr ⟨antecedent, consequent, ?_, ?_⟩
  · rw [learns.registry]
    exact sides
  · refine premise.imp_right fun found => ?_
    obtain ⟨node, stored, body⟩ :=
      Option.map_eq_some_iff.mp (Registry.sides?_eq_some_iff.mp sides)
    rw [learns.registry]
    exact Registry.sideValue_related Informs nofun
      (fun next step => Registry.informs_nodeValue learns.current
        ((free node stored).descend step))
      (Node.mem_lookups_of_implication body).1 true found

end World

/-- A value found in the classical logic, without a disjunction being met, is
found again wherever more values are given.  It follows that, as long as both
lists of rules are found, a triggered rule from which no disjunction is met stays
triggered, and a violated one stays violated, in a world that has learned the
values of some names. -/
theorem Registry.values_final_without_disjunction
    {registry : Registry} {key : Key}
    (free : ∀ node, registry.node? key = some node →
      registry.WithoutDisjunction node) :
    (∀ first second : Valuation Bool, first.Extends second →
      ∀ value, registry.evaluate first key = .ok (some value) →
        registry.evaluate second key = .ok (some value)) ∧
    ∀ world later : World, world.registry = registry → world.Learns later →
      (∀ before after, world.triggeredRules = .ok before →
        later.triggeredRules = .ok after → key ∈ before → key ∈ after) ∧
      ∀ before after, world.violatedRules = .ok before →
        later.violatedRules = .ok after → key ∈ before → key ∈ after := by
  have final : ∀ {first second : Valuation Bool}, first.Extends second →
      Informs (registry.evaluate first key)
        (registry.evaluate second key) := by
    intro first second extension value found
    unfold Registry.evaluate at found ⊢
    cases stored : registry.node? key with
    | none =>
        rw [stored] at found
        cases found
    | some node =>
        rw [stored] at found
        exact informs_nodeValue extension (free node stored) value found
  refine ⟨fun _ _ => final, ?_⟩
  rintro world later rfl learns
  constructor
  · intro before after triggering triggeringLater member
    obtain ⟨among, applies⟩ := (World.mem_of_select triggering).mp member
    exact (World.mem_of_select triggeringLater).mpr
      ⟨learns.rules ▸ among, learns.triggers free applies⟩
  · intro before after violating violatingLater member
    rw [World.eq_filter_of_violatedRules violating, List.mem_filter,
      decide_eq_true_iff] at member
    rw [World.eq_filter_of_violatedRules violatingLater, List.mem_filter,
      decide_eq_true_iff, learns.rules, World.value, learns.registry]
    exact member.imp_right (final learns.current false)

/-- A rule from a disjunctive normal form with a single row to a conjunction of an
atom and a negated atom.  The latter has no value at first. -/
theorem World.violated_after_update :
    let furnished := World.replay
      [.atom "p", .atom "q", .dnf [⟨1⟩, ⟨2⟩] 8, .atom "r", .atom "s",
        .negation ⟨8⟩, .junction .conjunction [⟨7⟩, ⟨9⟩]]
      [(some ⟨6⟩, some ⟨10⟩)] []
    let world := furnished.setCurrent
      { id := 1,
        valuation := Valuation.ofList
          [("p", true), ("q", true), ("r", false)] }
    let later := world.update "s" (some true)
    world.rules = [⟨11⟩] ∧ world.value ⟨9⟩ = .ok none ∧
      later.value ⟨9⟩ = .ok (some false) ∧
      world.value ⟨11⟩ = .ok (some false) ∧
      later.value ⟨11⟩ = .ok (some false) ∧
      ∃ triggered violated, later.triggeredRules = .ok triggered ∧
        later.violatedRules = .ok violated ∧
        ⟨11⟩ ∈ triggered ∧ ⟨11⟩ ∈ violated := by
  intro furnished world later
  let nodes := world.registry.nodes.toList.reduceOption.filter fun node =>
    node.operandsUnder? .disjunction = none
  have closed : ∀ node ∈ nodes,
      world.registry.successors node ⊆ nodes := by decide +kernel
  have free : ∀ node, world.registry.node? ⟨11⟩ = some node →
      world.registry.WithoutDisjunction node := by
    have among : ∀ node ∈ world.registry.node? ⟨11⟩, node ∈ nodes := by
      decide +kernel
    exact fun node stored => Registry.withoutDisjunction_of_closed closed
      (by decide +kernel) (among node stored)
  have unvalued : ∀ entry ∈ [("s", true)],
      world.current.valuation.get? entry.1 = none := by decide +kernel
  have learns : world.Learns later := World.learns_updates unvalued
  obtain ⟨final, lists⟩ := Registry.values_final_without_disjunction free
  obtain ⟨triggers, violates⟩ := lists world later rfl learns
  have triggering : later.triggeredRules = .ok [⟨11⟩] := by decide +kernel
  have violating : later.violatedRules = .ok [⟨11⟩] := by decide +kernel
  have evaluated : world.value ⟨11⟩ = .ok (some false) := by decide +kernel
  exact ⟨by decide +kernel, by decide +kernel, by decide +kernel, evaluated,
    final _ _ learns.current false evaluated, _, _, triggering, violating,
    triggers [⟨11⟩] _ (by decide +kernel) triggering (by simp),
    violates [⟨11⟩] _ (by decide +kernel) violating (by simp)⟩

end NamedLogic
