import NamedLogic.Proofs.Growth
import NamedLogic.Proofs.SimplificationRuns

/-!
# Results of simplification are keys that were issued

A key that simplification yields was issued to a node, though that node may
have been dropped since: a disjunctive normal form yields the key recorded when
it was built.
-/

namespace NamedLogic

namespace Pairing

variable {α : Type}

/-- What is left of the operands is among them. -/
theorem subset_of_reduce?
    {connective : Connective} {opposed equal : α → α → Bool}
    {operands remaining : List α}
    (reduced : reduce? connective opposed equal operands = some remaining) :
    remaining ⊆ operands := by
  obtain ⟨struck, _, rfl⟩ := Option.map_eq_some_iff.mp reduced
  intro operand member
  obtain ⟨placed, kept, rfl⟩ := List.mem_map.mp member
  exact List.fst_mem_of_mem_zipIdx (List.mem_filter.mp kept).1

end Pairing

namespace Registry

/-- All the keys were issued. -/
def Issued (registry : Registry) (keys : List Key) : Prop :=
  ∀ key ∈ keys, key.id < registry.nodes.size

theorem Issued.of_extends
    {before after : Registry} {keys : List Key}
    (issued : before.Issued keys) (extension : before.Extends after) :
    after.Issued keys :=
  fun key member => Nat.lt_of_lt_of_le (issued key member) extension.issued

theorem Issued.append
    {registry : Registry} {first second : List Key}
    (firstIssued : registry.Issued first)
    (secondIssued : registry.Issued second) :
    registry.Issued (first ++ second) := by
  intro key member
  rcases List.mem_append.mp member with left | right
  · exact firstIssued key left
  · exact secondIssued key right

theorem issued_nil (registry : Registry) : registry.Issued [] := by
  intro key member
  cases member

theorem issued_of_node?
    {registry : Registry} {key : Key} {node : Node}
    (stored : registry.node? key = some node) :
    registry.Issued [key] := by
  intro other member
  obtain rfl := List.mem_singleton.mp member
  exact id_lt_of_node? stored

theorem WellFormed.issued_binding
    {registry : Registry} (wellFormed : registry.WellFormed)
    {name : Name} {key : Key} (bound : registry.binding name = some key) :
    registry.Issued [key] := by
  obtain ⟨node, stored, _⟩ := wellFormed.bound bound
  exact issued_of_node? stored

theorem WellFormed.issued_contribution
    {registry : Registry} (wellFormed : registry.WellFormed)
    {operand : Key} (issued : registry.Issued [operand])
    (connective : Connective) :
    registry.Issued (registry.contribution connective operand) := by
  unfold contribution
  split
  · intro key member
    obtain ⟨name, _, bound⟩ := List.mem_filterMap.mp member
    exact wellFormed.issued_binding bound key (List.mem_singleton_self key)
  · exact issued

theorem WellFormed.issued_negation
    {before after : Registry} (wellFormed : before.WellFormed)
    {operand key : Key} (run : before.Yields (negation operand) key after) :
    after.Issued [key] := by
  obtain ⟨_, _, looked, _⟩ := yields_bind_iff.mp run
  obtain ⟨⟨node, stored, _⟩, _⟩ := yields_operandName_iff.mp looked
  obtain ⟨_, _, _, again, added⟩ := yields_negation wellFormed stored
  obtain ⟨rfl, rfl⟩ := run.unique again
  exact issued_of_node? added.stored

theorem WellFormed.issued_junction
    {before after : Registry} (wellFormed : before.WellFormed)
    {connective : Connective} {operands : List Key} {key : Key}
    (run : before.Yields (junction connective operands) key after) :
    after.Issued [key] := by
  obtain ⟨additions, stored⟩ := additions_of_yields run
  obtain ⟨_, _, _, again, added⟩ :=
    yields_junction wellFormed connective stored
  obtain ⟨rfl, rfl⟩ := run.unique again
  exact issued_of_node? added.stored

/-! ## Runs of simplification -/

section Runs

variable {simplify : Key → Update (Option Key)}
  (simplifyGrows : ∀ key registry,
    Grows registry (registry.after (simplify key)))
  (simplifyIssued : ∀ {key before result after}, WellFormed before →
    before.Yields (simplify key) result after → after.Issued result.toList)

include simplifyGrows simplifyIssued

omit simplifyIssued in
theorem OperandsRun.grows
    {connective : Connective} {before after : Registry}
    {names : List Name} {result : List Key}
    (run : OperandsRun simplify connective before names result after) :
    before.Grows after := by
  induction run with
  | nil registry => exact Grows.refl registry
  | unbound _ _ inductionHypothesis => exact inductionHypothesis
  | vanished _ run _ inductionHypothesis
  | kept _ run _ inductionHypothesis =>
      exact (run.related (simplifyGrows _ _)).trans inductionHypothesis

omit simplifyIssued in
theorem NegationsRun.grows
    {before after : Registry} {names : List Name} {result : List Key}
    (run : NegationsRun simplify before names result after) :
    before.Grows after := by
  induction run with
  | nil registry => exact Grows.refl registry
  | unbound _ _ inductionHypothesis => exact inductionHypothesis
  | negated _ negation run _ inductionHypothesis =>
      exact (negation.related (grows_negation _ _)).trans <|
        (run.related (simplifyGrows _ _)).trans inductionHypothesis

theorem OperandsRun.issued
    {connective : Connective} {before after : Registry}
    {names : List Name} {result : List Key}
    (run : OperandsRun simplify connective before names result after)
    (wellFormed : before.WellFormed) :
    after.Issued result := by
  induction run with
  | nil registry => exact issued_nil registry
  | unbound _ _ inductionHypothesis =>
      exact inductionHypothesis wellFormed
  | vanished _ run _ inductionHypothesis =>
      exact inductionHypothesis
        (run.related (simplifyGrows _ _) wellFormed).1
  | kept _ run rest inductionHypothesis =>
      obtain ⟨middleWellFormed, _⟩ :=
        run.related (simplifyGrows _ _) wellFormed
      obtain ⟨_, later⟩ := rest.grows simplifyGrows middleWellFormed
      have front := middleWellFormed.issued_contribution
        (simplifyIssued wellFormed run) connective
      exact (front.of_extends later).append
        (inductionHypothesis middleWellFormed)

theorem NegationsRun.issued
    {before after : Registry} {names : List Name} {result : List Key}
    (run : NegationsRun simplify before names result after)
    (wellFormed : before.WellFormed) :
    after.Issued result := by
  induction run with
  | nil registry => exact issued_nil registry
  | unbound _ _ inductionHypothesis =>
      exact inductionHypothesis wellFormed
  | negated _ negation run rest inductionHypothesis =>
      obtain ⟨middleWellFormed, _⟩ :=
        negation.related (grows_negation _ _) wellFormed
      obtain ⟨nextWellFormed, _⟩ :=
        run.related (simplifyGrows _ _) middleWellFormed
      obtain ⟨_, later⟩ := rest.grows simplifyGrows nextWellFormed
      have front := simplifyIssued middleWellFormed run
      exact (front.of_extends later).append
        (inductionHypothesis nextWellFormed)

theorem JunctionRun.issued
    {placement : Placement} {key : Key} {connective : Connective}
    {before after : Registry} {names : List Name} {result : Option Key}
    (run : JunctionRun simplify placement key connective before names result
      after)
    (wellFormed : before.WellFormed) :
    after.Issued result.toList := by
  cases run with
  | decided | empty | dropped => exact issued_nil after
  | single collected reduced =>
      have issued :=
        collected.issued simplifyGrows simplifyIssued wellFormed
      intro other member
      exact issued other (Pairing.subset_of_reduce? reduced member)
  | rebuilt collected _ _ stored run =>
      obtain ⟨middleWellFormed, _⟩ :=
        collected.grows simplifyGrows wellFormed
      obtain ⟨_, _, _, again, rebuilds⟩ :=
        yields_rebuild middleWellFormed stored placement connective _
      obtain ⟨rfl, rfl⟩ := run.unique again
      exact issued_of_node? rebuilds.stored

omit simplifyGrows simplifyIssued in
theorem DualRun.issued
    {connective : Connective} {before after : Registry}
    {negated : List Key} {result : Option Key}
    (run : DualRun connective before negated result after)
    (wellFormed : before.WellFormed) (issued : before.Issued negated) :
    after.Issued result.toList := by
  cases run with
  | empty => exact issued_nil _
  | single => exact issued
  | several _ run => exact wellFormed.issued_junction run

theorem NegationRun.issued
    {key : Key} {operand : Name} {before after : Registry}
    {result : Option Key}
    (run : NegationRun simplify key before operand result after)
    (wellFormed : before.WellFormed) (issued : before.Issued [key]) :
    after.Issued result.toList := by
  cases run with
  | unresolved | vanished | dropped => exact issued_nil _
  | atom => exact issued
  | negation _ _ run =>
      obtain ⟨afterWellFormed, _⟩ :=
        run.related (simplifyGrows _ _) wellFormed
      cases bound : after.binding _ with
      | none => exact issued_nil _
      | some inner => exact afterWellFormed.issued_binding bound
  | junction _ _ run _ _ negations dual =>
      obtain ⟨middleWellFormed, _⟩ :=
        run.related (simplifyGrows _ _) wellFormed
      obtain ⟨nextWellFormed, _⟩ :=
        negations.grows simplifyGrows middleWellFormed
      exact dual.issued nextWellFormed
        (negations.issued simplifyGrows simplifyIssued middleWellFormed)
  | other _ _ run _ _ _ negation =>
      obtain ⟨middleWellFormed, _⟩ :=
        run.related (simplifyGrows _ _) wellFormed
      exact middleWellFormed.issued_negation negation

theorem ImplicationRun.issued
    {antecedent consequent : Option Name} {before after : Registry}
    {result : Option Key}
    (run : ImplicationRun simplify before antecedent consequent result after)
    (wellFormed : before.WellFormed) :
    after.Issued result.toList := by
  cases run with
  | neither => exact issued_nil _
  | conclusion _ _ run => exact simplifyIssued wellFormed run
  | premise _ _ negation run =>
      obtain ⟨middleWellFormed, _⟩ :=
        negation.related (grows_negation _ _) wellFormed
      exact simplifyIssued middleWellFormed run
  | oneSide _ _ negation leftRun rightRun oneSide =>
      obtain ⟨secondWellFormed, _⟩ :=
        negation.related (grows_negation _ _) wellFormed
      obtain ⟨thirdWellFormed, _⟩ :=
        leftRun.related (simplifyGrows _ _) secondWellFormed
      obtain ⟨_, last⟩ :=
        rightRun.related (simplifyGrows _ _) thirdWellFormed
      have left := (simplifyIssued secondWellFormed leftRun).of_extends last
      have right := simplifyIssued thirdWellFormed rightRun
      rcases oneSide with rfl | rfl
      · exact right
      · rwa [Option.or_none]
  | bothSides _ _ negation leftRun rightRun joined run =>
      obtain ⟨secondWellFormed, _⟩ :=
        negation.related (grows_negation _ _) wellFormed
      obtain ⟨thirdWellFormed, _⟩ :=
        leftRun.related (simplifyGrows _ _) secondWellFormed
      obtain ⟨fourthWellFormed, _⟩ :=
        rightRun.related (simplifyGrows _ _) thirdWellFormed
      obtain ⟨fifthWellFormed, _⟩ :=
        joined.related (grows_junction _ _ _) fourthWellFormed
      exact simplifyIssued fifthWellFormed run

theorem FormulaRun.issued
    {placement : Placement} {key : Key} {before after : Registry}
    {result : Option Key}
    (run : FormulaRun simplify placement before key result after)
    (wellFormed : before.WellFormed) :
    after.Issued result.toList := by
  cases run with
  | missing => exact issued_nil _
  | atom stored => exact issued_of_node? stored
  | negation stored _ run =>
      exact run.issued simplifyGrows simplifyIssued wellFormed
        (issued_of_node? stored)
  | junction _ _ run =>
      exact run.issued simplifyGrows simplifyIssued wellFormed
  | implication _ _ run =>
      exact run.issued simplifyGrows simplifyIssued wellFormed
  | dnf stored body =>
      have generated := (wellFormed.admits stored).generated
      rw [body] at generated
      intro formula member
      exact generated formula (Option.mem_toList.mp member)

end Runs

theorem issued_simplifyWithin
    {levels : Nat} {placement : Placement} {before after : Registry}
    {key : Key} {result : Option Key} (wellFormed : before.WellFormed)
    (run : before.Yields (simplifyWithin levels placement key) result
      after) :
    after.Issued result.toList := by
  induction levels generalizing placement before after key result with
  | zero => exact (not_yields_simplifyWithin_zero run).elim
  | succ levels inductionHypothesis =>
      exact (formulaRun_of_yields run).issued
        (grows_simplifyWithin levels .named)
        (fun wellFormed run => inductionHypothesis wellFormed run) wellFormed

end Registry

end NamedLogic
