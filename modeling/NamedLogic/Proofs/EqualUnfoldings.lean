import NamedLogic.Proofs.AgreeingRegistries
import NamedLogic.Proofs.RetiredKeys
import NamedLogic.Proofs.TreeComparison
import NamedLogic.Proofs.TreeText

/-!
# Formulas that unfold alike

Evaluation, rendering and structural equality see nothing of a registry but the
trees its formulas unfold to, down to the depth at which traversals are
abandoned.  Two formulas with equal trees cannot be told apart, even if they
are stored in different registries under names and keys of their own, with
parts shared or repeated, and on cycles of different lengths.
-/

namespace NamedLogic

namespace Registry

/-- The formulas stored under two keys, each in a registry of its own, unfold
to equal trees as far as traversals go. -/
def SameUnfolding
    (first second : Registry) (left right : Key) : Prop :=
  ∃ leftNode rightNode,
    first.node? left = some leftNode ∧
      second.node? right = some rightNode ∧
      first.unfold (first.levels 0) leftNode =
        second.unfold (second.levels 0) rightNode

/-- Nothing that a traversal of the formula comes to is changed from one
registry to the other: neither what names stand for nor the formulas generated
for disjunctive normal forms. -/
def Untouched (before after : Registry) (key : Key) : Prop :=
  ∃ node, before.node? key = some node ∧ after.node? key = some node ∧
    ∀ part, before.Meets node part →
      (∀ name ∈ part.lookups,
        after.referent? name = before.referent? name) ∧
      ∀ recorded ∈ part.body.generated?,
        after.node? recorded = before.node? recorded

section Unfoldings

variable {first second : Registry} {left right : Key}

/-! ## What is seen of a formula -/

theorem SameUnfolding.evaluate_eq
    {V : Type} [Interpretation V] [Extensional V]
    (same : first.SameUnfolding second left right)
    (valuation : Valuation V) :
    first.evaluate valuation left = second.evaluate valuation right := by
  obtain ⟨leftNode, rightNode, leftStored, rightStored, equal⟩ := same
  rw [first.evaluate_eq_value valuation leftStored, equal,
    second.evaluate_eq_value valuation rightStored]

theorem SameUnfolding.text_eq
    (same : first.SameUnfolding second left right) :
    first.text left = second.text right := by
  obtain ⟨leftNode, rightNode, leftStored, rightStored, equal⟩ := same
  rw [first.text_eq_text_unfold leftStored, equal,
    second.text_eq_text_unfold rightStored]

/-- Comparisons come to the same answer if both formulas unfold alike. -/
theorem SameUnfolding.alike_eq
    (firstWellFormed : first.WellFormed)
    (secondWellFormed : second.WellFormed)
    (levels : first.levels 0 = second.levels 0)
    (same : first.SameUnfolding second left right)
    {otherLeft otherRight : Key}
    (otherSame : first.SameUnfolding second otherLeft otherRight) :
    first.alike left otherLeft = second.alike right otherRight := by
  obtain ⟨leftNode, rightNode, leftStored, rightStored, equal⟩ := same
  obtain ⟨otherLeftNode, otherRightNode, otherLeftStored, otherRightStored,
    otherEqual⟩ := otherSame
  rw [firstWellFormed.alike_eq_alikeWithin leftStored otherLeftStored, equal,
    otherEqual, levels,
    secondWellFormed.alike_eq_alikeWithin rightStored otherRightStored]

end Unfoldings

/-! ## What lies elsewhere -/

theorem WellFormed.lt_of_mem_names
    {registry : Registry} (wellFormed : registry.WellFormed) {node : Node}
    (stored : node ∈ registry.stock) {name : Name}
    (member : name ∈ node.name :: node.lookups) :
    name < registry.strings.size := by
  obtain ⟨key, there⟩ := mem_stock_iff.mp stored
  rcases List.mem_cons.mp member with rfl | looked
  · exact wellFormed.named there
  · refine (wellFormed.admits there).references name ?_
    unfold Node.lookups at looked
    split at looked
    · cases looked
    · exact looked

/-- A formula that is left untouched unfolds as before. -/
theorem Untouched.sameUnfolding
    {before after : Registry} {key : Key}
    (untouched : before.Untouched after key)
    (wellFormed : before.WellFormed) (continues : before.Continues after)
    (levels : before.levels 0 = after.levels 0) :
    before.SameUnfolding after key key := by
  obtain ⟨node, stored, kept, parts⟩ := untouched
  refine ⟨node, node, stored, kept, ?_⟩
  rw [← levels]
  refine (unfold_eq_of_agrees (fun part meets => ?_) _).symm
  obtain ⟨referent, recorded⟩ := parts part meets
  refine ⟨fun name member => ?_, referent, recorded⟩
  have inside := wellFormed.lt_of_mem_names
    (meets.mem_stock (mem_stock_iff.mpr ⟨key, stored⟩)) member
  exact string_of_strings (continues.strings (strings_of_lt inside))

theorem Reachable.sameUnfolding_of_untouched
    {registry : Registry} (reachable : registry.Reachable)
    {history : List Operation} {key : Key}
    (untouched : registry.Untouched (Operation.applyAll history registry) key)
    (levels :
      registry.levels 0 = (Operation.applyAll history registry).levels 0) :
    registry.SameUnfolding (Operation.applyAll history registry) key key := by
  have ⟨node, stored, kept, _⟩ := untouched
  refine untouched.sameUnfolding reachable.wellFormed ?_ levels
  exact reachable.continues_of_stored (id_lt_of_node? stored)
    (Option.isSome_of_eq_some kept)

/-! ## Cycles of negations -/

/-- Where negations only negate one another, each of them unfolds to nothing
but negations, whatever the length of the cycle. -/
theorem unfold_eq_iterate_negation
    {registry : Registry} {cycle : List Node}
    (closed : ∀ node ∈ cycle,
      node.negated?.bind registry.referent? ∈ cycle.map some)
    (levels : Nat) {node : Node} (member : node ∈ cycle) :
    registry.unfold levels node = Tree.negation^[levels] .beyond := by
  induction levels generalizing node with
  | zero => rfl
  | succ levels inductionHypothesis =>
      obtain ⟨next, nextMember, found⟩ := List.mem_map.mp (closed node member)
      obtain ⟨operand, negates, stands⟩ :=
        Option.bind_eq_some_iff.mp found.symm
      have body : node.body = .negation operand := by
        unfold Node.negated? at negates
        split at negates
        · rename_i body
          rw [body, Option.some.inj negates]
        · cases negates
      rw [unfold_negation body, nameTree_of_referent stands,
        inductionHypothesis nextMember, Function.iterate_succ_apply']

/-! ## The two registries -/

/-- In any two registries with the same depth limit, formulas that unfold to
equal trees have the same value under every assignment of either family, or are
refused one for the same cause; they have the same text; and comparing two of
them comes to the same answer in both registries.  In particular, whatever is
done to a registry that leaves its depth limit as it is, formulas that are left
untouched keep their values and texts and compare to one another as before. -/
theorem Reachable.seen_through_unfoldings
    {first second : Registry} (firstReachable : first.Reachable)
    (secondReachable : second.Reachable)
    (sameLimit : first.settings.depthLimit.value =
      second.settings.depthLimit.value) :
    (∀ left right, first.SameUnfolding second left right →
      (∀ valuation : Valuation Bool,
        first.evaluate valuation left = second.evaluate valuation right) ∧
      (∀ valuation : Valuation Four,
        first.evaluate valuation left = second.evaluate valuation right) ∧
      first.text left = second.text right ∧
      ∀ otherLeft otherRight,
        first.SameUnfolding second otherLeft otherRight →
          first.alike left otherLeft = second.alike right otherRight) ∧
    ∀ history : List Operation,
      let final := Operation.applyAll history first
      final.settings.depthLimit.value = first.settings.depthLimit.value →
        ∀ key, first.Untouched final key →
          (∀ valuation : Valuation Bool,
            final.evaluate valuation key = first.evaluate valuation key) ∧
          (∀ valuation : Valuation Four,
            final.evaluate valuation key = first.evaluate valuation key) ∧
          final.text key = first.text key ∧
          ∀ other, first.Untouched final other →
            final.alike key other = first.alike key other := by
  have firstWellFormed := firstReachable.wellFormed
  have levels_eq : ∀ {other : Registry},
      first.settings.depthLimit.value = other.settings.depthLimit.value →
        first.levels 0 = other.levels 0 :=
    fun limits => by rw [Registry.levels, Registry.levels, limits]
  refine ⟨fun left right same => ⟨same.evaluate_eq, same.evaluate_eq,
    same.text_eq, fun otherLeft otherRight otherSame =>
      same.alike_eq firstWellFormed secondReachable.wellFormed
        (levels_eq sameLimit) otherSame⟩, ?_⟩
  intro history final limitKept key untouched
  have levels := levels_eq limitKept.symm
  have same := firstReachable.sameUnfolding_of_untouched untouched levels
  refine ⟨fun valuation => (same.evaluate_eq valuation).symm,
    fun valuation => (same.evaluate_eq valuation).symm, same.text_eq.symm,
    fun other otherUntouched => ?_⟩
  have otherSame :=
    firstReachable.sameUnfolding_of_untouched otherUntouched levels
  exact (same.alike_eq firstWellFormed
    (firstReachable.applyAll history).wellFormed levels otherSame).symm

/-- A negation of itself, and two negations of each other.  Their evaluation is
abandoned in the same way, and storing formulas next to the former changes
nothing. -/
theorem seen_through_unfoldings_of_cycles :
    let settings : Settings := {
      depthLimit :=
        { label := "depth_limit", min := 1, max := 9, value := 2 } }
    let first := replay
      [.configure settings, .atom "p", .negation ⟨1⟩, .rename ⟨2⟩ "p"]
    let second := replay
      [.configure settings, .atom "q", .negation ⟨1⟩, .negation ⟨2⟩,
        .rename ⟨3⟩ "q"]
    let final := Operation.applyAll
      [.atom "z", .negation ⟨3⟩, .setOwner ⟨1⟩ (some 7)] first
    (first.evaluate (Valuation.empty : Valuation Bool) ⟨2⟩ =
        .error .depthExceeded ∧
      first.text ⟨2⟩ = "¬¬¬…" ∧ first.alike ⟨2⟩ ⟨2⟩ = false) ∧
    ((∀ valuation : Valuation Bool,
        first.evaluate valuation ⟨2⟩ = second.evaluate valuation ⟨3⟩) ∧
      first.text ⟨2⟩ = second.text ⟨3⟩ ∧
      first.alike ⟨2⟩ ⟨2⟩ = second.alike ⟨3⟩ ⟨2⟩) ∧
    ∀ valuation : Valuation Four,
      final.evaluate valuation ⟨2⟩ = first.evaluate valuation ⟨2⟩ := by
  intro settings first second final
  have limit : first.settings.depthLimit.value =
      second.settings.depthLimit.value := by decide +kernel
  have reachable : first.Reachable := reachable_replay _
  obtain ⟨alikeInBoth, elsewhere⟩ :=
    reachable.seen_through_unfoldings (reachable_replay _) limit
  let self : Node := { name := 0, body := .negation 0 }
  let each : Node := { name := 0, body := .negation 1 }
  let other : Node := { name := 1, body := .negation 0 }
  have stored : first.node? ⟨2⟩ = some self := by decide +kernel
  have ofItself : ∀ node ∈ [self],
      node.negated?.bind first.referent? ∈ [self].map some := by
    decide +kernel
  have ofEachOther : ∀ node ∈ [each, other],
      node.negated?.bind second.referent? ∈ [each, other].map some := by
    decide +kernel
  have levels : first.levels 0 = second.levels 0 := by decide +kernel
  have same : ∀ node ∈ [each, other],
      first.unfold (first.levels 0) self =
        second.unfold (second.levels 0) node := by
    intro node member
    rw [unfold_eq_iterate_negation ofItself _ List.mem_cons_self, levels,
      unfold_eq_iterate_negation ofEachOther _ member]
  have long : first.SameUnfolding second ⟨2⟩ ⟨3⟩ :=
    ⟨self, each, stored, by decide +kernel, same each (by simp)⟩
  have short : first.SameUnfolding second ⟨2⟩ ⟨2⟩ :=
    ⟨self, other, stored, by decide +kernel, same other (by simp)⟩
  obtain ⟨values, _, texts, comparisons⟩ := alikeInBoth _ _ long
  have untouched : first.Untouched final ⟨2⟩ := by
    refine ⟨_, stored, by decide +kernel, fun part meets => ?_⟩
    have among := meets.mem_stock (mem_stock_iff.mpr ⟨_, stored⟩)
    have every : ∀ part ∈ first.stock,
        (∀ name ∈ part.lookups,
          final.referent? name = first.referent? name) ∧
        ∀ recorded ∈ part.body.generated?,
          final.node? recorded = first.node? recorded := by decide +kernel
    exact every part among
  exact ⟨⟨by decide +kernel, by decide +kernel, by decide +kernel⟩,
    ⟨values, texts, comparisons _ _ short⟩,
    (elsewhere _ (by decide +kernel) _ untouched).2.1⟩

end Registry

end NamedLogic
