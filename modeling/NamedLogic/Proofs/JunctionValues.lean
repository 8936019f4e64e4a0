import NamedLogic.Proofs.ClassicalAgreement
import NamedLogic.Proofs.OperandSequences
import NamedLogic.Proofs.Outcomes
import NamedLogic.Proofs.Representation

/-!
# Values of new junctions

A new junction takes over the operands of junctions of the same kind, and takes
no name twice.  Its value is nevertheless what each logic makes of the values of
the formulas given, in their order.
-/

namespace NamedLogic

open Interpretation

namespace Registry

variable {registry : Registry} {node : Node}

/-! ## Formulas whose names are all bound -/

/-- Every name met from a node is bound. -/
def Closed (registry : Registry) (node : Node) : Prop :=
  ∀ part, registry.Meets node part →
    ∀ name ∈ part.lookups, registry.binding name ≠ none

theorem WellFormed.referent?_ne_none
    (wellFormed : registry.WellFormed) {name : Name}
    (bound : registry.binding name ≠ none) :
    registry.referent? name ≠ none := by
  obtain ⟨key, present⟩ := Option.ne_none_iff_exists'.mp bound
  obtain ⟨node, stored, _⟩ := wellFormed.bound present
  rw [(referent?_eq_some_iff name node).mpr ⟨key, present, stored⟩]
  exact Option.some_ne_none node

theorem Closed.gaps_eq_nil
    (closed : registry.Closed node) (wellFormed : registry.WellFormed)
    (levels : Nat) : (registry.unfold levels node).gaps = [] := by
  refine Tree.gaps_eq_nil_of_every <| every_unfold (.inl nofun)
    (fun part _ below => unfold_ne_unresolved (below + 1) part) ?_
  refine fun part meets => ⟨fun name named nothing => ?_, ?_, ?_⟩
  · exact (wellFormed.referent?_ne_none (closed part meets name named)
      nothing).elim
  · exact fun _ _ _ _ => nofun
  · exact fun _ _ _ _ _ => nofun

/-- Where the names looked up in stored nodes are all bound, stored nodes are
closed. -/
theorem closed_of_stock
    (bound : ∀ part ∈ registry.stock, ∀ name ∈ part.lookups,
      registry.binding name ≠ none)
    {key : Key} (stored : registry.node? key = some node) :
    registry.Closed node :=
  fun part meets =>
    bound part (meets.mem_stock (mem_stock_iff.mpr ⟨key, stored⟩))

/-- The names that a closed formula offers to a junction are bound. -/
theorem Closed.bound_of_mem_offered
    (closed : registry.Closed node)
    (itself : registry.binding node.name ≠ none) {connective : Connective}
    {name : Name} (member : name ∈ node.offered connective) :
    registry.binding name ≠ none := by
  unfold Node.offered at member
  cases flattened : node.operandsUnder? connective with
  | some names =>
      rw [flattened] at member
      have body := operandsUnder?_eq_some_iff.mp flattened
      exact closed node (.here node) name
        (Node.mem_lookups_of_junction body member)
  | none =>
      rw [flattened] at member
      obtain rfl := List.mem_singleton.mp member
      exact itself

/-! ## The value of a junction -/

section Values

variable {V : Type} [Interpretation V] [Extensional V]
  {valuation : Valuation V}

theorem junction_eq_joined
    {α : Type} (connective : Connective) (value : α → Traversed (Option V))
    (operands : List α) :
    Interpretation.junction connective value operands =
      joined connective (operands.map value) := by
  cases connective with
  | conjunction => exact (Extensional.conjunction_map id value operands).symm
  | disjunction => exact (Extensional.disjunction_map id value operands).symm

theorem nodeValue_junction
    {connective : Connective} {operands : List Name}
    (body : node.body = .junction connective operands) (levels : Nat) :
    registry.nodeValue valuation (levels + 1) node =
      joined connective (operands.map fun name =>
        registry.sideValue valuation levels (some name)) := by
  have reads := junction_eq_joined connective
    (registry.sideValue valuation levels ∘ some) operands
  rw [nodeValue_succ, body]
  cases connective <;> exact reads

variable [Sequential V]

/-- The names that a formula offers have the effect of the formula, which is
found one level further up if it is not a junction of the same kind. -/
theorem joined_offered_append
    {levels : Nat} (stands : registry.referent? node.name = some node)
    (connective : Connective) (rest : List (Traversed (Option V))) :
    joined connective ((node.offered connective).map
        (fun name => registry.sideValue valuation levels (some name)) ++
          rest) =
      joined connective
        [registry.nodeValue valuation
            (if (node.operandsUnder? connective).isSome then levels + 1
              else levels) node,
          joined connective rest] := by
  unfold Node.offered
  cases flattened : node.operandsUnder? connective with
  | some names =>
      have body := operandsUnder?_eq_some_iff.mp flattened
      rw [Option.getD_some, joined_append, Option.isSome_some, if_pos rfl,
        nodeValue_junction body]
  | none =>
      rw [Option.getD_none, List.map_singleton, sideValue_of_referent stands]
      exact Sequential.joined_cons connective _ rest

/-- A junction that takes the names its formulas offer, each once, yields what
the formulas yield in sequence. -/
theorem joined_of_nodeValue_junction
    [Persistent V] {connective : Connective} {additions : List Node}
    (body : node.body = .junction connective
      ((additions.flatMap (Node.offered connective)).foldl appendNew []))
    (stands : ∀ addition ∈ additions,
      registry.referent? addition.name = some addition)
    {levels : Nat} {outcome : Option V}
    (found : registry.nodeValue valuation (levels + 1) node = .ok outcome) :
    joined connective
      (additions.map (registry.nodeValue valuation (levels + 1))) =
        .ok outcome := by
  rw [nodeValue_junction body, joined_foldl_appendNew, List.nil_append,
    List.map_flatMap, joined_flatMap connective fun addition member rest =>
      joined_offered_append (stands addition member) connective rest,
    ← junction_eq_joined] at found
  rw [← junction_eq_joined]
  have persists : Persists
      (fun addition : Node => registry.nodeValue valuation
        (if (addition.operandsUnder? connective).isSome then levels + 1
          else levels) addition)
      (registry.nodeValue valuation (levels + 1)) := by
    intro addition outcome found
    refine nodeValue_persists_of_le ?_ addition outcome found
    split <;> omega
  cases connective with
  | conjunction => exact Persistent.conjunction persists found
  | disjunction => exact Persistent.disjunction persists found

end Values

/-- The values of stored formulas, from their nodes. -/
theorem map_evaluate
    {V : Type} [Interpretation V] {valuation : Valuation V}
    {keys : List Key} {additions : List Node}
    (stored : keys.map registry.node? = additions.map some) :
    keys.map (registry.evaluate valuation) =
      additions.map (registry.nodeValue valuation (registry.levels 0)) := by
  let valueOf (found : Option Node) : Traversed (Option V) :=
    found.elim (.ok none) (registry.nodeValue valuation (registry.levels 0))
  have composed : registry.evaluate valuation = valueOf ∘ registry.node? := by
    funext key
    simp only [Function.comp, valueOf]
    unfold evaluate
    cases registry.node? key <;> rfl
  calc
    keys.map (registry.evaluate valuation)
      = (keys.map registry.node?).map valueOf := by
        rw [composed, List.map_map]
    _ = (additions.map some).map valueOf := by rw [stored]
    _ = additions.map (registry.nodeValue valuation (registry.levels 0)) :=
        List.map_map

/-- A formula has the value that a rule gives for the values of others.  If the
formula has a value, evaluating the others in sequence leads to it, and so does
the rule once all of them have an outcome. -/
def FollowsRule
    {V : Type} [Interpretation V] (rule : List (Option V) → Option V)
    (connective : Connective) (registry : Registry) (key : Key)
    (others : List Key) : Prop :=
  ∀ (valuation : Valuation V) outcome,
    registry.evaluate valuation key = .ok outcome →
      Interpretation.junction connective (registry.evaluate valuation)
          others = .ok outcome ∧
        ∀ values : List (Option V),
          others.map (registry.evaluate valuation) = values.map .ok →
            outcome = rule values

theorem followsRule_of_gathered
    {V : Type} [Interpretation V] [Extensional V] [Sequential V]
    [Persistent V] {rule : List (Option V) → Option V}
    {connective : Connective}
    (applies : ∀ values : List (Option V),
      joined connective (values.map .ok) = .ok (rule values))
    {key : Key} {keys : List Key} {additions : List Node}
    (stored : registry.node? key = some node)
    (body : node.body = .junction connective
      ((additions.flatMap (Node.offered connective)).foldl appendNew []))
    (present : keys.map registry.node? = additions.map some)
    (stands : ∀ addition ∈ additions,
      registry.referent? addition.name = some addition) :
    FollowsRule rule connective registry key keys := by
  intro valuation outcome found
  rw [evaluate, stored] at found
  have positive : registry.levels 0 = registry.settings.depthLimit.value + 1 :=
    rfl
  have sequence : keys.map (registry.evaluate valuation) = _ :=
    map_evaluate present
  rw [positive] at found sequence
  have reads := joined_of_nodeValue_junction body stands found
  rw [← sequence] at reads
  refine ⟨(junction_eq_joined _ _ _).trans reads, fun values given => ?_⟩
  rw [given, applies] at reads
  exact (Except.ok.inj reads).symm

/-- Flattening and dropping of repeated names cannot be seen by evaluation.  If
every formula given is bound to its own name, and every name met from it is
bound, a junction is formed without a refusal and none of the formulas changes
its value.  Whenever the junction has a value within the levels allowed, it is
the one that the rule of the logic gives for the values of the formulas, in their
order; and this holds of both logics and under every valuation. -/
theorem Reachable.junction_follows_rule
    (reachable : registry.Reachable) (connective : Connective)
    {keys : List Key} (bound : ∀ key ∈ keys, registry.Bound key)
    (closed : ∀ key ∈ keys, ∀ node, registry.node? key = some node →
      registry.Closed node) :
    ∃ made final, registry.Yields (junction connective keys) made final ∧
      (∀ key ∈ keys,
        (∀ valuation : Valuation Bool,
          final.evaluate valuation key = registry.evaluate valuation key) ∧
        ∀ valuation : Valuation Four,
          final.evaluate valuation key = registry.evaluate valuation key) ∧
      FollowsRule (Classical.rule connective) connective final made keys ∧
      FollowsRule (Belnap.rule connective) connective final made keys := by
  have wellFormed := reachable.wellFormed
  have present : ∀ key ∈ keys, registry.node? key ≠ none := by
    intro key member
    obtain ⟨node, there, _⟩ := bound key member
    rw [there]
    exact Option.some_ne_none node
  obtain ⟨additions, stored⟩ := exists_additions present
  have itself : ∀ addition ∈ additions, ∃ key ∈ keys,
      registry.node? key = some addition ∧
        registry.binding addition.name = some key := by
    intro addition member
    obtain ⟨key, present, there⟩ := (mem_additions_iff stored).mp member
    exact ⟨key, present, there, (bound key present).binding_of_stored there⟩
  have named : ∀ addition ∈ additions,
      registry.binding addition.name ≠ none := by
    intro addition member
    obtain ⟨key, _, _, isBound⟩ := itself addition member
    rw [isBound]
    exact Option.some_ne_none key
  obtain ⟨made, _, final, run, _⟩ :=
    yields_junction wellFormed connective stored
  obtain ⟨node, added, body⟩ := wellFormed.adds_gathered run stored named
    fun addition member name offered => by
      obtain ⟨key, present, there, _⟩ := itself addition member
      exact (closed key present addition there).bound_of_mem_offered
        (named addition member) offered
  have kept : keys.map final.node? = additions.map some := by
    rw [← stored]
    refine List.map_congr_left fun key member => ?_
    obtain ⟨node, there, _⟩ := bound key member
    rw [there, added.extension.node? there]
  have stands : ∀ addition ∈ additions,
      final.referent? addition.name = some addition := by
    intro addition member
    obtain ⟨key, _, there, isBound⟩ := itself addition member
    exact (referent?_eq_some_iff _ _).mpr ⟨key,
      added.extension.bindings isBound, added.extension.node? there⟩
  have same : ∀ {V : Type} [Interpretation V] [Extensional V]
      (valuation : Valuation V), ∀ key ∈ keys,
        final.evaluate valuation key = registry.evaluate valuation key := by
    intro V _ _ valuation key member
    obtain ⟨node, there, _⟩ := bound key member
    refine registry.evaluate_eq_of_unfold_eq valuation added.extension there ?_
    rw [added.extension.levels_eq]
    exact unfold_eq_of_gaps_eq_nil wellFormed added.wellFormed
      added.extension there
      ((closed key member node there).gaps_eq_nil wellFormed _)
  exact ⟨made, final, run,
    fun key member => ⟨fun valuation => same valuation key member,
      fun valuation => same valuation key member⟩,
    followsRule_of_gathered (Classical.joined_ok connective) added.stored body
      kept stands,
    followsRule_of_gathered (Belnap.joined_ok connective) added.stored body
      kept stands⟩

/-- A conjunction of a conjunction and its operands, the other way round, has two
operands only.  Without a value for the second of them, the first of the formulas
given leaves it without a value in the classical logic and makes it false in the
other. -/
theorem junction_follows_rule_of_repetition :
    let registry := replay
      [.atom "p", .atom "q", .junction .conjunction [⟨1⟩, ⟨2⟩]]
    let keys : List Key := [⟨3⟩, ⟨2⟩, ⟨1⟩]
    let final := registry.after (junction .conjunction keys)
    let classical : Valuation Bool := Valuation.ofList [("p", true)]
    let four : Valuation Four := Valuation.ofList [("p", Four.top)]
    registry.Yields (junction .conjunction keys) ⟨4⟩ final ∧
      (final.node? ⟨4⟩).map Node.references = some [0, 1] ∧
      final.evaluate classical ⟨4⟩ = .ok none ∧
      Classical.rule .conjunction [none, none, some true] = none ∧
      final.evaluate four ⟨4⟩ = .ok (some Four.falsity) ∧
      Belnap.rule .conjunction [some Four.falsity, none, some Four.top] =
        some Four.falsity := by
  intro registry keys final classical four
  have reachable : registry.Reachable := reachable_replay _
  have named : ∀ part ∈ registry.stock, ∀ name ∈ part.lookups,
      registry.binding name ≠ none := by decide +kernel
  have bound : ∀ key ∈ keys, registry.Bound key := by
    have own : ∀ key ∈ keys, (registry.node? key).any fun node =>
        registry.binding node.name == some key := by decide +kernel
    exact fun key member => bound_of_any (own key member)
  obtain ⟨made, other, run, _, inClassical, inFour⟩ :=
    reachable.junction_follows_rule .conjunction bound
      fun _ _ _ stored => closed_of_stock named stored
  have again : registry.Yields (junction .conjunction keys) ⟨4⟩ final :=
    yields_after (by decide +kernel)
  obtain ⟨rfl, rfl⟩ := run.unique again
  have classicalFound : final.evaluate classical ⟨4⟩ = .ok none := by
    decide +kernel
  have fourFound : final.evaluate four ⟨4⟩ = .ok (some Four.falsity) := by
    decide +kernel
  exact ⟨again, by decide +kernel, classicalFound,
    ((inClassical classical none classicalFound).2 _
      (by decide +kernel)).symm,
    fourFound,
    ((inFour four _ fourFound).2 _ (by decide +kernel)).symm⟩

end Registry

end NamedLogic
