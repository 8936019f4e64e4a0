import NamedLogic.Proofs.Issued
import NamedLogic.Proofs.Presentation
import NamedLogic.Proofs.Surroundings

/-!
# Constructors stay within reach

The constructors that simplification uses are not refused if they are handed
formulas within reach, and the nodes they make fit and only refer to what was
within reach before.
-/

namespace NamedLogic

/-- A name taken by adding a node to a junction is the name of the node or one
that the node looks up. -/
theorem mem_gatherOperands
    {own name : Name} {connective : Connective} {additions : List Node}
    {present : List Name}
    (member : name ∈ gatherOperands own connective present additions) :
    name ∈ present ∨ ∃ addition ∈ additions,
      name = addition.name ∨ name ∈ addition.lookups := by
  induction additions generalizing present with
  | nil => exact Or.inl member
  | cons addition additions inductionHypothesis =>
      rcases inductionHypothesis member with early | ⟨other, among, taken⟩
      · dsimp only [extendOperands] at early
        split at early
        · exact Or.inl early
        · split at early
          · rename_i names flattened
            rw [operandsUnder?_eq_some_iff] at flattened
            refine (mem_foldl_appendOperand early).imp_right fun inner =>
              ⟨addition, List.mem_cons_self, Or.inr ?_⟩
            simpa [Node.lookups, flattened, Body.references] using inner
          · exact (mem_appendOperand early).imp_right fun same =>
              ⟨addition, List.mem_cons_self, Or.inl same⟩
      · exact Or.inr ⟨other, List.mem_cons_of_mem _ among, taken⟩

namespace Registry

/-- What a name is bound to is bound to its own name. -/
theorem WellFormed.bound_of_binding
    {registry : Registry} (wellFormed : registry.WellFormed) {name : Name}
    {key : Key} (bound : registry.binding name = some key) :
    registry.Bound key := by
  obtain ⟨node, stored, rfl⟩ := wellFormed.bound bound
  exact ⟨node, stored, bound⟩

/-- What is made by a constructor is bound to its own name. -/
theorem Adds.bound_key
    {before after : Registry} {key : Key} {node : Node}
    (added : before.Adds after key node) : after.Bound key :=
  ⟨node, added.stored, added.bound⟩

/-- A property that nodes made by simplification have: nodes under names not
bound in the first place, and nodes under the name of one that fits.  The
formulas generated for nodes that fit are stored in the first place. -/
structure Tracked (base : Registry) (fits : Node → Prop) : Prop where
  recorded : ∀ {node : Node} {atoms : List Name} {rows : UInt64} {key : Key},
    fits node → node.body = .dnf atoms rows (some key) →
      ∃ formula, base.node? key = some formula
  fresh : ∀ {node : Node}, node.body.generated? = none →
    base.binding node.name = none → fits node
  renamed : ∀ {node original : Node}, node.body.generated? = none →
    node.name = original.name → fits original → fits node

/-- Nodes made by simplification do not have a name that is bound in the first
place, unless they take it from a node that has it. -/
theorem Tracked.apart
    {base : Registry} {fits : Node → Prop} (tracked : base.Tracked fits)
    {name : Name} (bound : base.binding name ≠ none) :
    base.Tracked fun node => fits node ∧ node.name ≠ name where
  recorded fitting := tracked.recorded fitting.1
  fresh plain unbound :=
    ⟨tracked.fresh plain unbound, fun same => bound (same ▸ unbound)⟩
  renamed plain same fitting :=
    ⟨tracked.renamed plain same fitting.1, same ▸ fitting.2⟩

/-- The second registry only adds nodes that fit, and the keys are covered in
it. -/
structure Tracks
    (fits : Node → Prop) (before : Registry) (placement : Placement)
    (keys : List Key) (after : Registry) : Prop where
  wellFormed : after.WellFormed
  annexes : before.Annexes fits after
  covers : ∀ key ∈ keys, after.Covers fits placement key

section Tracks

variable {fits : Node → Prop} {before middle after : Registry}
  {placement : Placement} {keys : List Key}

theorem Tracks.nil (wellFormed : before.WellFormed) :
    before.Tracks fits placement [] before :=
  ⟨wellFormed, Annexes.refl before, by simp⟩

theorem Tracks.single
    {key : Key} (wellFormed : before.WellFormed)
    (covers : before.Covers fits placement key) :
    before.Tracks fits placement [key] before :=
  ⟨wellFormed, Annexes.refl before, by simpa using covers⟩

theorem Tracks.append
    {more : List Key} (first : before.Tracks fits placement keys middle)
    (second : middle.Tracks fits placement more after) :
    before.Tracks fits placement (keys ++ more) after where
  wellFormed := second.wellFormed
  annexes := first.annexes.trans second.annexes
  covers key member := by
    rcases List.mem_append.mp member with early | late
    · exact second.annexes.covers first.wellFormed (first.covers key early)
    · exact second.covers key late

/-- What came of a first part is forgotten. -/
theorem Tracks.followed
    {other : Placement} {more : List Key}
    (first : before.Tracks fits other keys middle)
    (second : middle.Tracks fits placement more after) :
    before.Tracks fits placement more after :=
  ⟨second.wellFormed, first.annexes.trans second.annexes, second.covers⟩

theorem Tracks.of_named
    (tracks : before.Tracks fits .named keys after)
    (placement : Placement) :
    before.Tracks fits placement keys after :=
  ⟨tracks.wellFormed, tracks.annexes, fun key member =>
    (tracks.covers key member).of_named placement⟩

end Tracks

/-- The operands that a covered formula contributes are covered. -/
theorem WellFormed.covers_contribution
    {fits : Node → Prop} {registry : Registry}
    (wellFormed : registry.WellFormed) (connective : Connective)
    {operand : Key} (covers : registry.Covers fits .named operand) :
    ∀ key ∈ registry.contribution connective operand,
      registry.Covers fits .named key := by
  intro key member
  unfold contribution at member
  obtain ⟨node, stored, throughout, safe⟩ := covers
  rw [stored, Option.bind_some] at member
  split at member
  · rename_i names flattened
    rw [operandsUnder?_eq_some_iff] at flattened
    obtain ⟨name, among, bound⟩ := List.mem_filterMap.mp member
    have named : name ∈ node.lookups := by
      simpa [Node.lookups, flattened, Body.references] using among
    exact wellFormed.covers_of_binding (throughout.safe named) bound .named
  · obtain rfl := List.mem_singleton.mp member
    exact ⟨node, stored, throughout, safe⟩

section Coverage

variable {base : Registry} {fits : Node → Prop}
  (tracked : base.Tracked fits)

include tracked

/-! ## Constructors -/

section Constructors

variable {registry : Registry} (wellFormed : registry.WellFormed)
  (since : base.Extends registry)

include wellFormed since

/-- A new node under a new name is covered. -/
theorem Tracked.of_adds
    {after : Registry} {key : Key} {node : Node}
    (added : registry.Adds after key node)
    (solely : registry.Solely after key)
    (plain : node.body.generated? = none)
    (safe : ∀ name ∈ node.lookups, registry.Safe fits name) :
    registry.Tracks fits .named [key] after := by
  have unbound : base.binding node.name = none := by
    by_contra taken
    obtain ⟨bearer, bound⟩ := Option.ne_none_iff_exists'.mp taken
    have still := since.bindings bound
    rw [added.unbound] at still
    cases still
  have annexes : registry.Annexes fits after :=
    solely.annexes added.extension added.new added.stored plain
      (tracked.fresh plain unbound) safe
  have throughout : after.Throughout fits node :=
    annexes.throughout_new wellFormed added.new added.stored
  refine ⟨added.wellFormed, annexes, ?_⟩
  intro other member
  obtain rfl := List.mem_singleton.mp member
  refine ⟨node, added.stored, throughout, fun _ bearer stands => ?_⟩
  obtain ⟨key, bound, stored⟩ :=
    (referent?_eq_some_iff node.name bearer).mp stands
  rw [added.bound] at bound
  obtain rfl := Option.some.inj bound
  rw [added.stored] at stored
  exact Option.some.inj stored ▸ throughout

theorem Tracked.negation
    {operand : Key} (covers : registry.Covers fits .named operand) :
    ∃ key after, registry.Yields (negation operand) key after ∧
      registry.Tracks fits .named [key] after ∧ after.Bound key := by
  obtain ⟨node, stored, _, safe⟩ := covers
  obtain ⟨key, name, after, run, added⟩ := yields_negation wellFormed stored
  refine ⟨key, after, run, tracked.of_adds wellFormed since added
    (wellFormed.solely_negation run) rfl ?_, added.bound_key⟩
  intro other member
  obtain rfl : other = node.name := by
    simpa [Node.lookups, Body.references] using member
  exact safe rfl

theorem Tracked.junction
    (connective : Connective) {operands : List Key}
    (covers : ∀ operand ∈ operands, registry.Covers fits .named operand) :
    ∃ key after,
      registry.Yields (junction connective operands) key after ∧
        registry.Tracks fits .named [key] after ∧ after.Bound key := by
  have stored : ∀ operand ∈ operands, registry.node? operand ≠ none := by
    intro operand member absent
    obtain ⟨node, found, _⟩ := covers operand member
    rw [absent] at found
    cases found
  obtain ⟨additions, found⟩ := exists_additions stored
  obtain ⟨key, name, after, run, added⟩ :=
    yields_junction wellFormed connective found
  refine ⟨key, after, run, tracked.of_adds wellFormed since added
    (wellFormed.solely_junction run) rfl ?_, added.bound_key⟩
  intro other member
  rcases mem_gatherOperands member with absurd | ⟨addition, among, taken⟩
  · cases absurd
  · have listed : some addition ∈ operands.map registry.node? := by
      rw [found]
      exact List.mem_map_of_mem among
    obtain ⟨operand, operandMember, there⟩ := List.mem_map.mp listed
    obtain ⟨node, nodeStored, throughout, safe⟩ :=
      covers operand operandMember
    rw [there] at nodeStored
    obtain rfl := Option.some.inj nodeStored
    rcases taken with rfl | inner
    · exact safe rfl
    · exact throughout.safe inner

theorem Tracked.of_negation
    {after : Registry} {operand key : Key}
    (covers : registry.Covers fits .named operand)
    (run : registry.Yields (Registry.negation operand) key after) :
    registry.Tracks fits .named [key] after ∧ after.Bound key := by
  obtain ⟨_, _, again, tracks⟩ := tracked.negation wellFormed since covers
  obtain ⟨rfl, rfl⟩ := run.unique again
  exact tracks

theorem Tracked.of_junction
    {after : Registry} {connective : Connective} {operands : List Key}
    {key : Key}
    (covers : ∀ operand ∈ operands, registry.Covers fits .named operand)
    (run : registry.Yields (Registry.junction connective operands) key after) :
    registry.Tracks fits .named [key] after ∧ after.Bound key := by
  obtain ⟨_, _, again, tracks⟩ :=
    tracked.junction wellFormed since connective covers
  obtain ⟨rfl, rfl⟩ := run.unique again
  exact tracks

theorem Tracked.rebuild
    {key : Key} {node : Node} (stored : registry.node? key = some node)
    (fitting : fits node) (placement : Placement)
    (connective : Connective) {operands : List Key}
    (covers : ∀ operand ∈ operands, registry.Covers fits .named operand) :
    ∃ rebuilt after,
      registry.Yields (rebuild placement node connective operands) rebuilt
        after ∧
      registry.Tracks fits placement [rebuilt] after := by
  have safe : ∀ name ∈ registry.operandNames operands,
      registry.Safe fits name := by
    intro name member
    obtain ⟨operand, among, found⟩ := List.mem_filterMap.mp member
    obtain ⟨other, otherStored, rfl⟩ := Option.map_eq_some_iff.mp found
    exact ((covers operand among).of_stored otherStored).2 rfl
  cases placement with
  | detached =>
      obtain ⟨rebuilt, name, after, run, rebuilds⟩ :=
        yields_rebuild wellFormed stored .detached connective operands
      have annexes : registry.Annexes fits after :=
        (wellFormed.solely_rebuild run).annexes rebuilds.extension
          rebuilds.new rebuilds.stored rfl
          (tracked.renamed rfl (rebuilds.detached rfl) fitting) safe
      refine ⟨rebuilt, after, run, rebuilds.wellFormed, annexes, ?_⟩
      intro other member
      obtain rfl := List.mem_singleton.mp member
      exact ⟨_, rebuilds.stored,
        annexes.throughout_new wellFormed rebuilds.new rebuilds.stored,
        fun impossible => by cases impossible⟩
  | named =>
      have admits := admits_junction connective
        (wellFormed.operandNames_lt operands)
      obtain ⟨rebuilt, name, after, run, added⟩ :=
        adds_insertFresh wellFormed .compound node.owner admits
      exact ⟨rebuilt, after,
        Yields.bind (yields_get_iff.mpr ⟨rfl, rfl⟩) run,
        tracked.of_adds wellFormed since added
          (wellFormed.solely_insertFresh run) rfl safe⟩

end Constructors

end Coverage

end Registry

end NamedLogic
