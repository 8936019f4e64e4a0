import NamedLogic.Proofs.AgreeingRegistries
import NamedLogic.Proofs.EndlessReferences
import NamedLogic.Proofs.GroundedConstruction

/-!
# Adopting a simplification

The simplification of a junction may carry the name of the junction, and
registering it then puts it in the place of the junction.  Where all names
referred to stand and none refers to itself, this is safe.  Whatever the operands
of the junction lead to bears another name, and simplification makes nothing
under that name that its operands could refer to.  So the new references of the
name do not lead back to it, and formulas from which it is not looked up do not
notice.
-/

namespace NamedLogic

namespace Registry

/-! ## Founded registries in the course of simplification -/

section Founded

variable {before after : Registry} {key : Key}

theorem Bound.stands
    (bound : before.Bound key) (wellFormed : before.WellFormed) {node : Node}
    (stored : before.node? key = some node) :
    (before.referent? node.name).isSome :=
  wellFormed.stands_iff.mpr ⟨key, bound.binding_of_stored stored⟩

theorem Founded.negation
    (founded : before.Founded) {operand : Key} (bound : before.Bound operand)
    (run : before.Yields (negation operand) key after) :
    after.Founded ∧ after.Bound key := by
  obtain ⟨node, stored, _⟩ := id bound
  obtain ⟨_, _, _, again, added⟩ :=
    yields_negation founded.wellFormed stored
  obtain ⟨rfl, rfl⟩ := run.unique again
  refine ⟨founded.of_adds added (founded.wellFormed.solely_negation run) ?_,
    added.bound_key⟩
  intro reference member
  obtain rfl : reference = node.name := by
    simpa [Node.references, Body.references] using member
  exact bound.stands founded.wellFormed stored

theorem Founded.junction
    (founded : before.Founded) {connective : Connective}
    {operands : List Key} (bound : ∀ operand ∈ operands, before.Bound operand)
    (run : before.Yields (junction connective operands) key after) :
    after.Founded ∧ after.Bound key := by
  obtain ⟨additions, stored⟩ := additions_of_yields run
  obtain ⟨_, _, _, again, added⟩ :=
    yields_junction founded.wellFormed connective stored
  obtain ⟨rfl, rfl⟩ := run.unique again
  refine ⟨founded.of_adds added (founded.wellFormed.solely_junction run) ?_,
    added.bound_key⟩
  intro reference member
  obtain ⟨operand, among, addition, found, held⟩ :=
    exists_held_of_gathered stored member
  rcases List.mem_cons.mp held with rfl | referred
  · exact (bound operand among).stands founded.wellFormed found
  · exact founded.referred operand addition found reference referred

theorem WellFormed.operandNames_stand
    (wellFormed : before.WellFormed) {operands : List Key}
    (bound : ∀ operand ∈ operands, before.Bound operand) {name : Name}
    (member : name ∈ before.operandNames operands) :
    (before.referent? name).isSome := by
  obtain ⟨operand, among, named⟩ := List.mem_filterMap.mp member
  obtain ⟨node, found, rfl⟩ := Option.map_eq_some_iff.mp named
  exact (bound operand among).stands wellFormed found

theorem Founded.rebuilt
    (founded : before.Founded) {node : Node} {connective : Connective}
    {operands : List Key} (bound : ∀ operand ∈ operands, before.Bound operand)
    (run : before.Yields (rebuild .named node connective operands) key
      after) :
    after.Founded ∧ after.Bound key := by
  have wellFormed := founded.wellFormed
  obtain ⟨_, _, _, insertion, added⟩ := adds_insertFresh wellFormed .compound
    node.owner (admits_junction connective (wellFormed.operandNames_lt operands))
  obtain ⟨rfl, rfl⟩ := (yields_get_bind_iff.mp run).unique insertion
  exact ⟨founded.of_adds added (wellFormed.solely_rebuild run)
    fun _ => wellFormed.operandNames_stand bound, added.bound_key⟩

end Founded

/-- Simplification keeps a registry founded, and what it yields is bound to its
own name, provided it comes upon no generated formula. -/
theorem upheld_founded
    {base : Registry} {fits : Node → Prop}
    (elementary : ∀ node, fits node → node.Elementary) :
    Upheld base fits Founded fun _ keys after =>
      ∀ key ∈ keys, after.Bound key where
  negation {registry operand} founded bound := by
    obtain ⟨_, stored, _⟩ := id bound
    obtain ⟨_, _, _, run, _⟩ := yields_negation founded.wellFormed stored
    exact run.after_eq ▸ (founded.negation bound run).1
  nil _ := by simp
  sublist told fewer key member := told key (fewer.subset member)
  earlier _ told := told
  append first second key member := by
    rcases List.mem_append.mp member with early | late
    · exact (first.told rfl key early).of_extends
        second.tracks.annexes.extension
    · exact second.told rfl key late
  atom _ bound _ _ := List.forall_mem_singleton.mpr bound
  literal _ _ bound _ _ _ _ := List.forall_mem_singleton.mpr bound
  generated _ _ fitting body := by
    have plain := elementary _ fitting
    simp [Node.Elementary, body, Body.generated?] at plain
  contribution {_ after key} connective upholds other member := by
    unfold contribution at member
    split at member
    · obtain ⟨_, _, bound⟩ := List.mem_filterMap.mp member
      exact upholds.tracks.wellFormed.bound_of_binding bound
    · obtain rfl := List.mem_singleton.mp member
      exact upholds.told rfl other (List.mem_singleton_self other)
  inner upholds _ _ bound := List.forall_mem_singleton.mpr
    (upholds.tracks.wellFormed.bound_of_binding bound)
  negated upholds run := by
    obtain ⟨founded, bound⟩ := upholds.kept.negation
      (upholds.told rfl _ (List.mem_singleton_self _)) run
    exact ⟨founded, List.forall_mem_singleton.mpr bound⟩
  joined upholds run := by
    obtain ⟨founded, bound⟩ := upholds.kept.junction (upholds.told rfl) run
    exact ⟨founded, List.forall_mem_singleton.mpr bound⟩
  rebuilt upholds reduced run := by
    obtain ⟨founded, bound⟩ := upholds.kept.rebuilt
      (fun operand member => upholds.told rfl operand
        (Pairing.subset_of_reduce? reduced member)) run
    exact ⟨founded, List.forall_mem_singleton.mpr bound⟩

/-! ## What the operands lead to -/

end Registry

/-- No formula was generated for the node, and it has another name. -/
def Node.Apart (name : Name) (node : Node) : Prop :=
  node.Elementary ∧ node.name ≠ name

namespace Registry

section Apart

variable {registry : Registry} {node : Node}

/-- Whatever one comes to from a node that stands for its name has another name
if no name refers to itself. -/
theorem Founded.safe_apart
    (founded : registry.Founded)
    (plain : ∀ part, registry.Meets node part →
      ∀ atoms rows generated, part.body ≠ .dnf atoms rows generated)
    (own : registry.referent? node.name = some node)
    {name : Name} (named : name ∈ node.lookups) :
    registry.Safe (Node.Apart node.name) name := by
  intro bearer bears part comes
  have step : registry.Descends node bearer := .operand named bears
  have below : ∀ part, registry.Meets bearer part →
      ∀ atoms rows generated, part.body ≠ .dnf atoms rows generated :=
    fun part meets => plain part (.further step meets)
  refine ⟨throughout_elementary below part comes, fun same => ?_⟩
  obtain ⟨reached, reachedStands, path⟩ := exists_refers_of_looksUp
    ((meets_of_comesTo below comes).looksUp below) bears
  obtain ⟨key, bound, stored⟩ :=
    (referent?_eq_some_iff reached part).mp reachedStands
  obtain rfl := founded.wellFormed.named_of_binding bound stored
  have refers : registry.Refers node.name name :=
    refers_iff.mpr ⟨node, own, Node.mem_references named⟩
  exact founded.acyclic node.name (.head' refers (same ▸ path))

/-- From a formula with a normal tree no references lead to a name that nothing
has that one comes to. -/
theorem not_refers_of_apart
    {name : Name} {operand : Key} {levels : Nat} {tree : Tree}
    (wellFormed : registry.WellFormed)
    (covers : registry.Covers (Node.Apart name) .named operand)
    (presents : registry.Presents .named (levels + 1) operand tree)
    (normal : tree.Normal) (stored : registry.node? operand = some node)
    (stands : (registry.referent? name).isSome) :
    ¬ Relation.ReflTransGen registry.Refers node.name name := by
  obtain rfl := presents.unfold_eq stored
  obtain ⟨throughout, _⟩ := covers.of_stored stored
  intro path
  have bears : registry.referent? node.name = some node :=
    (referent?_eq_some_iff _ _).mpr
      ⟨operand, (presents.bound rfl).binding_of_stored stored, stored⟩
  obtain ⟨part, partStands⟩ := Option.isSome_iff_exists.mp stands
  have comes := (Meets.of_looksUp (looksUp_along_references
    (plain_of_normal normal) (.here node) bears path partStands)).comesTo
  obtain ⟨key, bound, partStored⟩ :=
    (referent?_eq_some_iff name part).mp partStands
  exact (throughout part comes).2
    (wellFormed.named_of_binding bound partStored)

end Apart

/-! ## Registering -/

section Register

variable {before after registry : Registry} {key : Key} {node : Node}

theorem yields_register (stored : registry.node? key = some node) :
    registry.Yields (register key)
      ((registry.binding node.name).filter (· != key))
      (registry.bind node.name key).2 :=
  Yields.bind (yields_operandName_iff.mpr ⟨⟨node, stored, rfl⟩, rfl⟩)
    (yields_modifyGet_iff.mpr ⟨rfl, rfl⟩)

theorem WellFormed.binding_bind_of_stored
    (wellFormed : registry.WellFormed)
    (stored : registry.node? key = some node) (other : Name) :
    (registry.bind node.name key).2.binding other =
      if other = node.name then some key else registry.binding other :=
  binding_bind (Nat.lt_of_lt_of_eq (wellFormed.named stored)
    wellFormed.slots.symm) key other

/-- The second registry is the first one with a node that no name is bound to.
The names the node refers to stand, and do not lead to the name of the node. -/
structure Detached (before after : Registry) (key : Key) (node : Node) :
    Prop where
  wellFormed : after.WellFormed
  extension : before.Extends after
  solely : before.Solely after key
  stored : after.node? key = some node
  unbound : ∀ name, after.binding name ≠ some key
  standing : ∀ name ∈ node.references, (before.referent? name).isSome
  apart : ∀ name ∈ node.references,
    ¬ Relation.ReflTransGen before.Refers name node.name

theorem Founded.of_detached
    (founded : before.Founded) (detached : before.Detached after key node) :
    after.Founded :=
  founded.of_solely detached.wellFormed detached.solely detached.stored
    (fun _ => detached.extension.stands)
    (fun name member => detached.extension.stands
      (detached.standing name member))
    fun bound => (detached.unbound _ bound).elim

/-- A junction rebuilt under the name of the original is such a node if the names
of its operands do not lead to that name. -/
theorem Founded.detached_of_rebuild
    (founded : before.Founded) {original : Key}
    (stored : before.node? original = some node) {connective : Connective}
    {operands : List Key} (bound : ∀ operand ∈ operands, before.Bound operand)
    (apart : ∀ operand ∈ operands, ∀ bearer,
      before.node? operand = some bearer →
        ¬ Relation.ReflTransGen before.Refers bearer.name node.name)
    (run : before.Yields (rebuild .detached node connective operands) key
      after) :
    before.Detached after key
      { node with
        body := .junction connective (before.operandNames operands) } := by
  have wellFormed := founded.wellFormed
  obtain ⟨_, _, _, again, rebuilds⟩ :=
    yields_rebuild wellFormed stored .detached connective operands
  obtain ⟨rfl, rfl⟩ := run.unique again
  obtain ⟨_, found, unbound⟩ := wellFormed.detached_of_rebuild run
  refine ⟨rebuilds.wellFormed, rebuilds.extension,
    wellFormed.solely_rebuild run, found, unbound,
    fun _ => wellFormed.operandNames_stand bound, fun name member => ?_⟩
  obtain ⟨operand, among, named⟩ := List.mem_filterMap.mp member
  obtain ⟨bearer, there, rfl⟩ := Option.map_eq_some_iff.mp named
  exact apart operand among bearer there

/-- Binding the name of such a node to it keeps a registry founded. -/
theorem Founded.adopt
    (founded : before.Founded) (detached : before.Detached after key node) :
    (after.bind node.name key).2.Founded := by
  have wellFormed : (after.bind node.name key).2.WellFormed :=
    detached.wellFormed.bind detached.stored
  have bindings :=
    detached.wellFormed.binding_bind_of_stored detached.stored
  have stored : (after.bind node.name key).2.node? key = some node :=
    detached.stored
  have solely : before.Solely (after.bind node.name key).2 key := by
    refine detached.solely.trans ⟨fun _ => rfl, fun {name other} bound => ?_⟩
    rw [bindings] at bound
    split at bound
    · exact Or.inr (Option.some.inj bound).symm
    · exact Or.inl bound
  have standing : ∀ name, (before.referent? name).isSome →
      ((after.bind node.name key).2.referent? name).isSome := by
    intro name stands
    obtain ⟨other, bound⟩ := detached.wellFormed.stands_iff.mp
      (detached.extension.stands stands)
    rw [wellFormed.stands_iff, bindings]
    split
    · exact ⟨key, rfl⟩
    · exact ⟨other, bound⟩
  exact founded.of_rerouted wellFormed solely stored standing
    (fun name member => standing name (detached.standing name member))
    detached.apart

end Register

/-! ## The junction that was rebuilt -/

/-- If the simplification of a junction carries the name of the junction, it was
rebuilt from operands whose names do not lead back to that name. -/
theorem Founded.exists_detached
    {registry final : Registry} (founded : registry.Founded)
    {key result : Key} {node outcome : Node} {connective : Connective}
    {operands : List Name} (stored : registry.node? key = some node)
    (body : node.body = .junction connective operands)
    (own : registry.binding node.name = some key)
    (plain : ∀ part, registry.Meets node part →
      ∀ atoms rows generated, part.body ≠ .dnf atoms rows generated)
    (run : registry.Yields (simplify key) (some result) final)
    (found : final.node? result = some outcome)
    (same : outcome.name = node.name) :
    ∃ middle, middle.Founded ∧ registry.Extends middle ∧
      middle.Detached final result outcome := by
  have wellFormed := founded.wellFormed
  have run : registry.Yields (simplifyWithin (registry.levels 1 + 1) .detached
      key) (some result) final := yields_get_bind_iff.mp run
  have stands : registry.referent? node.name = some node :=
    (referent?_eq_some_iff _ _).mpr ⟨key, own, stored⟩
  have tracked : registry.Tracked (Node.Apart node.name) :=
    (tracked_elementary registry).apart (by simp [own])
  have upheld := @upheld_founded registry (Node.Apart node.name)
    fun _ => And.left
  have safe : ∀ name ∈ operands, registry.Safe (Node.Apart node.name) name :=
    fun name member => founded.safe_apart plain stands
      (Node.mem_lookups_of_junction body member)
  -- Of the operands collected everything needed is known in both cases.
  have collects : ∀ {collected : List Key} {middle : Registry},
      OperandsRun (simplifyWithin (registry.levels 1) .named) connective
        registry operands collected middle →
      Upholds (Node.Apart node.name) Founded
        (fun _ keys after => ∀ key ∈ keys, after.Bound key) registry .named
        collected middle :=
    fun run => (upheld.simplifyOperands
      (upheld.simplifyWithin_named tracked (Nat.lt_succ_self _))
      ⟨wellFormed, Extends.refl registry, founded⟩ connective safe).yields
        run.yields
  cases (formulaRun_of_yields run).of_junction stored body with
  | single collected reduced =>
      have covers := (collects collected).tracks.covers result
        (Pairing.subset_of_reduce? reduced (List.mem_singleton_self _))
      exact ((covers.of_stored found).1.self.2 same).elim
  | rebuilt collected reduced several original rebuilding =>
      rename_i middle gathered remaining _
      have upholds := collects collected
      have extension := upholds.tracks.annexes.extension
      have middleWellFormed := upholds.tracks.wellFormed
      rw [extension.node? stored] at original
      obtain rfl := Option.some.inj original
      have subset := Pairing.subset_of_reduce? reduced
      obtain ⟨_, _, trees, presents, flat⟩ := collected.presents_collected
        wellFormed (Nat.lt_succ_self _) fun name member =>
          (throughout_elementary plain).safe
            (Node.mem_lookups_of_junction body member)
      have detached := upholds.kept.detached_of_rebuild
        (extension.node? stored)
        (fun operand member => upholds.told rfl operand (subset member))
        (fun operand member bearer there => by
          obtain ⟨shown, among⟩ := presents_of_mem presents (subset member)
          exact not_refers_of_apart middleWellFormed
            (upholds.tracks.covers operand (subset member)) shown
            (flat _ among).1 there
            (extension.stands (Option.isSome_iff_exists.mpr ⟨node, stands⟩)))
        rebuilding
      obtain rfl := Option.some.inj (detached.stored.symm.trans found)
      exact ⟨middle, upholds.kept, extension, detached⟩

/-! ## What does not look up the name -/

section Values

variable {before after registry : Registry} {key : Key} {node part : Node}

/-- In a larger registry nothing changes at a node of which all names looked up
stand. -/
theorem Extends.agreesAt
    (extension : before.Extends after) (wellFormed : before.WellFormed)
    (stored : before.node? key = some part)
    (stands : ∀ name ∈ part.lookups, (before.referent? name).isSome) :
    before.AgreesAt after part where
  string name member := by
    refine extension.string_eq ?_
    rcases List.mem_cons.mp member with rfl | named
    · exact wellFormed.named stored
    · exact wellFormed.lt_of_stands (stands name named)
  referent name named := by
    obtain ⟨bearer, there⟩ := Option.isSome_iff_exists.mp (stands name named)
    rw [there, extension.referent? there]
  recorded formula generated :=
    extension.nodes ((wellFormed.admits stored).generated formula generated)

/-- Binding a name changes nothing at a node that does not look it up. -/
theorem WellFormed.agreesAt_bind
    (wellFormed : registry.WellFormed)
    (stored : registry.node? key = some node)
    (avoids : node.name ∉ part.lookups) :
    registry.AgreesAt (registry.bind node.name key).2 part where
  string _ _ := rfl
  referent name named := by
    have different : name ≠ node.name := fun same => avoids (same ▸ named)
    unfold referent?
    rw [wellFormed.binding_bind_of_stored stored, if_neg different]
    rfl
  recorded _ _ := rfl

/-- Every formula from which the name is not looked up has the same value in
both registries, by both logics and whatever the valuation. -/
def KeepsValuesWithout
    (before after : Registry) (name : Name) : Prop :=
  ∀ key node, before.node? key = some node →
    (∀ part, before.Meets node part → name ∉ part.lookups) →
      (∀ valuation : Valuation Bool,
        after.evaluate valuation key = before.evaluate valuation key) ∧
      ∀ valuation : Valuation Four,
        after.evaluate valuation key = before.evaluate valuation key

/-- Binding a name to a node of a larger registry does not show in the values of
formulas from which the name is not looked up. -/
theorem Founded.keepsValuesWithout
    (founded : before.Founded) (extension : before.Extends after)
    (wellFormed : after.WellFormed) (stored : after.node? key = some node) :
    before.KeepsValuesWithout (after.bind node.name key).2 node.name := by
  intro other found there avoids
  have agrees : ∀ part, before.Meets found part →
      before.AgreesAt (after.bind node.name key).2 part := by
    intro part meets
    obtain ⟨partKey, partStored⟩ := mem_stock_iff.mp
      (meets.mem_stock (mem_stock_iff.mpr ⟨other, there⟩))
    have larger := extension.agreesAt founded.wellFormed partStored
      fun name named => founded.referred partKey part partStored name
        (Node.mem_references named)
    exact larger.trans
      (wellFormed.agreesAt_bind stored (avoids part meets))
  have kept : (after.bind node.name key).2.node? other = some found :=
    extension.node? there
  have levels : (after.bind node.name key).2.levels 0 = before.levels 0 :=
    extension.levels_eq 0
  exact ⟨fun valuation =>
      evaluate_eq_of_agrees valuation there kept levels agrees,
    fun valuation => evaluate_eq_of_agrees valuation there kept levels agrees⟩

end Values

/-! ## Adoption -/

/-- Every name that a stored node refers to is bound. -/
def ReferencesBound (registry : Registry) : Prop :=
  ∀ key node, registry.node? key = some node →
    ∀ name ∈ node.references, registry.binding name ≠ none

instance (registry : Registry) : Decidable registry.ReferencesBound :=
  decidable_of_iff
    (∀ node ∈ registry.stock, ∀ name ∈ node.references,
      registry.binding name ≠ none) <| by
    simp only [ReferencesBound, mem_stock_iff]
    constructor
    · exact fun bound key node stored => bound node ⟨key, stored⟩
    · rintro bound node ⟨key, stored⟩
      exact bound key node stored

theorem WellFormed.founded_iff
    {registry : Registry} (wellFormed : registry.WellFormed) :
    registry.Founded ↔
      registry.ReferencesBound ∧ registry.cyclicNames = [] := by
  have stands : ∀ name, (registry.referent? name).isSome ↔
      registry.binding name ≠ none := fun name => by
    rw [wellFormed.stands_iff, Option.ne_none_iff_exists']
  rw [cyclicNames_eq_nil_iff]
  constructor
  · exact fun founded => ⟨fun key node stored name member =>
      (stands name).mp (founded.referred key node stored name member),
      founded.acyclic⟩
  · rintro ⟨bound, acyclic⟩
    exact ⟨wellFormed, fun key node stored name member =>
      (stands name).mpr (bound key node stored name member), acyclic⟩

/-- Adopting a simplification is safe.  Suppose that every name referred to is
bound and no name is listed as cyclic, and that a junction from which no
disjunctive normal form is met and which is bound to its name simplifies to a
formula of that name.  Registering the result then yields the junction, and
changes no binding but that of the name.  It leaves every name referred to bound
and no name listed as cyclic.  Every formula from which the name is not looked up
has the same value as after simplification, and the same as before if it was
stored then. -/
theorem Reachable.adoption_is_safe
    {registry final : Registry} (reachable : registry.Reachable)
    (bound : registry.ReferencesBound) (acyclic : registry.cyclicNames = [])
    {key result : Key} {node outcome : Node} {connective : Connective}
    {operands : List Name} (stored : registry.node? key = some node)
    (body : node.body = .junction connective operands)
    (own : registry.binding node.name = some key)
    (plain : ∀ part, registry.Meets node part →
      ∀ atoms rows generated, part.body ≠ .dnf atoms rows generated)
    (run : registry.Yields (simplify key) (some result) final)
    (found : final.node? result = some outcome)
    (same : outcome.name = node.name) :
    ∃ adopted, final.Yields (register result) (some key) adopted ∧
      adopted.binding node.name = some result ∧
      (∀ name, name ≠ node.name →
        adopted.binding name = final.binding name) ∧
      adopted.ReferencesBound ∧ adopted.cyclicNames = [] ∧
      final.KeepsValuesWithout adopted node.name ∧
      registry.KeepsValuesWithout adopted node.name := by
  have founded := reachable.wellFormed.founded_iff.mpr ⟨bound, acyclic⟩
  obtain ⟨middle, middleFounded, extension, detached⟩ :=
    founded.exists_detached stored body own plain run found same
  have finalFounded := middleFounded.of_detached detached
  have adopted := middleFounded.adopt detached
  have bindings := detached.wellFormed.binding_bind_of_stored found
  have registering := yields_register found
  rw [same] at adopted bindings registering
  have upTo : registry.Extends final := extension.trans detached.extension
  have still : final.binding node.name = some key := upTo.bindings own
  have different : key ≠ result := fun equal =>
    detached.unbound node.name (equal ▸ still)
  have yields : (final.binding node.name).filter (· != result) = some key := by
    simp [still, different]
  obtain ⟨nowBound, nowAcyclic⟩ := adopted.wellFormed.founded_iff.mp adopted
  refine ⟨_, yields ▸ registering, (bindings _).trans (if_pos rfl),
    fun name other => (bindings name).trans (if_neg other), nowBound,
    nowAcyclic, ?_, ?_⟩
  · exact same ▸ finalFounded.keepsValuesWithout (Extends.refl final)
      detached.wellFormed found
  · exact same ▸ founded.keepsValuesWithout upTo detached.wellFormed found

/-- A conjunction with a doubly negated operand is itself negated.  Its
simplification takes its place, and the operand keeps its value. -/
theorem adoption_is_safe_below_negation :
    let registry := replay
      [.atom "p", .atom "q", .negation ⟨2⟩, .negation ⟨3⟩,
        .junction .conjunction [⟨1⟩, ⟨4⟩], .negation ⟨5⟩]
    let final := registry.after (simplify ⟨5⟩)
    registry.Yields (simplify ⟨5⟩) (some ⟨7⟩) final ∧
      ∃ adopted, final.Yields (register ⟨7⟩) (some ⟨5⟩) adopted ∧
        adopted.binding 4 = some ⟨7⟩ ∧ adopted.cyclicNames = [] ∧
        ∀ valuation : Valuation Four,
          adopted.evaluate valuation ⟨4⟩ = registry.evaluate valuation ⟨4⟩ := by
  intro registry final
  have reachable : registry.Reachable := reachable_replay _
  have run : registry.Yields (simplify ⟨5⟩) (some ⟨7⟩) final :=
    yields_after (by decide +kernel)
  let node : Node := { name := 4, body := .junction .conjunction [0, 3] }
  have stored : registry.node? ⟨5⟩ = some node := by decide +kernel
  have operand : registry.node? ⟨4⟩ =
      some { name := 3, body := .negation 2 } := by decide +kernel
  have closed : ∀ node ∈ registry.stock,
      registry.successors node ⊆ registry.stock := by decide +kernel
  have plain := plain_of_closed closed (by decide +kernel)
    (mem_stock_iff.mpr ⟨_, stored⟩)
  obtain ⟨adopted, registering, binding, _, _, acyclic, _, values⟩ :=
    reachable.adoption_is_safe (by decide +kernel) (by decide +kernel)
      stored rfl (by decide +kernel) plain run
      (by decide +kernel : final.node? ⟨7⟩ =
        some { name := 4, body := .junction .conjunction [0, 1] }) rfl
  -- From the operand one only comes to the atom it negates twice.
  let below : List Node := [{ name := 3, body := .negation 2 },
    { name := 2, body := .negation 1 }, { name := 1, body := .atom }]
  have inside : ∀ node ∈ below, registry.successors node ⊆ below := by
    decide +kernel
  have avoids : ∀ part ∈ below, 4 ∉ part.lookups := by decide +kernel
  exact ⟨run, adopted, registering, binding, acyclic,
    (values ⟨4⟩ _ operand fun part meets => avoids part
      (meets.comesTo.mem_of_closed inside List.mem_cons_self)).2⟩

end Registry

end NamedLogic
