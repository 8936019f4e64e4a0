import NamedLogic.Proofs.FreshName
import NamedLogic.Proofs.Update

/-!
# What formation yields

A constructor given stored operands yields a new key, under which it has stored
one new node and to which it has bound a name not bound before; everything else
stays as it was.  A junction is filled operand by operand, and the list of its
operands is determined by the nodes added.
-/

namespace NamedLogic

/-- The operands of a junction called `own` after the given nodes are added to
those present. -/
def gatherOperands
    (own : Name) (connective : Connective) (present : List Name)
    (additions : List Node) : List Name :=
  additions.foldl
    (fun names addition =>
      (extendOperands own connective names addition).2)
    present

namespace Registry

/-! ## Looking up within an update -/

section Lookups

variable {before after : Registry}

@[simp]
theorem yields_stored_iff {key : Key} {node : Node} :
    before.Yields (stored key) node after ↔
      before.node? key = some node ∧ before = after := by
  unfold Registry.stored
  rw [yields_bind_iff]
  constructor
  · rintro ⟨_, _, reading, run⟩
    obtain ⟨rfl, rfl⟩ := yields_get_iff.mp reading
    cases found : before.node? key with
    | none =>
        rw [found] at run
        exact (yields_throw_iff.mp run).elim
    | some present =>
        rw [found] at run
        obtain ⟨rfl, same⟩ := yields_pure_iff.mp run
        exact ⟨rfl, same⟩
  · rintro ⟨found, rfl⟩
    refine ⟨before, before, yields_get_iff.mpr ⟨rfl, rfl⟩, ?_⟩
    rw [found]
    exact yields_pure_iff.mpr ⟨rfl, rfl⟩

theorem refuses_stored
    {key : Key} (missing : before.node? key = none) :
    before.Refuses (stored key) .unknownKey before := by
  unfold Registry.stored
  refine Yields.bind_refuses (yields_get_iff.mpr ⟨rfl, rfl⟩) ?_
  rw [missing]
  rfl

@[simp]
theorem after_stored (registry : Registry) (key : Key) :
    registry.after (stored key) = registry := by
  cases found : registry.node? key with
  | none => exact (refuses_stored found).after_eq
  | some node => exact (yields_stored_iff.mpr ⟨found, rfl⟩).after_eq

@[simp]
theorem yields_operandName_iff {key : Key} {name : Name} :
    before.Yields (operandName key) name after ↔
      (∃ node, before.node? key = some node ∧ node.name = name) ∧
        before = after := by
  unfold operandName
  rw [yields_bind_iff]
  constructor
  · rintro ⟨node, middle, looked, run⟩
    obtain ⟨found, rfl⟩ := yields_stored_iff.mp looked
    obtain ⟨named, same⟩ := yields_pure_iff.mp run
    exact ⟨⟨node, found, named⟩, same⟩
  · rintro ⟨⟨node, found, named⟩, same⟩
    exact ⟨node, before, yields_stored_iff.mpr ⟨found, rfl⟩,
      yields_pure_iff.mpr ⟨named, same⟩⟩

theorem yields_sideName
    {registry : Registry} {key : Key} {node : Node}
    (stored : registry.node? key = some node) :
    registry.Yields (sideName (some key)) (some node.name) registry :=
  Yields.bind (yields_operandName_iff.mpr ⟨⟨node, stored, rfl⟩, rfl⟩)
    (yields_pure_iff.mpr ⟨rfl, rfl⟩)

/-! What holds of the registry itself, and wherever the rest leads, holds after a
look-up and the rest, whether or not anything is found. -/

section Found

variable {α : Type} {registry : Registry} (condition : Registry → Prop)
  {key : Key}

theorem after_stored_bind
    {next : Node → Update α} (missing : condition registry)
    (found : ∀ node, registry.node? key = some node →
      condition (registry.after (next node))) :
    condition (registry.after (stored key >>= next)) := by
  cases there : registry.node? key with
  | none =>
      rw [((refuses_stored there).bind next).after_eq]
      exact missing
  | some node =>
      rw [(yields_stored_iff.mpr ⟨there, rfl⟩).after_bind]
      exact found node there

theorem after_operandName_bind
    {next : Name → Update α} (missing : condition registry)
    (found : ∀ node, registry.node? key = some node →
      condition (registry.after (next node.name))) :
    condition (registry.after (operandName key >>= next)) := by
  cases there : registry.node? key with
  | none =>
      have refused : registry.Refuses (operandName key) .unknownKey registry :=
        (refuses_stored there).bind _
      rw [(refused.bind next).after_eq]
      exact missing
  | some node =>
      rw [(yields_operandName_iff.mpr ⟨⟨node, there, rfl⟩, rfl⟩).after_bind]
      exact found node there

theorem after_sideName_bind
    {side : Option Key} {next : Option Name → Update α}
    (missing : condition registry)
    (found : ∀ name, (∀ reference ∈ name.toList, ∃ key node,
      registry.node? key = some node ∧ node.name = reference) →
        condition (registry.after (next name))) :
    condition (registry.after (sideName side >>= next)) := by
  cases side with
  | none => exact found none (by simp)
  | some key =>
      cases there : registry.node? key with
      | none =>
          have refused : registry.Refuses (sideName (some key)) .unknownKey
              registry := Refuses.bind (Refuses.bind (refuses_stored there) _) _
          rw [(refused.bind next).after_eq]
          exact missing
      | some node =>
          rw [(yields_sideName there).after_bind]
          refine found (some node.name) fun reference member => ?_
          obtain rfl : reference = node.name := by simpa using member
          exact ⟨key, node, there, rfl⟩

end Found

end Lookups

/-! ## A new node under a new name -/

/-- The second registry is the first with a node stored under a new key and
bound to a name not bound before. -/
structure Adds
    (before after : Registry) (key : Key) (node : Node) : Prop where
  wellFormed : after.WellFormed
  extension : before.Extends after
  new : before.nodes.size ≤ key.id
  unbound : before.binding node.name = none
  stored : after.node? key = some node
  bound : after.binding node.name = some key

theorem Adds.grows
    {before after : Registry} {key : Key} {node : Node}
    (added : before.Adds after key node) :
    before.Grows after :=
  fun _ => ⟨added.wellFormed, added.extension⟩

theorem adds_insertFresh
    {registry : Registry} (wellFormed : registry.WellFormed)
    (flavour : Flavour) (owner : Option Entity) {body : Body}
    (admits : registry.Admits body) :
    ∃ key name after,
      registry.Yields (insertFresh flavour owner body) key after ∧
        registry.Adds after key { name, owner, body } := by
  let fresh := registry.freshName flavour
  let node : Node := { name := fresh.1, owner, body }
  have freshWellFormed : fresh.2.WellFormed := wellFormed.freshName flavour
  have extension : registry.Extends fresh.2 :=
    Extends.freshName registry flavour
  have unbound : registry.binding node.name = none :=
    wellFormed.binding_freshName_self flavour
  have storedWellFormed : (fresh.2.store node).2.WellFormed :=
    freshWellFormed.store (wellFormed.numbered.freshName_lt flavour)
      (extension.admits admits)
  have stored : (fresh.2.store node).2.node? (fresh.2.store node).1 =
      some node := by simp
  have inside : node.name < (fresh.2.store node).2.bindings.size := by
    rw [storedWellFormed.slots]
    exact storedWellFormed.named stored
  have stillUnbound : (fresh.2.store node).2.binding node.name = none :=
    (binding_freshName registry flavour node.name).trans unbound
  refine ⟨(fresh.2.store node).1, fresh.1, (fresh.2.insert node).2, ?_, ?_⟩
  · exact Yields.bind (yields_modifyGet_iff.mpr ⟨rfl, rfl⟩)
      (yields_modifyGet_iff.mpr ⟨rfl, rfl⟩)
  · exact {
      wellFormed := storedWellFormed.bind stored
      extension := extension.trans <|
        (Extends.store fresh.2 node).trans
          (Extends.bind inside stillUnbound _)
      new := extension.issued
      unbound
      stored
      bound := (binding_bind inside _ node.name).trans (if_pos rfl) }

/-- The negation of a stored node may be stored. -/
theorem WellFormed.admits_negation
    {registry : Registry} (wellFormed : registry.WellFormed)
    {key : Key} {node : Node} (stored : registry.node? key = some node) :
    registry.Admits (.negation node.name) where
  references := by
    simpa [Body.references] using wellFormed.named stored
  generated := by simp [Body.generated?]

theorem yields_negation
    {registry : Registry} (wellFormed : registry.WellFormed)
    {operand : Key} {node : Node}
    (stored : registry.node? operand = some node) :
    ∃ key name after,
      registry.Yields (negation operand) key after ∧
        registry.Adds after key
          { name, owner := none, body := .negation node.name } := by
  obtain ⟨key, name, after, run, added⟩ :=
    adds_insertFresh wellFormed .compound none
      (wellFormed.admits_negation stored)
  exact ⟨key, name, after,
    Yields.bind (yields_operandName_iff.mpr ⟨⟨node, stored, rfl⟩, rfl⟩) run,
    added⟩

theorem refuses_negation
    {registry : Registry} {operand : Key}
    (missing : registry.node? operand = none) :
    registry.Refuses (negation operand) .unknownKey registry :=
  Refuses.bind (Refuses.bind (refuses_stored missing) _) _

theorem grows_negation (registry : Registry) (operand : Key) :
    registry.Grows (registry.after (negation operand)) := by
  intro wellFormed
  cases found : registry.node? operand with
  | none =>
      rw [(refuses_negation found).after_eq]
      exact Grows.refl registry wellFormed
  | some node =>
      obtain ⟨_, _, after, run, added⟩ := yields_negation wellFormed found
      rw [run.after_eq]
      exact added.grows wellFormed

theorem grows_freshAtom (registry : Registry) :
    registry.Grows (registry.after freshAtom) := by
  intro wellFormed
  have admits : registry.Admits .atom :=
    ⟨by simp [Body.references], by simp [Body.generated?]⟩
  obtain ⟨_, _, after, run, added⟩ :=
    adds_insertFresh wellFormed .atom none admits
  rw [freshAtom, run.after_eq]
  exact added.grows wellFormed

/-- The implication between two stored nodes. -/
theorem yields_implication
    {registry : Registry} (wellFormed : registry.WellFormed)
    {antecedent consequent : Key} {premise conclusion : Node}
    (premiseStored : registry.node? antecedent = some premise)
    (conclusionStored : registry.node? consequent = some conclusion) :
    ∃ key name after,
      registry.Yields (implication (some antecedent) (some consequent)) key
        after ∧
        registry.Adds after key
          { name, owner := none,
            body :=
              .implication (some premise.name) (some conclusion.name) } := by
  have admits : registry.Admits
      (.implication (some premise.name) (some conclusion.name)) := by
    refine ⟨?_, by simp [Body.generated?]⟩
    simpa [Body.references] using
      ⟨wellFormed.named premiseStored, wellFormed.named conclusionStored⟩
  obtain ⟨key, name, after, run, added⟩ :=
    adds_insertFresh wellFormed .compound none admits
  exact ⟨key, name, after, (yields_sideName premiseStored).bind
    ((yields_sideName conclusionStored).bind run), added⟩

theorem grows_implication
    (registry : Registry) (antecedent consequent : Option Key) :
    registry.Grows
      (registry.after (implication antecedent consequent)) := by
  have growth := Grows.refl registry
  refine after_sideName_bind (Grows registry) growth fun premise first => ?_
  refine after_sideName_bind (Grows registry) growth
    fun conclusion second wellFormed => ?_
  have admits : registry.Admits (.implication premise conclusion) := by
    refine ⟨fun reference member => ?_, by simp [Body.generated?]⟩
    obtain ⟨_, _, found, rfl⟩ :=
      (List.mem_append.mp member).elim (first reference) (second reference)
    exact wellFormed.named found
  obtain ⟨_, _, after, run, added⟩ :=
    adds_insertFresh wellFormed .compound none admits
  rw [run.after_eq]
  exact added.grows wellFormed

end Registry

end NamedLogic
