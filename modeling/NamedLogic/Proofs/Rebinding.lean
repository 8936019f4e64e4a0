import NamedLogic.Proofs.Formation

/-!
# Taking a name over

Asking for an atom by name takes the name away from whatever else bears it, and
leaves everything else as it was.
-/

namespace NamedLogic

namespace Registry

/-- Every entry of the first registry is an entry of the second, except that
the names of the given strings may be bound to something else. -/
structure ExtendsExcept
    (taken : String → Prop) (before after : Registry) : Prop where
  settings : after.settings = before.settings
  strings : ∀ {name : Name} {string : String},
    before.strings[name]? = some string →
      after.strings[name]? = some string
  issued : before.nodes.size ≤ after.nodes.size
  nodes : ∀ {key node}, before.node? key = some node →
    after.node? key = some node
  bindings : ∀ {name key}, before.binding name = some key →
    ¬ taken (before.string name) → after.binding name = some key

theorem Extends.except
    {before after : Registry} (extension : before.Extends after)
    (taken : String → Prop) :
    before.ExtendsExcept taken after where
  settings := extension.settings
  strings := extension.strings
  issued := extension.issued
  nodes := extension.node?
  bindings bound _ := extension.bindings bound

namespace ExtendsExcept

variable {before middle after : Registry} {taken : String → Prop}

theorem string_eq
    (extension : before.ExtendsExcept taken after) {name : Name}
    (inside : name < before.strings.size) :
    after.string name = before.string name :=
  string_of_strings (extension.strings (strings_of_lt inside))

theorem mono
    (extension : before.ExtendsExcept taken after) {more : String → Prop}
    (weaker : ∀ string, taken string → more string) :
    before.ExtendsExcept more after where
  settings := extension.settings
  strings := extension.strings
  issued := extension.issued
  nodes := extension.nodes
  bindings bound kept :=
    extension.bindings bound fun lost => kept (weaker _ lost)

theorem trans
    (wellFormed : before.WellFormed)
    (first : before.ExtendsExcept taken middle)
    (second : middle.ExtendsExcept taken after) :
    before.ExtendsExcept taken after where
  settings := second.settings.trans first.settings
  strings entered := second.strings (first.strings entered)
  issued := first.issued.trans second.issued
  nodes stored := second.nodes (first.nodes stored)
  bindings bound kept := by
    have same := first.string_eq (wellFormed.name_lt_of_binding bound)
    exact second.bindings (first.bindings bound kept) (same ▸ kept)

end ExtendsExcept

/-! ## Atoms asked for by name -/

/-- A node stored anew takes the name it carries over. -/
theorem WellFormed.extendsExcept_insert
    {registry : Registry} (wellFormed : registry.WellFormed)
    {node : Node} (named : node.name < registry.strings.size)
    (admits : registry.Admits node.body) :
    registry.ExtendsExcept (· = registry.string node.name)
      (registry.insert node).2 where
  settings := rfl
  strings := id
  issued := by simp [Registry.insert, Registry.bind, Registry.store]
  nodes := (Extends.store registry node).node?
  bindings {name key} bound kept := by
    have different : name ≠ node.name := by
      rintro rfl
      exact kept rfl
    have inside : node.name < (registry.store node).2.bindings.size := by
      rw [(wellFormed.store named admits).slots]
      exact named
    change ((registry.store node).2.bind node.name _).2.binding name = _
    rw [binding_bind inside, if_neg different]
    exact bound

/-- An atom is always had by its name, and nothing but that name changes
hands. -/
theorem WellFormed.exists_yields_atom
    {registry : Registry} (wellFormed : registry.WellFormed)
    {string : String} (nonempty : string.isEmpty = false) :
    ∃ key node after,
      registry.Yields (atom string) key after ∧ after.WellFormed ∧
        registry.ExtendsExcept (· = string) after ∧
        after.node? key = some node ∧ node.isAtom ∧
        after.binding node.name = some key ∧
        after.string node.name = string := by
  let name := (registry.intern string).1
  let interned := (registry.intern string).2
  have internedWellFormed : interned.WellFormed := wellFormed.intern string
  have extension : registry.ExtendsExcept (· = string) interned :=
    (Extends.intern registry string).except _
  have called : interned.string name = string :=
    string_of_strings (wellFormed.numbered.strings_intern_self string)
  unfold atom
  rw [if_neg (by simp [nonempty])]
  cases found : ((registry.intern string).2.resolve
      (registry.intern string).1).filter (·.2.isAtom) with
  | some present =>
      obtain ⟨key, node⟩ := present
      obtain ⟨resolution, isAtom⟩ := Option.filter_eq_some_iff.mp found
      obtain ⟨bound, stored⟩ := resolve_eq_some_iff.mp resolution
      have named : node.name = name :=
        internedWellFormed.named_of_binding bound stored
      refine ⟨key, node, interned, ?_, internedWellFormed, extension,
        stored, isAtom, named ▸ bound, named ▸ called⟩
      refine Yields.bind (yields_modifyGet_iff.mpr ⟨rfl, rfl⟩)
        (Yields.bind (yields_get_iff.mpr ⟨rfl, rfl⟩) ?_)
      rw [found]
      exact yields_pure_iff.mpr ⟨rfl, rfl⟩
  | none =>
      let node : Node := { name, body := .atom }
      have inside : name < interned.strings.size :=
        wellFormed.numbered.intern_lt string
      have admits : interned.Admits node.body :=
        ⟨by simp [node, Body.references], by simp [node, Body.generated?]⟩
      have storedWellFormed := internedWellFormed.store inside admits
      have stored : (interned.store node).2.node? (interned.store node).1 =
          some node := by simp
      have slot : name < (interned.store node).2.bindings.size := by
        rw [storedWellFormed.slots]
        exact inside
      have takeover := internedWellFormed.extendsExcept_insert inside admits
      refine ⟨(interned.insert node).1, node, (interned.insert node).2,
        ?_, storedWellFormed.bind stored,
        extension.trans wellFormed (takeover.mono fun _ same =>
          same.trans called), stored, rfl,
        (binding_bind slot _ name).trans (if_pos rfl), called⟩
      refine Yields.bind (yields_modifyGet_iff.mpr ⟨rfl, rfl⟩)
        (Yields.bind (yields_get_iff.mpr ⟨rfl, rfl⟩) ?_)
      rw [found]
      exact yields_modifyGet_iff.mpr ⟨rfl, rfl⟩

/-! ## Generated names -/

/-- A node stored under a generated name carries the string generated. -/
theorem string_of_insertFresh
    {before after : Registry} {flavour : Flavour} {owner : Option Entity}
    {body : Body} {key : Key} {node : Node}
    (run : before.Yields (insertFresh flavour owner body) key after)
    (stored : after.node? key = some node) :
    after.string node.name =
      (before.freshName flavour).2.string (before.freshName flavour).1 := by
  obtain ⟨name, middle, generation, insertion⟩ := yields_bind_iff.mp run
  obtain ⟨rfl, rfl⟩ := yields_modifyGet_iff.mp generation
  obtain ⟨rfl, rfl⟩ := yields_modifyGet_iff.mp insertion
  have found := (node?_store (before.freshName flavour).2
    { name := (before.freshName flavour).1, owner, body }
    ⟨(before.freshName flavour).2.nodes.size⟩).symm.trans stored
  rw [if_pos rfl] at found
  obtain rfl := Option.some.inj found
  rfl

end Registry

end NamedLogic
