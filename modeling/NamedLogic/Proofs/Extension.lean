import NamedLogic.Proofs.WellFormed

/-!
# Extensions of a registry

An extension keeps every entry of every table: names keep their strings, keys
already issued lead to what they led to, and bound names stay bound to the same
keys.  It may add entries, and in particular bind a name that was not bound
before.
-/

namespace NamedLogic

namespace Registry

/-- Every entry of the first registry is an entry of the second. -/
structure Extends (before after : Registry) : Prop where
  settings : after.settings = before.settings
  strings : ∀ {name : Name} {string : String},
    before.strings[name]? = some string →
      after.strings[name]? = some string
  issued : before.nodes.size ≤ after.nodes.size
  nodes : ∀ {key}, key.id < before.nodes.size →
    after.node? key = before.node? key
  bindings : ∀ {name key}, before.binding name = some key →
    after.binding name = some key

namespace Extends

variable {before middle after : Registry}

theorem refl (registry : Registry) : registry.Extends registry :=
  ⟨rfl, id, le_rfl, fun _ => rfl, id⟩

theorem trans
    (first : before.Extends middle) (second : middle.Extends after) :
    before.Extends after where
  settings := second.settings.trans first.settings
  strings entered := second.strings (first.strings entered)
  issued := first.issued.trans second.issued
  nodes inside :=
    (second.nodes (Nat.lt_of_lt_of_le inside first.issued)).trans
      (first.nodes inside)
  bindings bound := second.bindings (first.bindings bound)

theorem node?
    (extension : before.Extends after) {key : Key} {node : Node}
    (stored : before.node? key = some node) :
    after.node? key = some node :=
  (extension.nodes (id_lt_of_node? stored)).trans stored

theorem levels_eq (extension : before.Extends after) (depth : Nat) :
    after.levels depth = before.levels depth := by
  rw [levels, levels, extension.settings]

theorem strings_size_le (extension : before.Extends after) :
    before.strings.size ≤ after.strings.size := by
  by_contra shrunk
  have inside : after.strings.size < before.strings.size := by omega
  have kept := extension.strings (strings_of_lt inside)
  simp at kept

theorem admits
    (extension : before.Extends after) {body : Body}
    (admits : before.Admits body) : after.Admits body :=
  admits.mono extension.strings_size_le extension.issued

theorem string_eq
    (extension : before.Extends after) {name : Name}
    (inside : name < before.strings.size) :
    after.string name = before.string name :=
  string_of_strings (extension.strings (strings_of_lt inside))

theorem referent?
    (extension : before.Extends after) {name : Name} {node : Node}
    (stands : before.referent? name = some node) :
    after.referent? name = some node := by
  obtain ⟨key, bound, stored⟩ :=
    (referent?_eq_some_iff name node).mp stands
  exact (referent?_eq_some_iff name node).mpr
    ⟨key, extension.bindings bound, extension.node? stored⟩

/-! ## Changes that extend -/

theorem intern (registry : Registry) (string : String) :
    registry.Extends (registry.intern string).2 where
  settings := by
    unfold Registry.intern
    split <;> rfl
  strings entered := strings_intern entered string
  issued := (nodes_intern string).le
  nodes _ := by simp
  bindings bound := by simpa using bound

theorem setCounter
    (registry : Registry) (flavour : Flavour) (counter : Nat) :
    registry.Extends (registry.setCounter flavour counter) := by
  cases flavour <;> exact ⟨rfl, id, le_rfl, fun _ => rfl, id⟩

theorem store (registry : Registry) (node : Node) :
    registry.Extends (registry.store node).2 where
  settings := rfl
  strings := id
  issued := by simp [Registry.store]
  nodes inside := by simp [Nat.ne_of_lt inside]
  bindings := id

/-- Binding a name that is not bound so far. -/
theorem bind
    {registry : Registry} {name : Name}
    (inside : name < registry.bindings.size)
    (unbound : registry.binding name = none) (key : Key) :
    registry.Extends (registry.bind name key).2 where
  settings := rfl
  strings := id
  issued := le_rfl
  nodes _ := rfl
  bindings {other bearer} bound := by
    have different : other ≠ name := by
      rintro rfl
      rw [unbound] at bound
      cases bound
    rw [binding_bind inside, if_neg different]
    exact bound

/-- Replacing a node whose key was not issued in the beginning. -/
theorem replace
    (extension : before.Extends after) {key : Key} {old : Node}
    (new : before.nodes.size ≤ key.id) (stored : after.node? key = some old)
    (node : Node) :
    before.Extends (after.replace key node) where
  settings := extension.settings
  strings := extension.strings
  issued := by
    rw [Registry.replace, Array.size_setIfInBounds]
    exact extension.issued
  nodes {other} inside := by
    have different : other ≠ key := by
      rintro rfl
      exact Nat.not_lt.mpr new inside
    rw [node?_replace stored, if_neg different]
    exact extension.nodes inside
  bindings := extension.bindings

end Extends

end Registry

end NamedLogic
