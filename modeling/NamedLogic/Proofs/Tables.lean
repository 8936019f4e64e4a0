import NamedLogic.Registry.Basic
import Mathlib.Data.List.Basic

/-!
# The tables after a change

A registry is read through `node?`, `binding`, `lookup` and `string`.  The
lemmas below say what these views show after each of the basic changes, so that
no later argument opens the tables themselves.
-/

namespace NamedLogic

namespace Registry

variable (registry : Registry)

/-! ## Stored nodes -/

@[simp]
theorem node?_store (node : Node) (key : Key) :
    (registry.store node).2.node? key =
      if key.id = registry.nodes.size then some node
      else registry.node? key := by
  unfold store node?
  rw [Array.getElem?_push]
  split <;> rfl

@[simp]
theorem store_key (node : Node) :
    (registry.store node).1 = ⟨registry.nodes.size⟩ := rfl

theorem id_lt_of_node?
    {registry : Registry} {key : Key} {node : Node}
    (stored : registry.node? key = some node) :
    key.id < registry.nodes.size := by
  by_contra outside
  have absent : registry.nodes[key.id]? = none :=
    Array.getElem?_eq_none (Nat.le_of_not_lt outside)
  simp [node?, absent] at stored

theorem node?_replace
    {registry : Registry} {key : Key} {old : Node}
    (stored : registry.node? key = some old) (node : Node) (other : Key) :
    (registry.replace key node).node? other =
      if other = key then some node else registry.node? other := by
  have inside := id_lt_of_node? stored
  unfold replace node?
  simp only [Array.getElem?_setIfInBounds]
  by_cases same : other = key
  · subst same
    simp [inside]
  · have different : key.id ≠ other.id := by
      intro equality
      exact same (congrArg Key.mk equality.symm)
    simp [same, different]

theorem node?_drop (key other : Key) :
    (registry.drop key).node? other =
      if other = key then none else registry.node? other := by
  unfold drop node?
  simp only [Array.getElem?_setIfInBounds]
  by_cases same : other = key
  · subst same
    by_cases inside : other.id < registry.nodes.size
    · simp [inside]
    · simp [inside]
  · have different : key.id ≠ other.id := by
      intro equality
      exact same (congrArg Key.mk equality.symm)
    simp [same, different]

@[simp]
theorem node?_clear (key : Key) :
    registry.clear.node? key = none := by
  unfold clear node?
  cases inside : registry.nodes[key.id]? <;> simp [inside]

@[simp]
theorem node?_bind (name : Name) (key other : Key) :
    (registry.bind name key).2.node? other = registry.node? other := rfl

@[simp]
theorem node?_unbind (name : Name) (key : Key) :
    (registry.unbind name).node? key = registry.node? key := rfl

@[simp]
theorem node?_release (name : Name) (key other : Key) :
    (registry.release name key).node? other = registry.node? other := by
  unfold release
  split <;> rfl

@[simp]
theorem node?_intern (string : String) (key : Key) :
    (registry.intern string).2.node? key = registry.node? key := by
  unfold intern
  split <;> rfl

@[simp]
theorem node?_setCounter
    (flavour : Flavour) (counter : Nat) (key : Key) :
    (registry.setCounter flavour counter).node? key =
      registry.node? key := by
  cases flavour <;> rfl

/-! ## Bindings -/

theorem name_lt_of_binding
    {registry : Registry} {name : Name} {key : Key}
    (bound : registry.binding name = some key) :
    name < registry.bindings.size := by
  by_contra outside
  have absent : registry.bindings[name]? = none :=
    Array.getElem?_eq_none (Nat.le_of_not_lt outside)
  simp [binding, absent] at bound

theorem binding_bind
    {registry : Registry} {name : Name}
    (inside : name < registry.bindings.size) (key : Key) (other : Name) :
    (registry.bind name key).2.binding other =
      if other = name then some key else registry.binding other := by
  unfold bind binding
  simp only [Array.getElem?_setIfInBounds]
  by_cases same : other = name
  · subst same
    simp [inside]
  · simp [same, Ne.symm same]

theorem binding_bind_of_ne
    {registry : Registry} {name other : Name} (different : other ≠ name)
    (key : Key) :
    (registry.bind name key).2.binding other = registry.binding other := by
  simp [bind, binding, Ne.symm different]

theorem binding_unbind (name other : Name) :
    (registry.unbind name).binding other =
      if other = name then none else registry.binding other := by
  unfold unbind binding
  simp only [Array.getElem?_setIfInBounds]
  by_cases same : other = name
  · subst same
    by_cases inside : other < registry.bindings.size
    · simp [inside]
    · simp [inside]
  · simp [same, Ne.symm same]

theorem binding_release (name : Name) (key : Key) (other : Name) :
    (registry.release name key).binding other =
      if other = name ∧ registry.binding name = some key then none
      else registry.binding other := by
  unfold release
  by_cases bound : registry.binding name = some key
  · simp [bound, binding_unbind]
  · simp [bound]

@[simp]
theorem binding_clear (name : Name) :
    registry.clear.binding name = none := by
  simp [clear, binding]

@[simp]
theorem binding_store (node : Node) (name : Name) :
    (registry.store node).2.binding name = registry.binding name := rfl

@[simp]
theorem binding_replace (key : Key) (node : Node) (name : Name) :
    (registry.replace key node).binding name = registry.binding name := rfl

@[simp]
theorem binding_drop (key : Key) (name : Name) :
    (registry.drop key).binding name = registry.binding name := rfl

@[simp]
theorem binding_intern (string : String) (name : Name) :
    (registry.intern string).2.binding name = registry.binding name := by
  unfold intern
  split
  · rfl
  · simp only [binding, Array.getElem?_push]
    split
    · rename_i last
      subst last
      simp
    · rfl

@[simp]
theorem binding_setCounter
    (flavour : Flavour) (counter : Nat) (name : Name) :
    (registry.setCounter flavour counter).binding name =
      registry.binding name := by
  cases flavour <;> rfl

/-! ## Names of strings -/

@[simp]
theorem lookup_setCounter
    (flavour : Flavour) (counter : Nat) (string : String) :
    (registry.setCounter flavour counter).lookup string =
      registry.lookup string := by
  rw [lookup, lookup]
  cases flavour <;> rfl

@[simp]
theorem get?_setCounter
    (flavour : Flavour) (counter : Nat) (string : String) :
    (registry.setCounter flavour counter).get? string =
      registry.get? string := by
  rw [get?, lookup_setCounter]
  exact congrArg _ (funext (binding_setCounter registry flavour counter))

end Registry

end NamedLogic
