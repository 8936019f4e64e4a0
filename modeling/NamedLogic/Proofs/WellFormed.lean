import NamedLogic.Proofs.Tables
import Mathlib.Data.List.Nodup
import Mathlib.Order.Nat

/-!
# Well-formed registries

The three tables of a registry are kept in step: the map from strings to names is
the inverse of the table of strings, every name has a slot for a binding, a bound
name is the name of the node it is bound to, and nodes hold no names beyond the
table.  Every basic
change keeps the tables in step, provided a name is only bound to a node that
carries it and a node is only dropped together with its binding.
-/

namespace NamedLogic

/-- The key of the formula generated for a disjunctive normal form. -/
def Body.generated? : Body → Option Key
  | .dnf _ _ generated => generated
  | _ => none

namespace Registry

/-- A body that holds no names beyond the table and no key not issued yet. -/
structure Admits (registry : Registry) (body : Body) : Prop where
  references : ∀ reference ∈ body.references,
    reference < registry.strings.size
  generated : ∀ formula ∈ body.generated?,
    formula.id < registry.nodes.size

theorem Admits.mono
    {small large : Registry} {body : Body} (admits : small.Admits body)
    (strings : small.strings.size ≤ large.strings.size)
    (nodes : small.nodes.size ≤ large.nodes.size) :
    large.Admits body where
  references reference member :=
    Nat.lt_of_lt_of_le (admits.references reference member) strings
  generated formula member :=
    Nat.lt_of_lt_of_le (admits.generated formula member) nodes

/-- The map from strings to names is the inverse of the table of strings. -/
structure Numbered (registry : Registry) : Prop where
  /-- The map has no string twice. -/
  unrepeated : (registry.names.map Prod.fst).Nodup
  /-- The map has a string with a name if the table has the string there. -/
  mem_names_iff : ∀ {string name},
    (string, name) ∈ registry.names ↔ registry.strings[name]? = some string

/-- The tables of a registry are in step. -/
structure WellFormed (registry : Registry) : Prop where
  /-- The names of strings are their numbers in the table. -/
  numbered : registry.Numbered
  /-- There is one slot for a binding for each name. -/
  slots : registry.bindings.size = registry.strings.size
  /-- A bound name is the name of the node it is bound to. -/
  bound : ∀ {name key}, registry.binding name = some key →
    ∃ node, registry.node? key = some node ∧ node.name = name
  /-- The name of a stored node is in the table. -/
  named : ∀ {key node}, registry.node? key = some node →
    node.name < registry.strings.size
  /-- A stored node holds no names beyond the table and no key not issued. -/
  admits : ∀ {key node}, registry.node? key = some node →
    registry.Admits node.body

/-! ## Names and strings -/

section Names

variable {registry : Registry}

theorem Numbered.eq_of_mem_names
    (numbered : registry.Numbered) {string : String} {first second : Name}
    (firstMember : (string, first) ∈ registry.names)
    (secondMember : (string, second) ∈ registry.names) : first = second :=
  congrArg Prod.snd <|
    List.inj_on_of_nodup_map numbered.unrepeated firstMember secondMember rfl

theorem mem_names_of_lookup
    {string : String} {name : Name}
    (found : registry.lookup string = some name) :
    (string, name) ∈ registry.names := by
  rw [lookup] at found
  obtain ⟨before, after, entries, _⟩ := List.lookup_eq_some_iff.mp found
  rw [entries]
  exact List.mem_append_right before List.mem_cons_self

theorem lookup_eq_none_iff (string : String) :
    registry.lookup string = none ↔
      ∀ name, (string, name) ∉ registry.names := by
  rw [lookup, List.lookup_eq_none_iff]
  constructor
  · intro absent name member
    simpa using absent _ member
  · rintro absent ⟨other, name⟩ member
    rw [bne_iff_ne]
    rintro rfl
    exact absent name member

/-- Looking a string up finds the name under which it is in the table. -/
theorem Numbered.lookup_eq_some_iff
    (numbered : registry.Numbered) (string : String) (name : Name) :
    registry.lookup string = some name ↔
      registry.strings[name]? = some string := by
  rw [← numbered.mem_names_iff]
  constructor
  · exact mem_names_of_lookup
  · intro member
    cases found : registry.lookup string with
    | none => exact ((lookup_eq_none_iff string).mp found name member).elim
    | some other =>
        exact congrArg some
          (numbered.eq_of_mem_names (mem_names_of_lookup found) member)

theorem Numbered.strings_of_lookup
    (numbered : registry.Numbered) {string : String} {name : Name}
    (found : registry.lookup string = some name) :
    registry.strings[name]? = some string :=
  (numbered.lookup_eq_some_iff string name).mp found

/-- The string of a name is found under that name. -/
theorem WellFormed.lookup_of_strings
    (wellFormed : registry.WellFormed)
    {string : String} {name : Name}
    (entered : registry.strings[name]? = some string) :
    registry.lookup string = some name :=
  (wellFormed.numbered.lookup_eq_some_iff string name).mpr entered

/-- No string is in the table twice, as the map gives it one name only. -/
theorem Numbered.distinct (numbered : registry.Numbered) :
    registry.strings.toList.Nodup := by
  rw [List.nodup_iff_getElem?_ne_getElem?]
  intro first second before inside same
  rw [Array.getElem?_toList, Array.getElem?_toList] at same
  rw [Array.length_toList] at inside
  have there := Array.getElem?_eq_getElem inside
  exact Nat.ne_of_lt before <| numbered.eq_of_mem_names
    (numbered.mem_names_iff.mpr (same.trans there))
    (numbered.mem_names_iff.mpr there)

theorem string_of_strings
    {string : String} {name : Name}
    (entered : registry.strings[name]? = some string) :
    registry.string name = string := by
  simp [Registry.string, entered]

theorem strings_of_lt
    {name : Name} (inside : name < registry.strings.size) :
    registry.strings[name]? = some (registry.string name) := by
  simp [Registry.string, inside]

/-- Names in the table are told apart by their strings. -/
theorem WellFormed.string_injective
    (wellFormed : registry.WellFormed) {first second : Name}
    (firstInside : first < registry.strings.size)
    (secondInside : second < registry.strings.size)
    (equal : registry.string first = registry.string second) :
    first = second := by
  have found :=
    wellFormed.lookup_of_strings (strings_of_lt firstInside)
  rw [equal,
    wellFormed.lookup_of_strings (strings_of_lt secondInside)] at found
  exact (Option.some.inj found).symm

theorem WellFormed.get?_string
    (wellFormed : registry.WellFormed) {name : Name}
    (inside : name < registry.strings.size) :
    registry.get? (registry.string name) = registry.binding name := by
  rw [get?, wellFormed.lookup_of_strings (strings_of_lt inside)]
  rfl

theorem WellFormed.name_lt_of_binding
    (wellFormed : registry.WellFormed) {name : Name} {key : Key}
    (bound : registry.binding name = some key) :
    name < registry.strings.size :=
  wellFormed.slots ▸ Registry.name_lt_of_binding bound

/-- The node a name is bound to is what the name stands for. -/
theorem WellFormed.resolve_eq
    (wellFormed : registry.WellFormed) {name : Name} {key : Key}
    (bound : registry.binding name = some key) :
    ∃ node, registry.node? key = some node ∧ node.name = name ∧
      registry.resolve name = some (key, node) ∧
      registry.referent? name = some node := by
  obtain ⟨node, stored, named⟩ := wellFormed.bound bound
  exact ⟨node, stored, named, by simp [resolve, bound, stored],
    by simp [referent?, bound, stored]⟩

/-- A name resolves to the key it is bound to and to what is stored there. -/
theorem resolve_eq_some_iff
    {name : Name} {key : Key} {node : Node} :
    registry.resolve name = some (key, node) ↔
      registry.binding name = some key ∧
        registry.node? key = some node := by
  unfold resolve
  constructor
  · intro resolution
    obtain ⟨bearer, bound, found⟩ := Option.bind_eq_some_iff.mp resolution
    obtain ⟨other, stored, same⟩ := Option.map_eq_some_iff.mp found
    obtain ⟨rfl, rfl⟩ := Prod.mk.inj same
    exact ⟨bound, stored⟩
  · rintro ⟨bound, stored⟩
    rw [bound, Option.bind_some, stored, Option.map_some]

theorem WellFormed.named_of_binding
    (wellFormed : registry.WellFormed) {name : Name} {key : Key}
    {node : Node} (bound : registry.binding name = some key)
    (stored : registry.node? key = some node) :
    node.name = name := by
  obtain ⟨bearer, found, named⟩ := wellFormed.bound bound
  rw [stored] at found
  exact Option.some.inj found ▸ named

theorem referent?_eq_some_iff (name : Name) (node : Node) :
    registry.referent? name = some node ↔
      ∃ key, registry.binding name = some key ∧
        registry.node? key = some node := by
  simp [referent?, Option.bind_eq_some_iff]

theorem WellFormed.referent?_eq_none_iff
    (wellFormed : registry.WellFormed) (name : Name) :
    registry.referent? name = none ↔ registry.binding name = none := by
  cases bound : registry.binding name with
  | none => simp [referent?, bound]
  | some key =>
      obtain ⟨node, _, _, _, stands⟩ := wellFormed.resolve_eq bound
      simp [stands]

end Names

/-! ## Basic changes -/

section Changes

variable {registry : Registry}

@[simp]
theorem node?_empty (settings : Settings) (key : Key) :
    node? { settings } key = none := by
  by_contra found
  obtain ⟨node, stored⟩ := Option.ne_none_iff_exists'.mp found
  have zero : key.id = 0 := by simpa using id_lt_of_node? stored
  simp [node?, zero] at stored

/-- Strings stay numbered where neither the table nor the map changes. -/
theorem Numbered.of_same
    {other : Registry} (numbered : registry.Numbered)
    (strings : other.strings = registry.strings)
    (names : other.names = registry.names) : other.Numbered where
  unrepeated := names ▸ numbered.unrepeated
  mem_names_iff := by
    rw [names, strings]
    exact numbered.mem_names_iff

theorem wellFormed_empty (settings : Settings) :
    WellFormed { settings } where
  numbered := ⟨List.nodup_nil, by simp⟩
  slots := rfl
  bound bound := by simp [binding] at bound
  named stored := by simp at stored
  admits stored := by simp at stored

theorem WellFormed.configure
    (wellFormed : registry.WellFormed) (settings : Settings) :
    WellFormed { registry with settings } where
  numbered := wellFormed.numbered.of_same rfl rfl
  slots := wellFormed.slots
  bound := wellFormed.bound
  named := wellFormed.named
  admits stored := ⟨(wellFormed.admits stored).references,
    (wellFormed.admits stored).generated⟩

theorem WellFormed.setCounter
    (wellFormed : registry.WellFormed) (flavour : Flavour) (counter : Nat) :
    (registry.setCounter flavour counter).WellFormed := by
  cases flavour <;>
    exact ⟨wellFormed.numbered.of_same rfl rfl, wellFormed.slots,
      wellFormed.bound,
      wellFormed.named, fun stored =>
        ⟨(wellFormed.admits stored).references,
          (wellFormed.admits stored).generated⟩⟩

theorem wellFormed_clear : registry.clear.WellFormed where
  numbered := ⟨List.nodup_nil, by simp [clear]⟩
  slots := rfl
  bound bound := by simp at bound
  named stored := by simp at stored
  admits stored := by simp at stored

theorem strings_intern_size_le (string : String) :
    registry.strings.size ≤ (registry.intern string).2.strings.size := by
  unfold intern
  split <;> simp

theorem nodes_intern (string : String) :
    registry.nodes.size = (registry.intern string).2.nodes.size := by
  unfold intern
  split <;> rfl

theorem strings_intern
    {name : Name} {string : String}
    (entered : registry.strings[name]? = some string) (new : String) :
    (registry.intern new).2.strings[name]? = some string := by
  unfold intern
  split
  · exact entered
  · obtain ⟨inside, _⟩ := Array.getElem?_eq_some_iff.mp entered
    simpa [Array.getElem?_push, Nat.ne_of_lt inside] using entered

/-- A string without a name is given the number of strings entered so far. -/
theorem Numbered.intern
    (numbered : registry.Numbered) (string : String) :
    (registry.intern string).2.Numbered := by
  unfold Registry.intern
  split
  · exact numbered
  · rename_i absent
    rw [lookup_eq_none_iff] at absent
    constructor
    · refine List.nodup_cons.mpr ⟨fun member => ?_, numbered.unrepeated⟩
      obtain ⟨⟨_, name⟩, there, rfl⟩ := List.mem_map.mp member
      exact absent name there
    · intro other name
      rw [List.mem_cons, numbered.mem_names_iff, Array.getElem?_push]
      by_cases last : name = registry.strings.size
      · simp [last, eq_comm]
      · simp [last]

/-- Interning a string yields a name of it. -/
theorem Numbered.strings_intern_self
    (numbered : registry.Numbered) (string : String) :
    (registry.intern string).2.strings[(registry.intern string).1]? =
      some string := by
  unfold Registry.intern
  split
  · rename_i name found
    exact numbered.strings_of_lookup found
  · simp

theorem Numbered.intern_lt
    (numbered : registry.Numbered) (string : String) :
    (registry.intern string).1 < (registry.intern string).2.strings.size := by
  have entered := numbered.strings_intern_self string
  exact (Array.getElem?_eq_some_iff.mp entered).1

theorem WellFormed.intern
    (wellFormed : registry.WellFormed) (string : String) :
    (registry.intern string).2.WellFormed where
  numbered := wellFormed.numbered.intern string
  slots := by
    unfold Registry.intern
    split
    · exact wellFormed.slots
    · simp [wellFormed.slots]
  bound bound := by
    simp only [binding_intern, node?_intern] at bound ⊢
    exact wellFormed.bound bound
  named stored := by
    rw [node?_intern] at stored
    exact Nat.lt_of_lt_of_le (wellFormed.named stored)
      (strings_intern_size_le string)
  admits stored := by
    rw [node?_intern] at stored
    exact (wellFormed.admits stored).mono (strings_intern_size_le string)
      (nodes_intern string).le

theorem WellFormed.bind
    (wellFormed : registry.WellFormed) {key : Key} {node : Node}
    (stored : registry.node? key = some node) :
    (registry.bind node.name key).2.WellFormed where
  numbered := wellFormed.numbered.of_same rfl rfl
  slots := (Array.size_setIfInBounds ..).trans wellFormed.slots
  bound {name bearer} bound := by
    have inside : node.name < registry.bindings.size := by
      rw [wellFormed.slots]
      exact wellFormed.named stored
    rw [binding_bind inside] at bound
    by_cases same : name = node.name
    · rw [if_pos same] at bound
      obtain rfl := Option.some.inj bound
      exact ⟨node, stored, same.symm⟩
    · rw [if_neg same] at bound
      exact wellFormed.bound bound
  named stored := wellFormed.named stored
  admits stored := (wellFormed.admits stored).mono le_rfl le_rfl

theorem WellFormed.unbind
    (wellFormed : registry.WellFormed) (name : Name) :
    (registry.unbind name).WellFormed where
  numbered := wellFormed.numbered.of_same rfl rfl
  slots := (Array.size_setIfInBounds ..).trans wellFormed.slots
  bound {other key} bound := by
    rw [binding_unbind] at bound
    by_cases same : other = name
    · simp [same] at bound
    · rw [if_neg same] at bound
      exact wellFormed.bound bound
  named stored := wellFormed.named stored
  admits stored := (wellFormed.admits stored).mono le_rfl le_rfl

theorem WellFormed.release
    (wellFormed : registry.WellFormed) (name : Name) (key : Key) :
    (registry.release name key).WellFormed := by
  unfold Registry.release
  split
  · exact wellFormed.unbind name
  · exact wellFormed

theorem WellFormed.store
    (wellFormed : registry.WellFormed) {node : Node}
    (named : node.name < registry.strings.size)
    (admits : registry.Admits node.body) :
    (registry.store node).2.WellFormed where
  numbered := wellFormed.numbered.of_same rfl rfl
  slots := wellFormed.slots
  bound {name key} bound := by
    obtain ⟨bearer, stored, bearerNamed⟩ := wellFormed.bound bound
    refine ⟨bearer, ?_, bearerNamed⟩
    have old : key.id ≠ registry.nodes.size :=
      Nat.ne_of_lt (id_lt_of_node? stored)
    simpa [old] using stored
  named {key bearer} stored := by
    rw [node?_store] at stored
    split at stored
    · obtain rfl := Option.some.inj stored
      exact named
    · exact wellFormed.named stored
  admits {key bearer} stored := by
    have larger :
        registry.nodes.size ≤ (registry.store node).2.nodes.size := by
      simp [Registry.store]
    rw [node?_store] at stored
    split at stored
    · obtain rfl := Option.some.inj stored
      exact admits.mono le_rfl larger
    · exact (wellFormed.admits stored).mono le_rfl larger

/-- A stored node may be replaced by one that keeps its name, and a node no
name is bound to by any other. -/
theorem WellFormed.replace
    (wellFormed : registry.WellFormed) {key : Key} {old node : Node}
    (stored : registry.node? key = some old)
    (named : node.name < registry.strings.size)
    (admits : registry.Admits node.body)
    (bearing : ∀ name, registry.binding name = some key →
      node.name = name) :
    (registry.replace key node).WellFormed where
  numbered := wellFormed.numbered.of_same rfl rfl
  slots := wellFormed.slots
  bound {name bearer} bound := by
    rw [node?_replace stored]
    by_cases same : bearer = key
    · subst same
      exact ⟨node, if_pos rfl, bearing name bound⟩
    · rw [if_neg same]
      exact wellFormed.bound bound
  named {other bearer} present := by
    rw [node?_replace stored] at present
    split at present
    · obtain rfl := Option.some.inj present
      exact named
    · exact wellFormed.named present
  admits {other bearer} present := by
    have size : registry.nodes.size =
        (registry.replace key node).nodes.size :=
      (Array.size_setIfInBounds ..).symm
    rw [node?_replace stored] at present
    split at present
    · obtain rfl := Option.some.inj present
      exact admits.mono le_rfl size.le
    · exact (wellFormed.admits present).mono le_rfl size.le

/-- A node may be dropped when its name is released. -/
theorem WellFormed.drop_release
    (wellFormed : registry.WellFormed) {key : Key} {node : Node}
    (stored : registry.node? key = some node) :
    ((registry.drop key).release node.name key).WellFormed := by
  have strings : ((registry.drop key).release node.name key).strings =
      registry.strings := by
    unfold Registry.release
    split <;> rfl
  have names : ((registry.drop key).release node.name key).names =
      registry.names := by
    unfold Registry.release
    split <;> rfl
  have kept : ∀ {other bearer},
      ((registry.drop key).release node.name key).node? other =
        some bearer →
      other ≠ key ∧ registry.node? other = some bearer := by
    intro other bearer present
    rw [node?_release, node?_drop] at present
    split at present
    · cases present
    · rename_i different
      exact ⟨different, present⟩
  exact {
    numbered := wellFormed.numbered.of_same strings names
    slots := by
      rw [strings, ← wellFormed.slots]
      unfold Registry.release
      split
      · exact Array.size_setIfInBounds ..
      · rfl
    bound := by
      intro name bearer bound
      rw [binding_release, binding_drop, binding_drop] at bound
      by_cases released : name = node.name ∧
          registry.binding node.name = some key
      · rw [if_pos released] at bound
        cases bound
      · rw [if_neg released] at bound
        obtain ⟨found, present, named⟩ := wellFormed.bound bound
        have different : bearer ≠ key := by
          rintro rfl
          rw [stored] at present
          obtain rfl := Option.some.inj present
          exact released ⟨named.symm, named ▸ bound⟩
        refine ⟨found, ?_, named⟩
        rw [node?_release, node?_drop, if_neg different]
        exact present
    named := fun present => strings ▸ wellFormed.named (kept present).2
    admits := by
      intro other bearer present
      have size : registry.nodes.size =
          ((registry.drop key).release node.name key).nodes.size := by
        unfold Registry.release
        split <;> exact (Array.size_setIfInBounds ..).symm
      exact (wellFormed.admits (kept present).2).mono
        (congrArg Array.size strings).ge size.le }

end Changes

end Registry

end NamedLogic
