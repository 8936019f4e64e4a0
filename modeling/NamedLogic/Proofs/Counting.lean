import NamedLogic.Proofs.WellFormed
import Mathlib.Data.List.Perm.Subperm

/-!
# Counting

The number of bound names and the number of stored nodes bound the length of
any list of distinct names or keys of that kind.  Since the nodes of distinct
bound names are distinct, there are no more bound names than stored nodes.
-/

namespace NamedLogic

/-- The occupied slots of an array are counted by their positions. -/
theorem countP_isSome_eq {α : Type} (slots : Array (Option α)) :
    slots.countP Option.isSome =
      ((List.range slots.size).filter
        fun position => slots[position]?.join.isSome).length := by
  have listed :
      slots.toList =
        (List.range slots.size).map fun position => slots[position]?.join := by
    apply List.ext_getElem
    · simp
    · intro position inside _
      have within : position < slots.size := by simpa using inside
      simp [within]
  rw [← Array.countP_toList, listed, List.countP_map,
    List.countP_eq_length_filter]
  rfl

/-- Distinct positions of occupied slots are not more than these. -/
theorem length_le_countP_isSome
    {α : Type} {slots : Array (Option α)} {positions : List Nat}
    (distinct : positions.Nodup)
    (occupied : ∀ position ∈ positions, slots[position]?.join.isSome) :
    positions.length ≤ slots.countP Option.isSome := by
  rw [countP_isSome_eq]
  apply (distinct.subperm ?_).length_le
  intro position member
  refine List.mem_filter.mpr ⟨?_, occupied position member⟩
  rw [List.mem_range]
  by_contra outside
  have absent : slots[position]? = none :=
    Array.getElem?_eq_none (Nat.le_of_not_lt outside)
  have there := occupied position member
  simp [absent] at there

namespace Registry

variable {registry : Registry}

/-- Distinct bound names are not more than the bound names counted. -/
theorem length_le_size
    {names : List Name} (distinct : names.Nodup)
    (bound : ∀ name ∈ names, (registry.binding name).isSome) :
    names.length ≤ registry.size :=
  length_le_countP_isSome distinct bound

/-- Distinct strings that are taken are not more than the bound names. -/
theorem Numbered.length_le_size_of_taken
    (numbered : registry.Numbered)
    {strings : List String} (distinct : strings.Nodup)
    (taken : ∀ string ∈ strings, (registry.get? string).isSome) :
    strings.length ≤ registry.size := by
  have named : ∀ string ∈ strings, ∃ name,
      registry.lookup string = some name ∧
        (registry.binding name).isSome := by
    intro string member
    obtain ⟨key, found⟩ :=
      Option.isSome_iff_exists.mp (taken string member)
    obtain ⟨name, entered, bound⟩ := Option.bind_eq_some_iff.mp found
    exact ⟨name, entered, Option.isSome_iff_exists.mpr ⟨key, bound⟩⟩
  let names := strings.map fun string => (registry.lookup string).getD 0
  have namesNodup : names.Nodup := by
    apply distinct.map_on
    intro first firstMember second secondMember equal
    obtain ⟨firstName, firstEntered, _⟩ := named first firstMember
    obtain ⟨secondName, secondEntered, _⟩ := named second secondMember
    simp only [firstEntered, secondEntered, Option.getD_some] at equal
    subst equal
    have there := numbered.strings_of_lookup firstEntered
    rw [numbered.strings_of_lookup secondEntered] at there
    exact (Option.some.inj there).symm
  have namesBound :
      ∀ name ∈ names, (registry.binding name).isSome := by
    intro name member
    obtain ⟨string, inStrings, rfl⟩ := List.mem_map.mp member
    obtain ⟨name, entered, bound⟩ := named string inStrings
    simpa [entered] using bound
  simpa [names] using length_le_size namesNodup namesBound

/-- A key is bound under one name only. -/
theorem WellFormed.binding_injective
    (wellFormed : registry.WellFormed) {first second : Name} {key : Key}
    (firstBound : registry.binding first = some key)
    (secondBound : registry.binding second = some key) :
    first = second := by
  obtain ⟨node, stored, rfl⟩ := wellFormed.bound firstBound
  obtain ⟨other, storedOther, rfl⟩ := wellFormed.bound secondBound
  rw [stored] at storedOther
  exact congrArg Node.name (Option.some.inj storedOther)

/-- There are no more bound names than stored nodes. -/
theorem WellFormed.size_le_nodeCount
    (wellFormed : registry.WellFormed) :
    registry.size ≤ registry.nodeCount := by
  let names := (List.range registry.bindings.size).filter
    fun name => (registry.binding name).isSome
  let places := names.map
    fun name => ((registry.binding name).getD Key.null).id
  have boundName : ∀ name ∈ names, ∃ key,
      registry.binding name = some key := by
    intro name member
    exact Option.isSome_iff_exists.mp (List.mem_filter.mp member).2
  have placesNodup : places.Nodup := by
    apply (List.nodup_range.filter _).map_on
    intro first firstMember second secondMember equal
    obtain ⟨firstKey, firstBound⟩ := boundName first firstMember
    obtain ⟨secondKey, secondBound⟩ := boundName second secondMember
    simp only [firstBound, secondBound, Option.getD_some] at equal
    have sameKey : firstKey = secondKey := congrArg Key.mk equal
    exact wellFormed.binding_injective firstBound (sameKey ▸ secondBound)
  have placesOccupied : ∀ place ∈ places,
      registry.nodes[place]?.join.isSome := by
    intro place member
    obtain ⟨name, inNames, rfl⟩ := List.mem_map.mp member
    obtain ⟨key, bound⟩ := boundName name inNames
    obtain ⟨node, stored, _⟩ := wellFormed.bound bound
    rw [bound, Option.getD_some]
    exact Option.isSome_iff_exists.mpr ⟨node, stored⟩
  calc registry.size = names.length := countP_isSome_eq registry.bindings
    _ = places.length := (List.length_map _).symm
    _ ≤ registry.nodeCount :=
        length_le_countP_isSome placesNodup placesOccupied

end Registry

end NamedLogic
