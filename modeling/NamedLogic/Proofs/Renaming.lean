import NamedLogic.Proofs.Outcomes
import NamedLogic.Proofs.Representation

/-!
# Renaming a node

A renaming enters the new name, puts it into the node, takes the old name away
from the node and gives it the new one.  The two names may be the same, the node
may not have been bound to the old one, and the new one may have belonged to
another node; in each case only the bindings of the two names change.
-/

namespace NamedLogic

namespace Registry

variable {before middle after registry : Registry} {key : Key} {node : Node}
  {name : Name} {string : String}

/-- A renaming that is not refused has found the node, and has made all its
changes. -/
theorem exists_of_yields_rename
    (run : registry.Yields (rename key string) PUnit.unit after) :
    ∃ node, registry.node? key = some node ∧
      after = ((((registry.intern string).2.replace key
        { node with name := (registry.intern string).1 }).release
          node.name key).bind (registry.intern string).1 key).2 := by
  unfold rename at run
  by_cases empty : string.isEmpty
  · rw [if_pos empty] at run
    obtain ⟨_, _, refusal, _⟩ := yields_bind_iff.mp run
    exact (yields_throw_iff.mp refusal).elim
  · rw [if_neg empty] at run
    obtain ⟨_, _, entering, run⟩ := yields_bind_iff.mp run
    obtain ⟨rfl, rfl⟩ := yields_modifyGet_iff.mp entering
    obtain ⟨node, _, looking, run⟩ := yields_bind_iff.mp run
    obtain ⟨stored, rfl⟩ := yields_stored_iff.mp looking
    rw [node?_intern] at stored
    by_cases operand : node.junction?.any
        fun junction => junction.2.contains (registry.intern string).1
    · rw [if_pos operand] at run
      obtain ⟨_, _, refusal, _⟩ := yields_bind_iff.mp run
      exact (yields_throw_iff.mp refusal).elim
    · rw [if_neg operand] at run
      exact ⟨node, stored, (yields_modify_iff.mp run).symm⟩

/-! ## The tables after a renaming -/

/-- The second registry is the first one, except that the node under the key
has another name and is bound to it, and is no longer bound to its old one. -/
structure Renames
    (before : Registry) (key : Key) (node : Node) (name : Name)
    (after : Registry) : Prop where
  renamed : after.node? key = some { node with name }
  nodes : ∀ {other}, other ≠ key → after.node? other = before.node? other
  bound : after.binding name = some key
  released : node.name ≠ name → after.binding node.name =
    if before.binding node.name = some key then none
    else before.binding node.name
  bindings : ∀ {other}, other ≠ node.name → other ≠ name →
    after.binding other = before.binding other

/-- The changes made by a renaming, provided the new name has a slot. -/
theorem renames_of_stored
    (stored : before.node? key = some node)
    (inside : name < before.bindings.size) :
    before.Renames key node name
      ((((before.replace key { node with name }).release node.name key).bind
        name key).2) := by
  let renamed := before.replace key { node with name }
  have slot : name < (renamed.release node.name key).bindings.size := by
    unfold release
    split
    · simpa [renamed, unbind, replace] using inside
    · exact inside
  constructor
  case renamed =>
    rw [node?_bind, node?_release, node?_replace stored, if_pos rfl]
  case nodes =>
    intro other different
    rw [node?_bind, node?_release, node?_replace stored, if_neg different]
  case bound =>
    rw [binding_bind slot, if_pos rfl]
  case released =>
    intro different
    rw [binding_bind slot, if_neg different, binding_release,
      binding_replace]
    simp
  case bindings =>
    intro other notOld notNew
    rw [binding_bind slot, if_neg notNew, binding_release,
      if_neg fun old => notOld old.1]
    exact binding_replace before key _ other

theorem renames_of_yields
    (wellFormed : registry.WellFormed)
    (stored : registry.node? key = some node)
    (run : registry.Yields (rename key string) PUnit.unit after) :
    registry.Renames key node (registry.intern string).1 after ∧
      after.strings = (registry.intern string).2.strings := by
  obtain ⟨found, there, rfl⟩ := exists_of_yields_rename run
  obtain rfl : found = node := Option.some.inj (there.symm.trans stored)
  have entered : (registry.intern string).2.node? key = some found := by
    rw [node?_intern, stored]
  have inside : (registry.intern string).1 <
      (registry.intern string).2.bindings.size := by
    rw [(wellFormed.intern string).slots]
    exact wellFormed.numbered.intern_lt string
  have renames := renames_of_stored entered inside
  constructor
  · -- Entering the new name has changed no node and no binding.
    constructor
    · exact renames.renamed
    · intro other different
      rw [renames.nodes different, node?_intern]
    · exact renames.bound
    · intro different
      rw [renames.released different, binding_intern]
    · intro other notOld notNew
      rw [renames.bindings notOld notNew, binding_intern]
  · unfold release
    split <;> rfl

/-- Entering the string of a name in the table leads back to the name. -/
theorem WellFormed.intern_string
    (wellFormed : registry.WellFormed)
    (inside : name < registry.strings.size) :
    (registry.intern (registry.string name)).1 = name := by
  have found := wellFormed.lookup_of_strings (strings_of_lt inside)
  unfold Registry.intern
  rw [found]

/-- A node that is given its old name again is where it was, provided it was
bound to the old name and the new name was free. -/
theorem Renames.restores
    (renames : before.Renames key node name middle)
    (own : before.binding node.name = some key)
    (free : before.binding name = none)
    (stored : before.node? key = some node)
    (back : middle.Renames key { node with name } node.name after) :
    (∀ other, after.binding other = before.binding other) ∧
      ∀ other, after.node? other = before.node? other := by
  have different : name ≠ node.name := by
    rintro rfl
    rw [own] at free
    cases free
  constructor
  · intro other
    by_cases old : other = node.name
    · rw [old, back.bound, own]
    · by_cases new : other = name
      · rw [new, back.released different, if_pos renames.bound, free]
      · rw [back.bindings new old, renames.bindings old new]
  · intro other
    by_cases same : other = key
    · rw [same, back.renamed, stored]
    · rw [back.nodes same, renames.nodes same]

/-! ## Every state -/

/-- A renaming that is not refused gives the node the new name, binds the name to
the node, and unbinds the old name if it is another and was bound to the node.
A node that the new name was bound to before stays stored as it was, and nothing
else changes.  If the old name was bound to the node and the new one was free, then
giving the old name back restores every binding and every node, unless it is
refused. -/
theorem Reachable.rename_moves_binding
    (reachable : registry.Reachable)
    (stored : registry.node? key = some node)
    (run : registry.Yields (rename key string) PUnit.unit after) :
    (after.nameOf? key = some string ∧ after.get? string = some key) ∧
      (∃ name, after.node? key = some { node with name }) ∧
      (registry.string node.name ≠ string →
        after.binding node.name =
          if registry.binding node.name = some key then none
          else registry.binding node.name) ∧
      (∀ other, registry.get? string = some other → other ≠ key →
        ∃ bearer, registry.node? other = some bearer ∧
          after.node? other = some bearer) ∧
      (∀ other, other ≠ key →
        after.node? other = registry.node? other) ∧
      (∀ name, name ≠ node.name → after.string name ≠ string →
        after.binding name = registry.binding name) ∧
      (∀ name < registry.strings.size,
        after.string name = registry.string name) ∧
      (registry.binding node.name = some key → registry.get? string = none →
        ∀ final, after.Yields
            (rename key (registry.string node.name)) PUnit.unit final →
          (∀ name, final.binding name = registry.binding name) ∧
            ∀ other, final.node? other = registry.node? other) := by
  have wellFormed := reachable.wellFormed
  let name := (registry.intern string).1
  obtain ⟨renames, strings⟩ := renames_of_yields wellFormed stored run
  have entered : after.strings[name]? = some string := by
    rw [strings]
    exact wellFormed.numbered.strings_intern_self string
  have kept : ∀ other < registry.strings.size,
      after.string other = registry.string other := by
    intro other inside
    apply string_of_strings
    rw [strings]
    exact strings_intern (strings_of_lt inside) string
  have afterReachable : after.Reachable := by
    rw [← run.after_eq]
    exact .step reachable (.rename key string)
  have named := wellFormed.named stored
  have oldName := kept node.name named
  have found : after.get? string = some key := by
    rw [get?, afterReachable.wellFormed.lookup_of_strings entered]
    exact renames.bound
  refine ⟨⟨?_, found⟩, ⟨name, renames.renamed⟩, ?_, ?_,
    fun other => renames.nodes, ?_, kept, ?_⟩
  · rw [nameOf?, renames.renamed]
    exact congrArg some (string_of_strings entered)
  · intro different
    apply renames.released
    intro same
    apply different
    rw [← oldName, same]
    exact string_of_strings entered
  · intro other bound different
    obtain ⟨own, _, boundHere⟩ := Option.bind_eq_some_iff.mp bound
    obtain ⟨bearer, there, _⟩ := wellFormed.bound boundHere
    exact ⟨bearer, there, (renames.nodes different).trans there⟩
  · intro other notOld notNew
    apply renames.bindings notOld
    rintro rfl
    exact notNew (string_of_strings entered)
  · intro own free final again
    have inside : node.name < after.strings.size := by
      rw [strings]
      exact Nat.lt_of_lt_of_le named (strings_intern_size_le string)
    rw [← oldName] at again
    obtain ⟨back, _⟩ := renames_of_yields afterReachable.wellFormed
      renames.renamed again
    rw [afterReachable.wellFormed.intern_string inside] at back
    have unbound : registry.binding name = none := by
      rw [wellFormed.binding_intern_self, free]
    exact renames.restores own unbound stored back

/-- A negation takes over the name of an atom, which stays stored.  It then takes
a new name and its first one again. -/
theorem rename_moves_binding_of_takeover :
    let registry := replay [.atom "p", .atom "q", .negation ⟨1⟩]
    let taken := registry.after (rename ⟨3⟩ "q")
    let moved := registry.after (rename ⟨3⟩ "n")
    let back := moved.after (rename ⟨3⟩ "F1")
    registry.Yields (rename ⟨3⟩ "q") PUnit.unit taken ∧
      registry.Yields (rename ⟨3⟩ "n") PUnit.unit moved ∧
      moved.Yields (rename ⟨3⟩ "F1") PUnit.unit back ∧
      taken.get? "q" = some ⟨3⟩ ∧
      taken.binding 2 = none ∧
      (∃ bearer, registry.node? ⟨2⟩ = some bearer ∧
        taken.node? ⟨2⟩ = some bearer) ∧
      taken.binding 0 = registry.binding 0 ∧
      (∀ name, back.binding name = registry.binding name) ∧
      ∀ other, back.node? other = registry.node? other := by
  intro registry taken moved back
  have reachable : registry.Reachable := reachable_replay _
  have stored : registry.node? ⟨3⟩ =
      some { name := 2, body := .negation 0 } := by decide +kernel
  have taking : registry.Yields (rename ⟨3⟩ "q") PUnit.unit taken :=
    yields_after (by decide +kernel)
  have moving : registry.Yields (rename ⟨3⟩ "n") PUnit.unit moved :=
    yields_after (by decide +kernel)
  have returning : moved.Yields (rename ⟨3⟩ "F1") PUnit.unit back :=
    yields_after (by decide +kernel)
  obtain ⟨⟨_, bound⟩, _, released, ousted, _, others, _⟩ :=
    reachable.rename_moves_binding stored taking
  obtain ⟨_, _, _, _, _, _, _, restored⟩ :=
    reachable.rename_moves_binding stored moving
  have first : registry.string 2 = "F1" := by decide +kernel
  have own : registry.binding 2 = some ⟨3⟩ := by decide +kernel
  obtain ⟨bindings, nodes⟩ := restored own (by decide +kernel) back
    (by rw [first]; exact returning)
  refine ⟨taking, moving, returning, bound, ?_,
    ousted ⟨2⟩ (by decide +kernel) (by decide), ?_, bindings, nodes⟩
  · rw [released (by decide +kernel), if_pos own]
  · exact others 0 (by decide) (by decide +kernel)

end Registry

end NamedLogic
