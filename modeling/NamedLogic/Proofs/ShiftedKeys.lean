import NamedLogic.Proofs.Tables
import Mathlib.Data.List.ReduceOption

/-!
# Registries with shifted keys

A registry whose keys are all moved up by the same number of places differs
from the original in its keys alone.  Names, strings and counters are the same,
so that every basic view and every basic change of the one is that of the other
with its keys moved up.
-/

namespace NamedLogic

/-- The key a number of places further up. -/
def Key.shift (offset : Nat) (key : Key) : Key := ⟨key.id + offset⟩

theorem Key.shift_injective (offset : Nat) :
    Function.Injective (Key.shift offset) := by
  intro first second equal
  have ids : first.id + offset = second.id + offset := congrArg Key.id equal
  exact congrArg Key.mk (Nat.add_right_cancel ids)

@[simp] theorem Key.beq_shift (offset : Nat) (first second : Key) :
    (first.shift offset == second.shift offset) = (first == second) := by
  rw [Bool.eq_iff_iff, beq_iff_eq, beq_iff_eq,
    (Key.shift_injective offset).eq_iff]

/-- A body with another key for the formula generated for it. -/
def Body.rekey (rename : Key → Key) : Body → Body
  | .dnf atoms rows generated => .dnf atoms rows (generated.map rename)
  | body => body

/-- A node with other keys. -/
def Node.rekey (rename : Key → Key) (node : Node) : Node :=
  { node with body := node.body.rekey rename }

namespace Node

variable (rename : Key → Key) (node : Node)

@[simp] theorem rekey_name : (node.rekey rename).name = node.name := rfl

@[simp] theorem rekey_body :
    (node.rekey rename).body = node.body.rekey rename := rfl

@[simp] theorem rekey_isAtom : (node.rekey rename).isAtom = node.isAtom := by
  obtain ⟨_, _, body⟩ := node
  cases body <;> rfl

@[simp] theorem rekey_junction? :
    (node.rekey rename).junction? = node.junction? := by
  obtain ⟨_, _, body⟩ := node
  cases body <;> rfl

@[simp] theorem rekey_negated? :
    (node.rekey rename).negated? = node.negated? := by
  obtain ⟨_, _, body⟩ := node
  cases body <;> rfl

@[simp] theorem rekey_operandsUnder? (connective : Connective) :
    (node.rekey rename).operandsUnder? connective =
      node.operandsUnder? connective := by
  obtain ⟨_, _, body⟩ := node
  cases body <;> rfl

@[simp] theorem rekey_references :
    (node.rekey rename).references = node.references := by
  obtain ⟨_, _, body⟩ := node
  cases body <;> rfl

end Node

namespace Registry

/-- The registry with all keys moved up, and with empty places before them. -/
def shift (registry : Registry) (offset : Nat) : Registry :=
  { registry with
    nodes := Array.replicate offset none ++
      registry.nodes.map (Option.map (Node.rekey (Key.shift offset)))
    bindings := registry.bindings.map (Option.map (Key.shift offset)) }

section Views

variable (registry : Registry) (offset : Nat)

@[simp] theorem shift_strings :
    (registry.shift offset).strings = registry.strings := rfl

@[simp] theorem shift_string (name : Name) :
    (registry.shift offset).string name = registry.string name := rfl

@[simp] theorem shift_lookup (string : String) :
    (registry.shift offset).lookup string = registry.lookup string := by
  rw [lookup, lookup]
  rfl

@[simp] theorem shift_levels (depth : Nat) :
    (registry.shift offset).levels depth = registry.levels depth := rfl

@[simp] theorem shift_counter (flavour : Flavour) :
    (registry.shift offset).counter flavour = registry.counter flavour := by
  cases flavour <;> rfl

@[simp] theorem shift_bindings_size :
    (registry.shift offset).bindings.size = registry.bindings.size := by
  simp [shift]

/-- Under a moved key the registry holds the node with its keys moved. -/
@[simp] theorem shift_node? (key : Key) :
    (registry.shift offset).node? (key.shift offset) =
      (registry.node? key).map (Node.rekey (Key.shift offset)) := by
  unfold node? shift Key.shift
  rw [Array.getElem?_append_right (by simp)]
  simp only [Array.size_replicate, Nat.add_sub_cancel, Array.getElem?_map]
  cases registry.nodes[key.id]? <;> rfl

@[simp] theorem shift_binding (name : Name) :
    (registry.shift offset).binding name =
      (registry.binding name).map (Key.shift offset) := by
  unfold binding shift
  simp only [Array.getElem?_map]
  cases registry.bindings[name]? <;> rfl

@[simp] theorem shift_referent? (name : Name) :
    (registry.shift offset).referent? name =
      (registry.referent? name).map (Node.rekey (Key.shift offset)) := by
  unfold referent?
  rw [shift_binding]
  cases registry.binding name with
  | none => rfl
  | some key => exact shift_node? registry offset key

@[simp] theorem shift_resolve (name : Name) :
    (registry.shift offset).resolve name =
      (registry.resolve name).map
        (Prod.map (Key.shift offset) (Node.rekey (Key.shift offset))) := by
  unfold resolve
  rw [shift_binding]
  cases registry.binding name with
  | none => rfl
  | some key =>
      rw [Option.map_some, Option.bind_some, Option.bind_some, shift_node?]
      cases registry.node? key <;> rfl

@[simp] theorem shift_get? (string : String) :
    (registry.shift offset).get? string =
      (registry.get? string).map (Key.shift offset) := by
  unfold get?
  rw [shift_lookup]
  cases registry.lookup string with
  | none => rfl
  | some name => exact shift_binding registry offset name

@[simp] theorem shift_nameOf? (key : Key) :
    (registry.shift offset).nameOf? (key.shift offset) =
      registry.nameOf? key := by
  unfold nameOf?
  rw [shift_node?, Option.map_map]
  rfl

@[simp] theorem shift_size :
    (registry.shift offset).size = registry.size := by
  unfold size shift
  rw [Array.countP_map]
  exact congrArg (Array.countP · _) (funext fun _ => Option.isSome_map ..)

@[simp] theorem shift_nodeCount :
    (registry.shift offset).nodeCount = registry.nodeCount := by
  unfold nodeCount shift
  rw [Array.countP_append, Array.countP_map, Array.countP_replicate]
  simp only [Option.isSome_none, Bool.false_eq_true, if_false, Nat.zero_add]
  exact congrArg (Array.countP · _) (funext fun _ => Option.isSome_map ..)

@[simp] theorem shift_ownedBy (entity : Entity) :
    (registry.shift offset).ownedBy entity =
      (registry.ownedBy entity).map (Key.shift offset) := by
  have owned : ∀ key : Key,
      ((registry.shift offset).node? (key.shift offset)).any
          (·.owner == some entity) =
        (registry.node? key).any (·.owner == some entity) := by
    intro key
    rw [shift_node?]
    cases registry.node? key <;> rfl
  have bound : (registry.shift offset).bindings.toList.reduceOption =
      registry.bindings.toList.reduceOption.map (Key.shift offset) := by
    rw [shift, Array.toList_map, List.reduceOption_map]
  unfold ownedBy
  rw [bound, List.filter_map]
  exact congrArg (List.map _) (List.filter_congr fun key _ => owned key)

end Views

/-! ## Changes -/

section Changes

variable (registry : Registry) (offset : Nat)

theorem shift_intern (string : String) :
    (registry.shift offset).intern string =
      (registry.intern string).map id (shift · offset) := by
  unfold intern
  rw [shift_lookup]
  cases registry.lookup string with
  | some name => rfl
  | none => simp [shift, Prod.map]

theorem shift_bind (name : Name) (key : Key) :
    (registry.shift offset).bind name (key.shift offset) =
      (registry.bind name key).map (Option.map (Key.shift offset))
        (shift · offset) := by
  have other : ((registry.binding name).map (Key.shift offset)).filter
        (· != key.shift offset) =
      ((registry.binding name).filter (· != key)).map
        (Key.shift offset) := by
    rw [Option.filter_map]
    refine congrArg (fun differs => Option.map _ (Option.filter differs _)) ?_
    funext bound
    rw [Function.comp_apply, bne, bne, Key.beq_shift]
  unfold bind
  rw [shift_binding, other]
  simp [shift, Prod.map]

theorem shift_unbind (name : Name) :
    (registry.shift offset).unbind name =
      (registry.unbind name).shift offset := by
  simp [unbind, shift]

theorem shift_release (name : Name) (key : Key) :
    (registry.shift offset).release name (key.shift offset) =
      (registry.release name key).shift offset := by
  have bound : (registry.shift offset).binding name =
        some (key.shift offset) ↔ registry.binding name = some key := by
    rw [shift_binding, ← Option.map_some,
      (Option.map_injective (Key.shift_injective offset)).eq_iff]
  unfold release
  rw [apply_ite (shift · offset), if_congr bound rfl rfl, shift_unbind]

theorem shift_store (node : Node) :
    (registry.shift offset).store (node.rekey (Key.shift offset)) =
      (registry.store node).map (Key.shift offset) (shift · offset) := by
  simp [store, shift, Key.shift, Prod.map, Nat.add_comm]

theorem shift_insert (node : Node) :
    (registry.shift offset).insert (node.rekey (Key.shift offset)) =
      (registry.insert node).map (Key.shift offset) (shift · offset) := by
  unfold insert
  rw [shift_store]
  dsimp only [Prod.map]
  rw [Node.rekey_name, shift_bind]
  rfl

theorem shift_setIfInBounds (key : Key) (entry : Option Node) :
    (registry.shift offset).nodes.setIfInBounds (key.shift offset).id
        (entry.map (Node.rekey (Key.shift offset))) =
      ({ registry with
          nodes := registry.nodes.setIfInBounds key.id entry
        }.shift offset).nodes := by
  simp only [shift, Key.shift, Array.map_setIfInBounds]
  rw [Array.setIfInBounds_append_right (by simp)]
  simp

theorem shift_replace (key : Key) (node : Node) :
    (registry.shift offset).replace (key.shift offset)
        (node.rekey (Key.shift offset)) =
      (registry.replace key node).shift offset := by
  unfold replace
  rw [← Option.map_some, shift_setIfInBounds]
  rfl

theorem shift_drop (key : Key) :
    (registry.shift offset).drop (key.shift offset) =
      (registry.drop key).shift offset := by
  unfold drop
  rw [← Option.map_none, shift_setIfInBounds]
  rfl

theorem shift_remove (string : String) :
    (registry.shift offset).remove string =
      (registry.remove string).map
        (Option.map (Node.rekey (Key.shift offset))) (shift · offset) := by
  unfold remove
  rw [shift_lookup]
  cases registry.lookup string with
  | none => rfl
  | some name =>
      dsimp only
      rw [shift_binding]
      cases registry.binding name with
      | none => rfl
      | some key =>
          dsimp only [Option.map_some]
          rw [shift_node?, shift_unbind, shift_drop]
          rfl

theorem shift_removeKey (key : Key) :
    (registry.shift offset).removeKey (key.shift offset) =
      (registry.removeKey key).map
        (Option.map (Node.rekey (Key.shift offset))) (shift · offset) := by
  unfold removeKey
  rw [shift_node?]
  cases registry.node? key with
  | none => rfl
  | some node =>
      dsimp only [Option.map_some]
      rw [shift_drop, Node.rekey_name, shift_release]
      rfl

theorem shift_clear :
    (registry.shift offset).clear = registry.clear.shift offset := by
  simp [clear, shift, Function.comp_def]

/-! ## Generated names -/

theorem shift_firstFree (stem : String) (tries counter : Nat) :
    (registry.shift offset).firstFree stem tries counter =
      registry.firstFree stem tries counter := by
  induction tries generalizing counter with
  | zero => rfl
  | succ tries inductionHypothesis =>
      rw [firstFree, firstFree, shift_get?, Option.isNone_map,
        inductionHypothesis]

theorem shift_setCounter (flavour : Flavour) (counter : Nat) :
    (registry.shift offset).setCounter flavour counter =
      (registry.setCounter flavour counter).shift offset := by
  cases flavour <;> rfl

theorem shift_freshName (flavour : Flavour) :
    (registry.shift offset).freshName flavour =
      (registry.freshName flavour).map id (shift · offset) := by
  unfold freshName
  dsimp only
  rw [shift_firstFree, shift_size, shift_counter, shift_setCounter,
    shift_intern]
  rfl

end Changes

end Registry

end NamedLogic
