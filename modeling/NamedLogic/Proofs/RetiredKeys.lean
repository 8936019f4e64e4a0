import NamedLogic.Proofs.BasicChanges

/-!
# Keys that were issued once

Keys are issued in order, and no key is issued twice: once a node was dropped,
its key leads nowhere for good.  For as long as a key leads to a node, the node
is of the same kind.  Strings, on the other hand, are only forgotten when the
whole registry is cleared.  These are properties of single operations that carry
over to all histories.
-/

namespace NamedLogic

namespace Registry

/-- In the second registry no key that led nowhere in the first leads anywhere,
unless it was not issued by then. -/
structure Retains (before after : Registry) : Prop where
  issued : before.nodes.size ≤ after.nodes.size
  retired : ∀ key, key.id < before.nodes.size →
    before.node? key = none → after.node? key = none

/-- The second registry continues the first without having been cleared. -/
structure Continues (before after : Registry) : Prop
    extends Retains before after where
  strings : ∀ {name : Name} {string : String},
    before.strings[name]? = some string →
      after.strings[name]? = some string

/-- Moreover, a key that leads somewhere in both registries leads to nodes of the
same kind. -/
structure KeepsKinds (before after : Registry) : Prop
    extends Retains before after where
  kinds : ∀ {key : Key} {old node : Node}, before.node? key = some old →
    after.node? key = some node → node.body.kind = old.body.kind

section Relations

variable {before middle after : Registry}

theorem Retains.trans
    (first : before.Retains middle) (second : middle.Retains after) :
    before.Retains after where
  issued := first.issued.trans second.issued
  retired key inside absent :=
    second.retired key (Nat.lt_of_lt_of_le inside first.issued)
      (first.retired key inside absent)

theorem Continues.refl (registry : Registry) :
    registry.Continues registry where
  issued := le_rfl
  retired _ _ := id
  strings := id

theorem Continues.trans
    (first : before.Continues middle) (second : middle.Continues after) :
    before.Continues after where
  toRetains := first.toRetains.trans second.toRetains
  strings := second.strings ∘ first.strings

theorem KeepsKinds.trans
    (first : before.KeepsKinds middle) (second : middle.KeepsKinds after) :
    before.KeepsKinds after where
  toRetains := first.toRetains.trans second.toRetains
  kinds {key old node} stored found := by
    cases between : middle.node? key with
    | none =>
        -- A node that was dropped cannot be found again.
        have inside := Nat.lt_of_lt_of_le (id_lt_of_node? stored) first.issued
        rw [second.retired key inside between] at found
        cases found
    | some other =>
        exact (second.kinds between found).trans (first.kinds stored between)

end Relations

/-! ## Basic changes -/

section Changes

variable {before after : Registry}

/-- A change that touches neither nodes nor strings. -/
theorem continues_of_same
    (nodes : after.nodes = before.nodes)
    (strings : after.strings = before.strings) : before.Continues after where
  issued := by rw [nodes]
  retired key _ absent := by rw [Registry.node?, nodes, ← absent, Registry.node?]
  strings entered := by rwa [strings]

theorem Extends.continues (extension : before.Extends after) :
    before.Continues after where
  issued := extension.issued
  retired _ inside absent := (extension.nodes inside).trans absent
  strings := extension.strings

theorem continues_replace
    {registry : Registry} {key : Key} {old : Node}
    (stored : registry.node? key = some old) (node : Node) :
    registry.Continues (registry.replace key node) where
  issued := by simp [Registry.replace]
  retired other _ absent := by
    have different : other ≠ key := by
      rintro rfl
      rw [stored] at absent
      cases absent
    rw [node?_replace stored, if_neg different, absent]
  strings := id

theorem continues_drop (registry : Registry) (key : Key) :
    registry.Continues (registry.drop key) where
  issued := by simp [Registry.drop]
  retired other _ absent := by rw [node?_drop, absent, ite_self]
  strings := id

theorem ChangesTo.continues (changes : before.ChangesTo after) :
    before.Continues after := by
  induction changes with
  | start => exact Continues.refl before
  | extend _ extension inductionHypothesis =>
      exact inductionHypothesis.trans extension.continues
  | configure | bind | unbind =>
      rename_i inductionHypothesis
      exact inductionHypothesis.trans (continues_of_same rfl rfl)
  | replace _ stored _ inductionHypothesis =>
      exact inductionHypothesis.trans (continues_replace stored _)
  | drop _ key inductionHypothesis =>
      exact inductionHypothesis.trans (continues_drop _ key)

/-- Where every node that is found was there before, kinds are kept. -/
theorem Continues.keepsKinds
    (continues : before.Continues after)
    (earlier : ∀ {key : Key} {node : Node}, after.node? key = some node →
      before.node? key = some node ∨ before.node? key = none) :
    before.KeepsKinds after where
  toRetains := continues.toRetains
  kinds stored found := by
    rcases earlier found with there | absent
    · rw [Option.some.inj (there.symm.trans stored)]
    · rw [absent] at stored
      cases stored

theorem keepsKinds_replace
    {registry : Registry} {key : Key} {old node : Node}
    (stored : registry.node? key = some old)
    (same : node.body.kind = old.body.kind) :
    registry.KeepsKinds (registry.replace key node) where
  toRetains := (continues_replace stored node).toRetains
  kinds {other _ _} there found := by
    rw [node?_replace stored] at found
    split at found
    · next equal =>
        rw [← Option.some.inj found,
          Option.some.inj (there.symm.trans (equal ▸ stored))]
        exact same
    · rw [Option.some.inj (there.symm.trans found)]

theorem ChangesTo.keepsKinds (changes : before.ChangesTo after) :
    before.KeepsKinds after := by
  induction changes with
  | start => exact (Continues.refl before).keepsKinds .inl
  | @extend middle after _ extension inductionHypothesis =>
      refine inductionHypothesis.trans <| extension.continues.keepsKinds ?_
      intro key node found
      cases there : middle.node? key with
      | none => exact .inr rfl
      | some old => exact .inl ((extension.node? there).symm.trans found)
  | configure | bind | unbind =>
      rename_i inductionHypothesis
      exact inductionHypothesis.trans
        (Continues.keepsKinds (continues_of_same rfl rfl) .inl)
  | replace _ stored same inductionHypothesis =>
      exact inductionHypothesis.trans (keepsKinds_replace stored same)
  | @drop middle _ key inductionHypothesis =>
      refine inductionHypothesis.trans <|
        (continues_drop middle key).keepsKinds fun {other node} found => ?_
      rw [node?_drop] at found
      split at found
      · cases found
      · exact .inl found

theorem retains_clear (registry : Registry) :
    registry.Retains registry.clear where
  issued := by simp [clear]
  retired key _ _ := node?_clear registry key

end Changes

end Registry

/-! ## Operations -/

namespace Operation

/-- Every operation but clearing continues the registry, whether it is refused
or not. -/
theorem continues
    {operation : Operation} (lasting : operation.clears = false)
    {registry : Registry} (wellFormed : registry.WellFormed) :
    registry.Continues (operation.apply registry) :=
  (operation.changes lasting wellFormed).continues

theorem retains
    (operation : Operation) {registry : Registry}
    (wellFormed : registry.WellFormed) :
    registry.Retains (operation.apply registry) := by
  cases lasting : operation.clears with
  | false => exact (operation.continues lasting wellFormed).toRetains
  | true =>
      cases operation with
      | clear => exact Registry.retains_clear registry
      | _ => cases lasting

/-- No operation changes the kind of a stored node. -/
theorem keepsKinds
    (operation : Operation) {registry : Registry}
    (wellFormed : registry.WellFormed) :
    registry.KeepsKinds (operation.apply registry) := by
  cases lasting : operation.clears with
  | false => exact (operation.changes lasting wellFormed).keepsKinds
  | true =>
      cases operation with
      | clear =>
          refine ⟨Registry.retains_clear registry, fun {key _ after} _ found => ?_⟩
          change registry.clear.node? key = some after at found
          rw [Registry.node?_clear] at found
          cases found
      | _ => cases lasting

/-- The registry after a list of operations. -/
def applyAll (history : List Operation) (registry : Registry) : Registry :=
  history.foldl (fun registry operation => operation.apply registry) registry

end Operation

namespace Registry

variable {registry : Registry}

theorem Reachable.applyAll
    (reachable : registry.Reachable) (history : List Operation) :
    (Operation.applyAll history registry).Reachable :=
  reachable.foldl history

/-- No key that led nowhere once it was issued ever leads anywhere again. -/
theorem Reachable.retains
    (reachable : registry.Reachable) (history : List Operation) :
    registry.Retains (Operation.applyAll history registry) := by
  induction history generalizing registry with
  | nil => exact (Continues.refl registry).toRetains
  | cons operation history inductionHypothesis =>
      exact (operation.retains reachable.wellFormed).trans
        (inductionHypothesis (reachable.step operation))

/-- If a node is still stored then the registry was not cleared, and all
strings are still those of the same names. -/
theorem Reachable.continues_of_stored
    (reachable : registry.Reachable) {history : List Operation}
    {key : Key} (issued : key.id < registry.nodes.size)
    (kept : ((Operation.applyAll history registry).node? key).isSome) :
    registry.Continues (Operation.applyAll history registry) := by
  induction history generalizing registry with
  | nil => exact Continues.refl registry
  | cons operation history inductionHypothesis =>
      have next := reachable.step operation
      have first := operation.retains reachable.wellFormed
      have inside := Nat.lt_of_lt_of_le issued first.issued
      have rest := inductionHypothesis next inside kept
      cases lasting : operation.clears with
      | false =>
          exact (operation.continues lasting reachable.wellFormed).trans rest
      | true =>
          have gone : (operation.apply registry).node? key = none := by
            cases operation with
            | clear => exact node?_clear registry key
            | _ => cases lasting
          have later := (next.retains history).retired key inside gone
          rw [Operation.applyAll, List.foldl_cons] at kept
          rw [Operation.applyAll] at later
          rw [later] at kept
          cases kept

end Registry

end NamedLogic
