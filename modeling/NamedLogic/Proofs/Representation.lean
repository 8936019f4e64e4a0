import NamedLogic.Registry.Operation
import NamedLogic.Proofs.DnfGrowth

/-!
# The representation invariant

Every operation keeps the tables of a registry in step, whether it is refused
or not.  Hence the tables are in step in every state a registry can come to be
in.
-/

namespace NamedLogic

namespace Registry

/-! ## Constructors that may rebind a name -/

theorem WellFormed.insert
    {registry : Registry} (wellFormed : registry.WellFormed) {node : Node}
    (named : node.name < registry.strings.size)
    (admits : registry.Admits node.body) :
    (registry.insert node).2.WellFormed :=
  (wellFormed.store named admits).bind (by simp)

theorem keeps_atom (string : String) (registry : Registry) :
    registry.Keeps (registry.after (atom string)) := by
  intro wellFormed
  unfold atom
  split
  · exact wellFormed
  · have interned := wellFormed.intern string
    refine keeps_bind (fun _ => interned) ?_ wellFormed
    intro name middle run
    obtain ⟨rfl, rfl⟩ := yields_modifyGet_iff.mp run
    rw [after_get_bind]
    split
    · exact id
    · intro _
      exact interned.insert (wellFormed.numbered.intern_lt string)
        ⟨by simp [Body.references], by simp [Body.generated?]⟩

/-! ## Changes of stored nodes -/

/-- A stored node may be replaced by one with the same name. -/
theorem WellFormed.replace_same_name
    {registry : Registry} (wellFormed : registry.WellFormed)
    {key : Key} {old node : Node}
    (stored : registry.node? key = some old) (named : node.name = old.name)
    (admits : registry.Admits node.body) :
    (registry.replace key node).WellFormed := by
  refine wellFormed.replace stored (named ▸ wellFormed.named stored)
    admits ?_
  intro name bound
  obtain ⟨bearer, storedBearer, bearerNamed⟩ := wellFormed.bound bound
  rw [stored] at storedBearer
  obtain rfl := Option.some.inj storedBearer
  exact named.trans bearerNamed

theorem keeps_addOperand
    (junction operand : Key) (registry : Registry) :
    registry.Keeps (registry.after (addOperand junction operand)) := by
  intro wellFormed
  refine after_stored_bind WellFormed wellFormed fun addition found => ?_
  refine after_stored_bind WellFormed wellFormed fun target stored => ?_
  split
  · rename_i connective operands body
    have admits := wellFormed.admits stored
    rw [body] at admits
    exact wellFormed.replace_same_name stored rfl <|
      wellFormed.admits_extendOperands found admits
  · exact wellFormed

/-- Revising the sides of an implication by a name in the table. -/
theorem keeps_reviseImplication
    {registry : Registry} (implication : Key)
    {revise : Option Name → Option Name → Body}
    (admits : ∀ antecedent consequent,
      registry.Admits (.implication antecedent consequent) →
        registry.Admits (revise antecedent consequent)) :
    registry.Keeps
      (registry.after (reviseImplication implication revise)) := by
  intro wellFormed
  refine after_stored_bind WellFormed wellFormed fun node stored => ?_
  split
  · rename_i antecedent consequent body
    have old := wellFormed.admits stored
    rw [body] at old
    exact wellFormed.replace_same_name stored rfl
      (admits antecedent consequent old)
  · exact wellFormed

theorem keeps_setAntecedent
    (implication : Key) (antecedent : Option Key) (registry : Registry) :
    registry.Keeps
      (registry.after (setAntecedent implication antecedent)) := by
  intro wellFormed
  refine after_sideName_bind WellFormed wellFormed fun side stored => ?_
  refine keeps_reviseImplication implication ?_ wellFormed
  intro _ consequent old
  refine ⟨?_, by simp [Body.generated?]⟩
  intro name member
  rcases List.mem_append.mp member with new | kept
  · obtain ⟨_, _, found, rfl⟩ := stored name new
    exact wellFormed.named found
  · exact old.references name (List.mem_append_right _ kept)

theorem keeps_setConsequent
    (implication : Key) (consequent : Option Key) (registry : Registry) :
    registry.Keeps
      (registry.after (setConsequent implication consequent)) := by
  intro wellFormed
  refine after_sideName_bind WellFormed wellFormed fun side stored => ?_
  refine keeps_reviseImplication implication ?_ wellFormed
  intro antecedent _ old
  refine ⟨?_, by simp [Body.generated?]⟩
  intro name member
  rcases List.mem_append.mp member with kept | new
  · exact old.references name (List.mem_append_left _ kept)
  · obtain ⟨_, _, found, rfl⟩ := stored name new
    exact wellFormed.named found

theorem keeps_setOwner
    (key : Key) (owner : Option Entity) (registry : Registry) :
    registry.Keeps (registry.after (setOwner key owner)) := by
  intro wellFormed
  refine after_stored_bind WellFormed wellFormed fun node stored => ?_
  have admits : registry.Admits node.body := wellFormed.admits stored
  exact wellFormed.replace_same_name stored rfl admits

/-! ## Names and bindings -/

theorem keeps_register (key : Key) (registry : Registry) :
    registry.Keeps (registry.after (register key)) := by
  intro wellFormed
  exact after_operandName_bind WellFormed wellFormed fun _ stored =>
    wellFormed.bind stored

theorem keeps_remove (string : String) (registry : Registry) :
    registry.Keeps (registry.remove string).2 := by
  intro wellFormed
  unfold remove
  split
  · exact wellFormed
  · split
    · exact wellFormed
    · rename_i key bound
      -- Dropping the node first would release the same binding.
      obtain ⟨node, stored, rfl⟩ := wellFormed.bound bound
      have released := wellFormed.drop_release stored
      rwa [Registry.release, binding_drop, if_pos bound] at released

theorem keeps_removeKey (key : Key) (registry : Registry) :
    registry.Keeps (registry.removeKey key).2 := by
  intro wellFormed
  unfold removeKey
  split
  · exact wellFormed
  · rename_i node stored
    exact wellFormed.drop_release stored

/-- Giving a stored node another name, releasing the old one. -/
theorem WellFormed.renamed
    {registry : Registry} (wellFormed : registry.WellFormed)
    {key : Key} {node : Node} (stored : registry.node? key = some node)
    {name : Name} (inside : name < registry.strings.size) :
    (((registry.replace key { node with name }).release node.name
      key).bind name key).2.WellFormed := by
  let renamed : Node := { node with name }
  have released := wellFormed.release node.name key
  have sameStrings :
      (registry.release node.name key).strings = registry.strings := by
    unfold Registry.release
    split <;> rfl
  have storedReleased :
      (registry.release node.name key).node? key = some node :=
    (node?_release ..).trans stored
  have admits : (registry.release node.name key).Admits node.body :=
    released.admits storedReleased
  -- No name is bound to the key once the old name is released.
  have replaced :
      ((registry.release node.name key).replace key renamed).WellFormed := by
    refine released.replace storedReleased ?_ admits ?_
    · rw [sameStrings]
      exact inside
    · intro other bound
      rw [binding_release] at bound
      split at bound
      · cases bound
      · rename_i notReleased
        obtain ⟨bearer, storedBearer, rfl⟩ := wellFormed.bound bound
        rw [stored] at storedBearer
        obtain rfl := Option.some.inj storedBearer
        exact (notReleased ⟨rfl, bound⟩).elim
  have order :
      (registry.replace key renamed).release node.name key =
        (registry.release node.name key).replace key renamed := by
    unfold Registry.release
    rw [binding_replace]
    split <;> rfl
  rw [order]
  exact replaced.bind
    (by rw [node?_replace storedReleased, if_pos rfl])

theorem keeps_rename (key : Key) (string : String) (registry : Registry) :
    registry.Keeps (registry.after (rename key string)) := by
  intro wellFormed
  unfold rename
  split
  · exact wellFormed
  · have interned := wellFormed.intern string
    refine keeps_bind (fun _ => interned) ?_ wellFormed
    intro name middle run
    obtain ⟨rfl, rfl⟩ := yields_modifyGet_iff.mp run
    intro _
    refine after_stored_bind WellFormed interned fun node stored => ?_
    split
    · exact interned
    · exact interned.renamed stored (wellFormed.numbered.intern_lt string)

theorem formative_keeps : Formative Keeps where
  refl := Keeps.refl
  trans := Keeps.trans
  negation registry operand := (grows_negation registry operand).keeps
  junction registry connective operands :=
    (grows_junction registry connective operands).keeps

theorem keeps_toFormula
    {V : Type} [TruthValue V] (valuation : Valuation V)
    (registry : Registry) :
    registry.Keeps (registry.after valuation.toFormula) :=
  formative_keeps.toFormula (fun current string => keeps_atom string current)
    valuation registry

end Registry

/-! ## Every state -/

/-- One operation keeps the tables in step. -/
theorem Operation.keeps (operation : Operation) (registry : Registry) :
    registry.Keeps (operation.apply registry) := by
  cases operation with
  | configure settings => exact fun wellFormed => wellFormed.configure settings
  | intern string => exact fun wellFormed => wellFormed.intern string
  | atom string => exact Registry.keeps_atom string registry
  | freshAtom => exact (Registry.grows_freshAtom registry).keeps
  | negation operand =>
      exact (Registry.grows_negation registry operand).keeps
  | junction connective operands =>
      exact (Registry.grows_junction registry connective operands).keeps
  | implication antecedent consequent =>
      exact
        (Registry.grows_implication registry antecedent consequent).keeps
  | setAntecedent target antecedent =>
      exact Registry.keeps_setAntecedent target antecedent registry
  | setConsequent target consequent =>
      exact Registry.keeps_setConsequent target consequent registry
  | addOperand target operand =>
      exact Registry.keeps_addOperand target operand registry
  | register key => exact Registry.keeps_register key registry
  | remove string => exact Registry.keeps_remove string registry
  | removeKey key => exact Registry.keeps_removeKey key registry
  | rename key string => exact Registry.keeps_rename key string registry
  | setOwner key owner => exact Registry.keeps_setOwner key owner registry
  | dnf atoms rows => exact (Registry.grows_dnf atoms rows registry).keeps
  | simplify key => exact (Registry.grows_simplify key registry).keeps
  | describe valuation => exact Registry.keeps_toFormula valuation registry
  | describeFour valuation =>
      exact Registry.keeps_toFormula valuation registry
  | clear => exact fun _ => Registry.wellFormed_clear

namespace Registry

/-- The tables are in step in every state. -/
theorem Reachable.wellFormed
    {registry : Registry} (reachable : registry.Reachable) :
    registry.WellFormed := by
  induction reachable with
  | empty settings => exact wellFormed_empty settings
  | step earlier operation inductionHypothesis =>
      exact operation.keeps _ inductionHypothesis

/-- The registry after a list of operations, from an empty one. -/
def replay (history : List Operation) : Registry :=
  history.foldl (fun registry operation => operation.apply registry)
    { settings := {} }

theorem Reachable.foldl
    {registry : Registry} (reachable : registry.Reachable)
    (history : List Operation) :
    (history.foldl (fun registry operation => operation.apply registry)
      registry).Reachable := by
  induction history generalizing registry with
  | nil => exact reachable
  | cons operation history inductionHypothesis =>
      exact inductionHypothesis (.step reachable operation)

theorem Reachable.after_simplify
    {registry : Registry} (reachable : registry.Reachable) (key : Key) :
    (registry.after (simplify key)).Reachable :=
  reachable.step (.simplify key)

theorem reachable_replay (history : List Operation) :
    (replay history).Reachable :=
  (Reachable.empty {}).foldl history

/-- The representation invariant.  In every state the table of strings has no
repetition, the map from strings to names has every string of the table once, with
its name, and no other, so that looking up strings inverts the table; there is one
slot for a binding for each name, a bound name is the name of the node it is bound to, and
stored nodes hold no names beyond the table.  It follows that no key is bound
under two names, that resolving a name agrees with its binding, and that there
are no more bound names than stored nodes. -/
theorem Reachable.tables_in_step
    {registry : Registry} (reachable : registry.Reachable) :
    registry.strings.toList.Nodup ∧
      (registry.names.map Prod.fst).Nodup ∧
      (∀ string name, (string, name) ∈ registry.names ↔
        registry.strings[name]? = some string) ∧
      (∀ string name, registry.lookup string = some name ↔
        registry.strings[name]? = some string) ∧
      registry.bindings.size = registry.strings.size ∧
      (∀ name key, registry.binding name = some key →
        ∃ node, registry.node? key = some node ∧ node.name = name) ∧
      (∀ first second key, registry.binding first = some key →
        registry.binding second = some key → first = second) ∧
      (∀ name, (registry.resolve name).map Prod.fst =
        registry.binding name) ∧
      registry.size ≤ registry.nodeCount ∧
      ∀ key node, registry.node? key = some node →
        node.name < registry.strings.size ∧
          ∀ reference ∈ node.references,
            reference < registry.strings.size := by
  have wellFormed := reachable.wellFormed
  have resolved : ∀ name, (registry.resolve name).map Prod.fst =
      registry.binding name := by
    intro name
    cases bound : registry.binding name with
    | none => simp [resolve, bound]
    | some key =>
        obtain ⟨node, _, _, resolution, _⟩ := wellFormed.resolve_eq bound
        rw [resolution]
        rfl
  have numbered := wellFormed.numbered
  exact ⟨numbered.distinct, numbered.unrepeated,
    fun _ _ => numbered.mem_names_iff, numbered.lookup_eq_some_iff,
    wellFormed.slots, fun _ _ => wellFormed.bound,
    fun _ _ _ => wellFormed.binding_injective, resolved,
    wellFormed.size_le_nodeCount, fun _ _ stored =>
      ⟨wellFormed.named stored, (wellFormed.admits stored).references⟩⟩

/-- A negation takes over the name of its atom, which is then dropped.  The
negation keeps referring to the name, now its own. -/
theorem tables_in_step_after_takeover :
    let registry := replay
      [.atom "p", .negation ⟨1⟩, .rename ⟨2⟩ "p", .removeKey ⟨1⟩,
        .simplify ⟨2⟩]
    registry.strings = #["p", "F1"] ∧
      registry.names = [("F1", 1), ("p", 0)] ∧
      registry.lookup "p" = some 0 ∧ registry.binding 0 = some ⟨2⟩ ∧
      registry.binding 1 = none ∧
      (registry.resolve 0).map Prod.fst = some ⟨2⟩ ∧
      registry.size ≤ registry.nodeCount := by
  intro registry
  have bound : registry.binding 0 = some ⟨2⟩ := by decide +kernel
  have reachable : registry.Reachable := reachable_replay _
  have strings : registry.strings = #["p", "F1"] := by decide +kernel
  obtain ⟨_, _, _, found, _, _, _, resolved, counted, _⟩ :=
    reachable.tables_in_step
  exact ⟨strings, by decide +kernel, (found "p" 0).mpr (by rw [strings]; rfl),
    bound, by decide +kernel, (resolved 0).trans bound, counted⟩

end Registry

end NamedLogic
