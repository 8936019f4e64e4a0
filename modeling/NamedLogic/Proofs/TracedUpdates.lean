import NamedLogic.Proofs.Formation
import NamedLogic.Proofs.NameSearch
import NamedLogic.Proofs.Outcomes

/-!
# Traces of generated names

The trace of an update lists the names it has generated, in order, as the parts of
the update come to be run.  Where an update is refused, the trace ends with the
refused part.  An update that counts nothing generates no name, and every
constructor that does has a trace in every registry; the proofs are put together
from the parts of an update just as the update is.
-/

namespace NamedLogic

/-- The generation of a name, with the string of the name. -/
structure Generation where
  flavour : Flavour
  string : String
  deriving DecidableEq

namespace Registry

variable {α β : Type}

/-- The generation of a name in a registry. -/
def generation (registry : Registry) (flavour : Flavour) : Generation where
  flavour := flavour
  string :=
    (registry.freshName flavour).2.string (registry.freshName flavour).1

theorem Numbered.get?_generation
    {registry : Registry} (numbered : registry.Numbered) (flavour : Flavour) :
    registry.get? (registry.generation flavour).string = none := by
  rw [generation, numbered.string_freshName, counter_freshName]
  exact numbered.firstFree_free _ _

/-- Neither counters nor stems differ, and strings stay numbered. -/
structure Quiet (before after : Registry) : Prop where
  numbered : before.Numbered → after.Numbered
  counter : ∀ flavour, after.counter flavour = before.counter flavour
  stem : ∀ flavour,
    after.settings.stem flavour = before.settings.stem flavour

/-- Run in the registry, the update generates the listed names one after
another. -/
inductive Generates :
    {α : Type} → Registry → Update α → List Generation → Prop where
  /-- Nothing is counted, and so no name is generated. -/
  | quiet
      {registry : Registry} {α : Type} {update : Update α}
      (quiet : registry.Quiet (registry.after update)) :
      Generates registry update []
  | generation (registry : Registry) (flavour : Flavour) :
      Generates registry (modifyGet (·.freshName flavour))
        [registry.generation flavour]
  | sequence
      {registry middle : Registry} {α β : Type} {update : Update α}
      {next : α → Update β} {value : α} {earlier later : List Generation}
      (first : Generates registry update earlier)
      (run : registry.Yields update value middle)
      (rest : Generates middle (next value) later) :
      Generates registry (update >>= next) (earlier ++ later)
  /-- The first part is refused, and the second is not run. -/
  | refused
      {registry final : Registry} {α β : Type} {update : Update α}
      {cause : LogicError} {earlier : List Generation}
      (first : Generates registry update earlier)
      (refusal : registry.Refuses update cause final)
      (next : α → Update β) :
      Generates registry (update >>= next) earlier

/-! ## Quiet changes -/

section Quiet

variable {before middle after : Registry}

theorem Quiet.refl (registry : Registry) : registry.Quiet registry :=
  ⟨id, fun _ => rfl, fun _ => rfl⟩

theorem Quiet.trans
    (first : before.Quiet middle) (second : middle.Quiet after) :
    before.Quiet after where
  numbered := second.numbered ∘ first.numbered
  counter flavour := (second.counter flavour).trans (first.counter flavour)
  stem flavour := (second.stem flavour).trans (first.stem flavour)

/-- A change of no other tables than those of nodes and bindings. -/
theorem quiet_of_same
    (strings : after.strings = before.strings)
    (names : after.names = before.names)
    (atoms : after.atomCounter = before.atomCounter)
    (formulas : after.formulaCounter = before.formulaCounter)
    (settings : after.settings = before.settings) :
    before.Quiet after where
  numbered numbered := numbered.of_same strings names
  counter flavour := by cases flavour <;> assumption
  stem flavour := by rw [settings]

variable (registry : Registry)

theorem quiet_intern (string : String) :
    registry.Quiet (registry.intern string).2 where
  numbered numbered := numbered.intern string
  counter := counter_intern registry string
  stem flavour := by rw [(Extends.intern registry string).settings]

theorem quiet_insert (node : Node) :
    registry.Quiet (registry.insert node).2 :=
  quiet_of_same rfl rfl rfl rfl rfl

theorem quiet_release (name : Name) (key : Key) :
    registry.Quiet (registry.release name key) := by
  unfold release
  split
  · exact quiet_of_same rfl rfl rfl rfl rfl
  · exact .refl registry

theorem quiet_remove (string : String) :
    registry.Quiet (registry.remove string).2 := by
  unfold remove
  split
  · exact .refl registry
  · split
    · exact .refl registry
    · exact quiet_of_same rfl rfl rfl rfl rfl

theorem quiet_removeKey (key : Key) :
    registry.Quiet (registry.removeKey key).2 := by
  unfold removeKey
  split
  · exact .refl registry
  · have dropped : registry.Quiet (registry.drop key) :=
      quiet_of_same rfl rfl rfl rfl rfl
    exact dropped.trans (quiet_release _ _ key)

end Quiet

/-! ## Traced updates -/

/-- The update has a trace in every registry. -/
def Traced (update : Update α) : Prop :=
  ∀ registry : Registry, ∃ trace, registry.Generates update trace

section Traced

variable {update : Update α} {next : α → Update β}

theorem traced_of_quiet
    (quiet : ∀ registry : Registry, registry.Quiet (registry.after update)) :
    Traced update :=
  fun registry => ⟨[], .quiet (quiet registry)⟩

theorem traced_pure (value : α) : Traced (pure value) :=
  traced_of_quiet .refl

theorem traced_throw (cause : LogicError) : Traced (throw cause : Update α) :=
  traced_of_quiet .refl

theorem Traced.bind
    (first : Traced update) (rest : ∀ value, Traced (next value)) :
    Traced (update >>= next) := by
  intro registry
  obtain ⟨earlier, firstTrace⟩ := first registry
  rcases yields_or_refuses registry update with ⟨value, run⟩ | ⟨cause, refusal⟩
  · obtain ⟨later, restTrace⟩ := rest value (registry.after update)
    exact ⟨earlier ++ later, .sequence firstTrace run restTrace⟩
  · exact ⟨earlier, .refused firstTrace refusal next⟩

/-- A first part that looks at the registry only. -/
theorem traced_get_bind
    {next : Registry → Update α} (rest : ∀ registry, Traced (next registry)) :
    Traced (get >>= next) := by
  have look : Traced (get : Update Registry) :=
    traced_of_quiet fun registry => .refl registry
  exact look.bind rest

theorem traced_forM
    {body : α → Update PUnit} (round : ∀ item, Traced (body item))
    (items : List α) : Traced (items.forM body) := by
  induction items with
  | nil => exact traced_pure PUnit.unit
  | cons item items inductionHypothesis =>
      exact (round item).bind fun _ => inductionHypothesis

theorem traced_mapM
    {body : α → Update β} (round : ∀ item, Traced (body item))
    (items : List α) : Traced (items.mapM body) := by
  induction items with
  | nil => exact traced_pure []
  | cons item items inductionHypothesis =>
      rw [List.mapM_cons]
      exact (round item).bind fun first => inductionHypothesis.bind fun rest =>
        traced_pure (first :: rest)

end Traced

/-! ## Updates that generate no name -/

section NoName

variable (registry : Registry)

theorem quiet_stored (key : Key) :
    registry.Quiet (registry.after (stored key)) := by
  rw [after_stored]
  exact .refl registry

theorem quiet_operandName (key : Key) :
    registry.Quiet (registry.after (operandName key)) :=
  after_stored_bind _ (.refl registry) fun _ _ => .refl registry

theorem quiet_sideName (side : Option Key) :
    registry.Quiet (registry.after (sideName side)) := by
  cases side with
  | none => exact .refl registry
  | some key =>
      exact after_operandName_bind _ (.refl registry) fun _ _ => .refl registry

theorem quiet_atom (string : String) :
    registry.Quiet (registry.after (atom string)) := by
  unfold atom
  split
  · exact .refl registry
  · refine after_bind_of_trans Quiet Quiet.trans
      (quiet_intern registry string) fun name middle _ => ?_
    rw [after_get_bind]
    split
    · exact .refl middle
    · exact quiet_insert middle _

theorem quiet_addOperand (junction operand : Key) :
    registry.Quiet (registry.after (addOperand junction operand)) := by
  refine after_stored_bind _ (.refl registry) fun _ _ => ?_
  refine after_stored_bind _ (.refl registry) fun _ _ => ?_
  split
  · exact quiet_of_same rfl rfl rfl rfl rfl
  · exact .refl registry

theorem quiet_reviseImplication
    (implication : Key) (revise : Option Name → Option Name → Body) :
    registry.Quiet
      (registry.after (reviseImplication implication revise)) := by
  refine after_stored_bind _ (.refl registry) fun _ _ => ?_
  split
  · exact quiet_of_same rfl rfl rfl rfl rfl
  · exact .refl registry

theorem quiet_setAntecedent (target : Key) (antecedent : Option Key) :
    registry.Quiet (registry.after (setAntecedent target antecedent)) :=
  after_sideName_bind _ (.refl registry) fun _ _ =>
    quiet_reviseImplication registry target _

theorem quiet_setConsequent (target : Key) (consequent : Option Key) :
    registry.Quiet (registry.after (setConsequent target consequent)) :=
  after_sideName_bind _ (.refl registry) fun _ _ =>
    quiet_reviseImplication registry target _

theorem quiet_setOwner (key : Key) (owner : Option Entity) :
    registry.Quiet (registry.after (setOwner key owner)) :=
  after_stored_bind _ (.refl registry) fun _ _ => quiet_of_same rfl rfl rfl rfl rfl

theorem quiet_register (key : Key) :
    registry.Quiet (registry.after (register key)) :=
  after_operandName_bind _ (.refl registry) fun _ _ =>
    quiet_of_same rfl rfl rfl rfl rfl

theorem quiet_rename (key : Key) (string : String) :
    registry.Quiet (registry.after (rename key string)) := by
  unfold rename
  split
  · exact .refl registry
  · refine after_bind_of_trans Quiet Quiet.trans
      (quiet_intern registry string) fun name middle _ => ?_
    refine after_stored_bind _ (.refl middle) fun node _ => ?_
    split
    · exact .refl middle
    · have replaced : middle.Quiet (middle.replace key { node with name }) :=
        quiet_of_same rfl rfl rfl rfl rfl
      exact (replaced.trans (quiet_release _ node.name key)).trans
        (quiet_of_same rfl rfl rfl rfl rfl)

end NoName

/-! ## Constructors that generate a name -/

/-- A part that yields without counting leaves no trace. -/
theorem Generates.of_quiet_bind
    {registry middle : Registry} {update : Update α} {next : α → Update β}
    {value : α} {trace : List Generation}
    (run : registry.Yields update value middle)
    (quiet : registry.Quiet middle)
    (rest : middle.Generates (next value) trace) :
    registry.Generates (update >>= next) trace :=
  .sequence (.quiet (run.after_eq.symm ▸ quiet)) run rest

theorem generates_insertFresh
    (registry : Registry) (flavour : Flavour) (owner : Option Entity)
    (body : Body) :
    registry.Generates (insertFresh flavour owner body)
      [registry.generation flavour] :=
  .sequence (.generation registry flavour) rfl (.quiet (quiet_insert _ _))

theorem traced_insertFresh
    (flavour : Flavour) (owner : Option Entity) (body : Body) :
    Traced (insertFresh flavour owner body) :=
  fun registry => ⟨_, generates_insertFresh registry flavour owner body⟩

theorem generates_negation
    {registry : Registry} {operand : Key}
    (stored : (registry.node? operand).isSome) :
    registry.Generates (negation operand) [registry.generation .compound] := by
  obtain ⟨node, found⟩ := Option.isSome_iff_exists.mp stored
  exact .of_quiet_bind (yields_operandName_iff.mpr ⟨⟨node, found, rfl⟩, rfl⟩)
    (.refl registry) (generates_insertFresh registry .compound none _)

theorem traced_negation (operand : Key) : Traced (negation operand) :=
  (traced_of_quiet (quiet_operandName · operand)).bind fun name =>
    traced_insertFresh .compound none (.negation name)

theorem traced_implication (antecedent consequent : Option Key) :
    Traced (implication antecedent consequent) :=
  (traced_of_quiet (quiet_sideName · antecedent)).bind fun premise =>
    (traced_of_quiet (quiet_sideName · consequent)).bind fun conclusion =>
      traced_insertFresh .compound none (.implication premise conclusion)

theorem traced_addOperand (junction operand : Key) :
    Traced (addOperand junction operand) :=
  traced_of_quiet (quiet_addOperand · junction operand)

theorem traced_junction (connective : Connective) (operands : List Key) :
    Traced (junction connective operands) := by
  refine (traced_forM (fun operand => ?_) operands).bind fun _ => ?_
  · exact (traced_of_quiet (quiet_stored · operand)).bind fun _ =>
      traced_pure PUnit.unit
  refine (traced_insertFresh .compound none
    (.junction connective [])).bind fun key => ?_
  refine (traced_forM (fun operand => ?_) operands).bind fun _ => ?_
  · exact (traced_addOperand key operand).bind fun _ => traced_pure PUnit.unit
  · exact traced_pure key

end Registry

end NamedLogic
