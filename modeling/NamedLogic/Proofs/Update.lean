import NamedLogic.Registry.Formation
import NamedLogic.Proofs.Extension

/-!
# Running updates

An update either yields a value or is refused, and leaves a registry behind in
both cases.  A successful run of a sequence of updates splits into successful
runs of its parts.  A relation between the registries before and after that
composes is shown of a sequence part by part, whether the sequence is refused
or not.
-/

namespace NamedLogic

namespace Registry

variable {α β : Type}

/-- The registry an update leaves behind. -/
def after (registry : Registry) (update : Update α) : Registry :=
  (update.run.run registry).2

/-- The update is not refused, and yields the value and the second registry. -/
def Yields
    (before : Registry) (update : Update α) (value : α) (after : Registry) :
    Prop :=
  update.run.run before = (.ok value, after)

/-- The update is refused, and leaves the second registry behind. -/
def Refuses
    (before : Registry) (update : Update α) (cause : LogicError)
    (after : Registry) : Prop :=
  update.run.run before = (.error cause, after)

theorem Yields.after_eq
    {before after : Registry} {update : Update α} {value : α}
    (run : before.Yields update value after) :
    before.after update = after :=
  congrArg Prod.snd run

theorem Refuses.after_eq
    {before after : Registry} {update : Update α} {cause : LogicError}
    (run : before.Refuses update cause after) :
    before.after update = after :=
  congrArg Prod.snd run

/-- An update yields one value and one registry. -/
theorem Yields.unique
    {before first second : Registry} {update : Update α} {value other : α}
    (run : before.Yields update value first)
    (again : before.Yields update other second) :
    value = other ∧ first = second := by
  have equal := run.symm.trans again
  injection equal with values registries
  injection values with values
  exact ⟨values, registries⟩

/-! ## Successful runs -/

section Yields

variable {before after : Registry}

@[simp]
theorem yields_pure_iff {value result : α} :
    before.Yields (pure value) result after ↔
      value = result ∧ before = after := by
  constructor
  · intro run
    injection run with values registries
    injection values with values
    exact ⟨values, registries⟩
  · rintro ⟨rfl, rfl⟩
    rfl

@[simp]
theorem yields_throw_iff {cause : LogicError} {result : α} :
    before.Yields (throw cause) result after ↔ False := by
  constructor
  · intro run
    injection run with values _
    cases values
  · exact False.elim

@[simp]
theorem yields_get_iff {result : Registry} :
    before.Yields get result after ↔ before = result ∧ before = after :=
  yields_pure_iff

@[simp]
theorem yields_modifyGet_iff
    {change : Registry → α × Registry} {result : α} :
    before.Yields (modifyGet change) result after ↔
      (change before).1 = result ∧ (change before).2 = after := by
  constructor
  · intro run
    injection run with values registries
    injection values with values
    exact ⟨values, registries⟩
  · rintro ⟨rfl, rfl⟩
    rfl

@[simp]
theorem yields_modify_iff
    {change : Registry → Registry} {result : PUnit} :
    before.Yields (modify change) result after ↔ change before = after := by
  constructor
  · intro run
    exact congrArg Prod.snd run
  · rintro rfl
    rfl

theorem yields_modify (change : Registry → Registry) :
    before.Yields (modify change) PUnit.unit (change before) := rfl

theorem run_bind
    (update : Update α) (next : α → Update β) (registry : Registry) :
    (update >>= next).run.run registry =
      match update.run.run registry with
      | (.ok value, middle) => (next value).run.run middle
      | (.error cause, middle) => (.error cause, middle) := by
  change (match update.run.run registry with
    | (outcome, middle) => (ExceptT.bindCont next outcome).run middle) = _
  rcases update.run.run registry with ⟨outcome, middle⟩
  cases outcome <;> rfl

theorem yields_bind_iff
    {update : Update α} {next : α → Update β} {result : β} :
    before.Yields (update >>= next) result after ↔
      ∃ value middle, before.Yields update value middle ∧
        middle.Yields (next value) result after := by
  unfold Yields
  rw [run_bind]
  rcases ran : update.run.run before with ⟨outcome, middle⟩
  cases outcome with
  | error cause =>
      constructor
      · intro run
        injection run with values _
        cases values
      · rintro ⟨value, other, run, _⟩
        injection run with values _
        cases values
  | ok value =>
      constructor
      · intro run
        exact ⟨value, middle, rfl, run⟩
      · rintro ⟨other, last, run, rest⟩
        injection run with values registries
        injection values with values
        rw [values, registries]
        exact rest

/-- Looking at the registry always succeeds. -/
theorem yields_get_bind_iff {next : Registry → Update β} {result : β} :
    before.Yields (get >>= next) result after ↔
      before.Yields (next before) result after :=
  Iff.rfl

/-- A successful run followed by a successful run is one. -/
theorem Yields.bind
    {middle : Registry} {update : Update α} {next : α → Update β}
    {value : α} {result : β}
    (first : before.Yields update value middle)
    (rest : middle.Yields (next value) result after) :
    before.Yields (update >>= next) result after :=
  yields_bind_iff.mpr ⟨value, middle, first, rest⟩

/-- A sequence is refused if its first part is. -/
theorem Refuses.bind
    {update : Update α} {cause : LogicError}
    (first : before.Refuses update cause after) (next : α → Update β) :
    before.Refuses (update >>= next) cause after := by
  unfold Refuses at *
  rw [run_bind, first]

/-- A sequence is refused if its second part is. -/
theorem Yields.bind_refuses
    {middle : Registry} {update : Update α} {next : α → Update β}
    {value : α} {cause : LogicError}
    (first : before.Yields update value middle)
    (rest : middle.Refuses (next value) cause after) :
    before.Refuses (update >>= next) cause after := by
  unfold Yields Refuses at *
  rw [run_bind, first]
  exact rest

end Yields

/-! ## Relations kept by every run -/

/-- A change that keeps the tables in step. -/
def Keeps (before after : Registry) : Prop :=
  before.WellFormed → after.WellFormed

/-- A change that keeps the tables in step and only adds to them. -/
def Grows (before after : Registry) : Prop :=
  before.WellFormed → after.WellFormed ∧ before.Extends after

theorem Grows.keeps {before after : Registry}
    (grows : before.Grows after) : before.Keeps after :=
  fun wellFormed => (grows wellFormed).1

theorem Keeps.refl (registry : Registry) : registry.Keeps registry := id

theorem Grows.refl (registry : Registry) : registry.Grows registry :=
  fun wellFormed => ⟨wellFormed, Extends.refl registry⟩

theorem Keeps.trans
    {before middle after : Registry}
    (first : before.Keeps middle) (second : middle.Keeps after) :
    before.Keeps after :=
  second ∘ first

theorem Grows.trans
    {before middle after : Registry}
    (first : before.Grows middle) (second : middle.Grows after) :
    before.Grows after := by
  intro wellFormed
  have ⟨middleWellFormed, firstExtends⟩ := first wellFormed
  have ⟨afterWellFormed, secondExtends⟩ := second middleWellFormed
  exact ⟨afterWellFormed, firstExtends.trans secondExtends⟩

section After

variable {registry : Registry}

@[simp]
theorem after_pure (value : α) :
    registry.after (pure value : Update α) = registry := rfl

@[simp]
theorem after_throw (cause : LogicError) :
    registry.after (throw cause : Update α) = registry := rfl

@[simp]
theorem after_get_bind (next : Registry → Update α) :
    registry.after (get >>= next) = registry.after (next registry) := rfl

@[simp]
theorem after_modifyGet (change : Registry → α × Registry) :
    registry.after (modifyGet change) = (change registry).2 := rfl

@[simp]
theorem after_modify (change : Registry → Registry) :
    registry.after (modify change) = change registry := rfl

/-- What a sequence leaves behind if its first part is not refused. -/
theorem Yields.after_bind
    {middle : Registry} {update : Update α} {value : α}
    (first : registry.Yields update value middle) (next : α → Update β) :
    registry.after (update >>= next) = middle.after (next value) := by
  unfold Yields at first
  unfold Registry.after
  rw [run_bind, first]

/-- What holds of every run holds of a successful one. -/
theorem Yields.related
    {relation : Registry → Registry → Prop} {after : Registry}
    {update : Update α} {value : α}
    (run : registry.Yields update value after)
    (related : relation registry (registry.after update)) :
    relation registry after :=
  run.after_eq ▸ related

/-- A relation that composes relates the registries around a sequence if it
relates those around each part that is reached. -/
theorem after_bind_of_trans
    (relation : Registry → Registry → Prop)
    (trans : ∀ {first second third}, relation first second →
      relation second third → relation first third)
    {update : Update α} {next : α → Update β}
    (first : relation registry (registry.after update))
    (rest : ∀ value middle, registry.Yields update value middle →
      relation middle (middle.after (next value))) :
    relation registry (registry.after (update >>= next)) := by
  unfold Registry.after Yields at *
  rw [run_bind]
  rcases ran : update.run.run registry with ⟨outcome, middle⟩
  rw [ran] at first
  cases outcome with
  | error cause => exact first
  | ok value => exact trans first (rest value middle ran)

/-- A relation that composes is kept by a loop if every round keeps it. -/
theorem after_forM_of_trans
    (relation : Registry → Registry → Prop)
    (refl : ∀ registry, relation registry registry)
    (trans : ∀ {first second third}, relation first second →
      relation second third → relation first third)
    {items : List α} {body : α → Update PUnit}
    (round : ∀ item registry, relation registry
      (registry.after (body item))) :
    relation registry (registry.after (items.forM body)) := by
  induction items generalizing registry with
  | nil => exact refl registry
  | cons item items inductionHypothesis =>
      exact after_bind_of_trans relation trans (round item registry)
        fun _ _ _ => inductionHypothesis

/-- A relation that composes is kept by a list of updates if each of them keeps
it. -/
theorem after_mapM_of_trans
    (relation : Registry → Registry → Prop)
    (refl : ∀ registry, relation registry registry)
    (trans : ∀ {first second third}, relation first second →
      relation second third → relation first third)
    {items : List α} {body : α → Update β}
    (round : ∀ item registry, relation registry
      (registry.after (body item))) :
    relation registry (registry.after (items.mapM body)) := by
  induction items generalizing registry with
  | nil => exact refl registry
  | cons item items inductionHypothesis =>
      rw [List.mapM_cons]
      refine after_bind_of_trans relation trans (round item registry) ?_
      intro _ middle _
      refine after_bind_of_trans relation trans inductionHypothesis ?_
      intro _ last _
      exact refl last

theorem keeps_bind
    {update : Update α} {next : α → Update β}
    (first : registry.Keeps (registry.after update))
    (rest : ∀ value middle, registry.Yields update value middle →
      middle.Keeps (middle.after (next value))) :
    registry.Keeps (registry.after (update >>= next)) :=
  after_bind_of_trans Keeps Keeps.trans first rest

theorem grows_bind
    {update : Update α} {next : α → Update β}
    (first : registry.Grows (registry.after update))
    (rest : ∀ value middle, registry.Yields update value middle →
      middle.Grows (middle.after (next value))) :
    registry.Grows (registry.after (update >>= next)) :=
  after_bind_of_trans Grows Grows.trans first rest

end After

end Registry

end NamedLogic
