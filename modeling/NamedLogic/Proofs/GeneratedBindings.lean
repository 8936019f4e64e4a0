import NamedLogic.Proofs.Composition
import NamedLogic.Proofs.Formation

/-!
# The names that simplification binds

Simplification binds no names but those it generates for compound formulas, whose
strings end in numbers that were not counted before.  So a name with any other
string that is bound to nothing stays so.
-/

namespace NamedLogic

namespace Registry

/-! ## Names that come to be bound -/

/-- Strings were kept, and every name that came to be bound has a string that
could be generated for a compound formula. -/
structure BindsGenerated (before after : Registry) : Prop where
  names : after.Numbered
  strings : ∀ {name : Name} {string : String},
    before.strings[name]? = some string →
      after.strings[name]? = some string
  stem : after.settings.stem .compound = before.settings.stem .compound
  counter : before.counter .compound ≤ after.counter .compound
  generated : ∀ {name key}, after.binding name = some key →
    before.binding name = none →
      ∃ string, after.strings[name]? = some string ∧
        before.MayGenerate .compound string

/-- A change that binds generated names only. -/
def Generative (before after : Registry) : Prop :=
  before.Numbered → before.BindsGenerated after

section Composition

variable {before middle after : Registry}

/-- A name that came to be bound did so in one of the two changes. -/
theorem BindsGenerated.trans
    (first : before.BindsGenerated middle)
    (second : middle.BindsGenerated after) :
    before.BindsGenerated after where
  names := second.names
  strings entered := second.strings (first.strings entered)
  stem := second.stem.trans first.stem
  counter := first.counter.trans second.counter
  generated {name key} bound unbound := by
    cases between : middle.binding name with
    | none =>
        obtain ⟨string, entered, later⟩ := second.generated bound between
        exact ⟨string, entered, later.earlier first.stem first.counter⟩
    | some earlier =>
        obtain ⟨string, entered, generated⟩ :=
          first.generated between unbound
        exact ⟨string, second.strings entered, generated⟩

theorem Generative.trans
    (first : before.Generative middle) (second : middle.Generative after) :
    before.Generative after := by
  intro numbered
  have early := first numbered
  exact early.trans (second early.names)

/-- A change of no other table than that of nodes. -/
theorem generative_of_same
    (strings : after.strings = before.strings)
    (names : after.names = before.names)
    (bindings : after.bindings = before.bindings)
    (counter : after.formulaCounter = before.formulaCounter)
    (settings : after.settings = before.settings) :
    before.Generative after := by
  intro numbered
  exact {
    names := numbered.of_same strings names
    strings := fun entered => strings ▸ entered
    stem := by rw [settings]
    counter := counter.ge
    generated := fun {name key} bound unbound => by
      rw [binding, bindings] at bound
      exact absurd (bound.symm.trans unbound) (Option.some_ne_none key) }

theorem Generative.refl (registry : Registry) :
    registry.Generative registry :=
  generative_of_same rfl rfl rfl rfl rfl

end Composition

/-! ## Parts of simplification -/

section Parts

variable (registry : Registry)

theorem generative_insertFresh (owner : Option Entity) (body : Body) :
    registry.Generative
      (registry.after (insertFresh .compound owner body)) := by
  intro numbered
  have extension := Extends.freshName registry .compound
  exact {
    names := (numbered.freshName .compound).of_same rfl rfl
    strings := extension.strings
    stem := congrArg (Settings.stem · .compound) extension.settings
    counter := (counter_lt_counter_freshName registry .compound).le
    generated := fun {name key} bound unbound => by
      obtain rfl : name = (registry.freshName .compound).1 := by
        by_contra other
        have kept : (registry.freshName .compound).2.binding name =
            some key := (binding_bind_of_ne other _).symm.trans bound
        rw [binding_freshName, unbound] at kept
        cases kept
      exact ⟨_, strings_of_lt (numbered.freshName_lt .compound),
        numbered.mayGenerate_freshName .compound⟩ }

theorem generative_negation (operand : Key) :
    registry.Generative (registry.after (negation operand)) :=
  after_operandName_bind _ (.refl registry) fun _ _ =>
    generative_insertFresh registry none _

theorem generative_addOperand (junction operand : Key) :
    registry.Generative (registry.after (addOperand junction operand)) := by
  refine after_stored_bind _ (.refl registry) fun _ _ => ?_
  refine after_stored_bind _ (.refl registry) fun _ _ => ?_
  split
  · exact generative_of_same rfl rfl rfl rfl rfl
  · exact .refl registry

/-- A loop whose rounds bind generated names only. -/
theorem generative_forM
    {α : Type} {body : Key → Update α}
    (round : ∀ key registry,
      Generative registry (registry.after (body key)))
    (keys : List Key) :
    registry.Generative
      (registry.after (keys.forM fun key => do let _ ← body key)) :=
  after_forM_of_trans Generative .refl .trans fun key current =>
    after_bind_of_trans Generative .trans (round key current)
      fun _ last _ => .refl last

theorem generative_junction (connective : Connective) (operands : List Key) :
    registry.Generative (registry.after (junction connective operands)) := by
  have looked : registry.Generative (registry.after
      (operands.forM fun operand => do let _ ← stored operand)) := by
    refine generative_forM registry (fun operand current => ?_) operands
    rw [after_stored]
    exact .refl current
  refine after_bind_of_trans Generative .trans looked fun _ middle _ => ?_
  refine after_bind_of_trans Generative .trans
    (generative_insertFresh middle none _) fun key next _ => ?_
  have filled : next.Generative (next.after
      (operands.forM fun operand => do let _ ← addOperand key operand)) :=
    generative_forM next (fun operand current =>
      generative_addOperand current key operand) operands
  exact after_bind_of_trans Generative .trans filled fun _ last _ => .refl last

theorem generative_rebuild
    (placement : Placement) (node : Node) (connective : Connective)
    (operands : List Key) :
    registry.Generative
      (registry.after (rebuild placement node connective operands)) := by
  cases placement with
  | detached => exact generative_of_same rfl rfl rfl rfl rfl
  | named => exact generative_insertFresh registry node.owner _

end Parts

theorem sustained_generative : Sustained Generative where
  refl := .refl
  trans := .trans
  negation := generative_negation
  junction := generative_junction
  rebuild {registry _ node} _ placement connective operands :=
    generative_rebuild registry placement node connective operands

theorem Numbered.bindsGenerated_simplify
    {registry : Registry} (numbered : registry.Numbered) (key : Key) :
    registry.BindsGenerated (registry.after (simplify key)) :=
  sustained_generative.simplify key registry numbered

/-! ## Names that stay unbound -/

/-- A name that is bound to nothing stays so, unless a name with its string may
still be generated. -/
theorem BindsGenerated.binding_eq_none
    {before after : Registry} (binds : before.BindsGenerated after)
    {name : Name} {string : String}
    (entered : after.strings[name]? = some string)
    (unbound : before.binding name = none)
    (apart : ¬ before.MayGenerate .compound string) :
    after.binding name = none := by
  by_contra bound
  obtain ⟨_, taken⟩ := Option.ne_none_iff_exists'.mp bound
  obtain ⟨_, same, generated⟩ := binds.generated taken unbound
  obtain rfl := Option.some.inj (entered.symm.trans same)
  exact apart generated

/-- A string that leads nowhere, be it the string of a name or not, still does so
after simplification, unless a name with it may yet be generated. -/
theorem WellFormed.get?_simplify_eq_none
    {registry : Registry} (wellFormed : registry.WellFormed) (key : Key)
    {string : String} (unbound : registry.get? string = none)
    (apart : ¬ registry.MayGenerate .compound string) :
    (registry.after (simplify key)).get? string = none := by
  have binds := wellFormed.numbered.bindsGenerated_simplify key
  rw [get?, Option.bind_eq_none_iff]
  intro name found
  have entered := binds.names.strings_of_lookup found
  refine binds.binding_eq_none entered ?_ apart
  by_contra bound
  obtain ⟨_, taken⟩ := Option.ne_none_iff_exists'.mp bound
  have inside := wellFormed.name_lt_of_binding taken
  have kept := binds.strings (strings_of_lt inside)
  obtain rfl := Option.some.inj (kept.symm.trans entered)
  rw [wellFormed.get?_string inside] at unbound
  exact bound unbound

end Registry

end NamedLogic
