import NamedLogic.Proofs.Counting
import NamedLogic.Proofs.Extension

/-!
# Generated names

The search for a generated name tries one number after another.  Distinct
numbers make distinct strings, and only as many strings can be taken as there
are bound names, so that the search ends at a name that is not bound.
-/

namespace NamedLogic

namespace Registry

variable {registry : Registry}

/-! ## The search -/

/-- Generated strings of one stem are told apart by their numbers. -/
theorem generated_injective (stem : String) :
    Function.Injective fun number : Nat => stem ++ toString number := by
  intro first second equal
  have sameDigits : Nat.toDigits 10 first = Nat.toDigits 10 second := by
    have sameNumeral : first.repr = second.repr :=
      (String.append_right_inj stem).mp equal
    rw [← Nat.toList_repr, ← Nat.toList_repr, sameNumeral]
  rw [← Nat.ofDigitChars_ten_toDigits (n := first), sameDigits,
    Nat.ofDigitChars_ten_toDigits]

/-- The search leaves the number it starts from behind. -/
theorem lt_firstFree (stem : String) (tries counter : Nat) :
    counter < registry.firstFree stem tries counter := by
  induction tries generalizing counter with
  | zero => simp [firstFree]
  | succ tries inductionHypothesis =>
      rw [firstFree]
      split
      · exact Nat.lt_succ_self counter
      · exact Nat.lt_trans (Nat.lt_succ_self counter)
          (inductionHypothesis (counter + 1))

/-- If the search ends at a string that is taken, then so are all strings it
tried. -/
theorem taken_of_firstFree_taken
    {stem : String} {tries counter : Nat}
    (taken : (registry.get?
      (stem ++ toString (registry.firstFree stem tries counter))).isSome) :
    ∀ offset ≤ tries,
      (registry.get? (stem ++ toString (counter + 1 + offset))).isSome := by
  induction tries generalizing counter with
  | zero =>
      intro offset small
      obtain rfl : offset = 0 := by omega
      simpa [firstFree] using taken
  | succ tries inductionHypothesis =>
      rw [firstFree] at taken
      split at taken
      · rename_i free
        rw [Option.isNone_iff_eq_none.mp free] at taken
        cases taken
      · rename_i notFree
        intro offset small
        cases offset with
        | zero =>
            rwa [Option.isNone_iff_eq_none, ← ne_eq,
              Option.ne_none_iff_isSome] at notFree
        | succ offset =>
            have later := inductionHypothesis taken offset (by omega)
            rwa [show counter + 1 + 1 + offset =
              counter + 1 + (offset + 1) by omega] at later

/-- As many tries as there are bound names lead to a string that is not
taken. -/
theorem Numbered.firstFree_free
    (numbered : registry.Numbered) (stem : String) (counter : Nat) :
    registry.get?
      (stem ++ toString
        (registry.firstFree stem registry.size counter)) = none := by
  by_contra notFree
  have taken := taken_of_firstFree_taken
    (Option.ne_none_iff_isSome.mp notFree)
  let strings := (List.range (registry.size + 1)).map
    fun offset => stem ++ toString (counter + 1 + offset)
  have stringsTaken :
      ∀ string ∈ strings, (registry.get? string).isSome := by
    intro string member
    obtain ⟨offset, inRange, rfl⟩ := List.mem_map.mp member
    exact taken offset (by simpa [Nat.lt_succ_iff] using inRange)
  have stringsNodup : strings.Nodup := by
    apply List.Nodup.map _ List.nodup_range
    intro first second equal
    exact Nat.add_left_cancel (generated_injective stem equal)
  have tooMany := numbered.length_le_size_of_taken stringsNodup stringsTaken
  simp only [strings, List.length_map, List.length_range] at tooMany
  omega

/-! ## The name generated -/

theorem WellFormed.freshName
    (wellFormed : registry.WellFormed) (flavour : Flavour) :
    (registry.freshName flavour).2.WellFormed :=
  (wellFormed.setCounter flavour _).intern _

theorem Extends.freshName (registry : Registry) (flavour : Flavour) :
    registry.Extends (registry.freshName flavour).2 :=
  (Extends.setCounter registry flavour _).trans (Extends.intern _ _)

theorem Numbered.setCounter
    (numbered : registry.Numbered) (flavour : Flavour) (number : Nat) :
    (registry.setCounter flavour number).Numbered := by
  cases flavour <;> exact numbered.of_same rfl rfl

theorem Numbered.freshName
    (numbered : registry.Numbered) (flavour : Flavour) :
    (registry.freshName flavour).2.Numbered :=
  (numbered.setCounter flavour _).intern _

theorem Numbered.freshName_lt
    (numbered : registry.Numbered) (flavour : Flavour) :
    (registry.freshName flavour).1 <
      (registry.freshName flavour).2.strings.size :=
  (numbered.setCounter flavour _).intern_lt _

@[simp]
theorem node?_freshName
    (registry : Registry) (flavour : Flavour) (key : Key) :
    (registry.freshName flavour).2.node? key = registry.node? key := by
  simp [freshName]

@[simp]
theorem binding_freshName
    (registry : Registry) (flavour : Flavour) (name : Name) :
    (registry.freshName flavour).2.binding name = registry.binding name := by
  simp [freshName]

/-- The name of an interned string is bound to what the string was bound to
before. -/
theorem WellFormed.binding_intern_self
    (wellFormed : registry.WellFormed) (string : String) :
    registry.binding (registry.intern string).1 = registry.get? string := by
  unfold Registry.intern get?
  cases found : registry.lookup string with
  | some name => rfl
  | none => simp [binding, ← wellFormed.slots]

/-- A generated name is not bound at the moment of its generation. -/
theorem WellFormed.binding_freshName_self
    (wellFormed : registry.WellFormed) (flavour : Flavour) :
    registry.binding (registry.freshName flavour).1 = none := by
  let stem := registry.settings.stem flavour
  let counter :=
    registry.firstFree stem registry.size (registry.counter flavour)
  have interned :=
    (wellFormed.setCounter flavour counter).binding_intern_self
      (stem ++ toString counter)
  rw [binding_setCounter] at interned
  calc registry.binding (registry.freshName flavour).1
      = (registry.setCounter flavour counter).get?
          (stem ++ toString counter) := interned
    _ = registry.get? (stem ++ toString counter) := get?_setCounter ..
    _ = none := wellFormed.numbered.firstFree_free stem _

/-! ## The number counted -/

@[simp]
theorem counter_setCounter
    (registry : Registry) (flavour : Flavour) (number : Nat) :
    (registry.setCounter flavour number).counter flavour = number := by
  cases flavour <;> rfl

@[simp]
theorem counter_intern
    (registry : Registry) (string : String) (flavour : Flavour) :
    (registry.intern string).2.counter flavour =
      registry.counter flavour := by
  unfold Registry.intern
  split <;> cases flavour <;> rfl

theorem counter_freshName (registry : Registry) (flavour : Flavour) :
    (registry.freshName flavour).2.counter flavour =
      registry.firstFree (registry.settings.stem flavour) registry.size
        (registry.counter flavour) := by
  simp [freshName]

/-- The counter of a flavour rises whenever a name of it is generated. -/
theorem counter_lt_counter_freshName
    (registry : Registry) (flavour : Flavour) :
    registry.counter flavour <
      (registry.freshName flavour).2.counter flavour := by
  rw [counter_freshName]
  exact lt_firstFree _ _ _

/-- The counter of the other flavour stays as it is. -/
theorem counter_freshName_of_ne
    (registry : Registry) {flavour other : Flavour}
    (different : other ≠ flavour) :
    (registry.freshName flavour).2.counter other =
      registry.counter other := by
  rw [Registry.freshName, counter_intern]
  cases flavour <;> cases other <;> first | rfl | exact (different rfl).elim

/-- The string of a generated name ends in the number counted for it. -/
theorem Numbered.string_freshName
    (numbered : registry.Numbered) (flavour : Flavour) :
    (registry.freshName flavour).2.string (registry.freshName flavour).1 =
      registry.settings.stem flavour ++
        toString ((registry.freshName flavour).2.counter flavour) := by
  rw [counter_freshName]
  exact string_of_strings
    ((numbered.setCounter flavour _).strings_intern_self _)

/-! ## Strings to come -/

/-- A name with the string may still be generated: the string has the form of a
generated one, with a number not counted yet. -/
def MayGenerate
    (registry : Registry) (flavour : Flavour) (string : String) : Prop :=
  ∃ number, registry.counter flavour < number ∧
    string = registry.settings.stem flavour ++ toString number

theorem Numbered.mayGenerate_freshName
    (numbered : registry.Numbered) (flavour : Flavour) :
    registry.MayGenerate flavour
      ((registry.freshName flavour).2.string
        (registry.freshName flavour).1) :=
  ⟨_, counter_lt_counter_freshName registry flavour,
    numbered.string_freshName flavour⟩

theorem MayGenerate.begins_with_stem
    {flavour : Flavour} {string : String}
    (generated : registry.MayGenerate flavour string) :
    (registry.settings.stem flavour).toList <+: string.toList := by
  obtain ⟨number, _, rfl⟩ := generated
  rw [String.toList_append]
  exact List.prefix_append _ _

/-- What may be generated later may be generated before. -/
theorem MayGenerate.earlier
    {before after : Registry} {flavour : Flavour} {string : String}
    (later : after.MayGenerate flavour string)
    (stem : after.settings.stem flavour = before.settings.stem flavour)
    (counted : before.counter flavour ≤ after.counter flavour) :
    before.MayGenerate flavour string := by
  obtain ⟨number, above, form⟩ := later
  exact ⟨number, counted.trans_lt above, stem ▸ form⟩

end Registry

end NamedLogic
