import NamedLogic.Proofs.FreshName

/-!
# The search for a generated name

The search counts up, one candidate after another, until it comes to a string that
no bound name has.  Nothing in it sets a bound to its length.  It ends nevertheless,
after at most one candidate more than there are bound names, and where it ends is
the generated name.
-/

namespace NamedLogic

namespace Registry

/-! ## Candidates -/

/-- Count the next generated name of a flavour. -/
def advance (registry : Registry) (flavour : Flavour) : Registry :=
  registry.setCounter flavour (registry.counter flavour + 1)

/-- The string with the last number counted. -/
def candidate (registry : Registry) (flavour : Flavour) : String :=
  registry.settings.stem flavour ++ toString (registry.counter flavour)

/-- The search for a generated name comes to an end after a number of candidates,
with a name and the registry it is entered in. -/
inductive Searches (flavour : Flavour) :
    Registry → (tries : Nat) → Name × Registry → Prop where
  | found
      {registry : Registry}
      (free : (registry.advance flavour).get?
        ((registry.advance flavour).candidate flavour) = none) :
      Searches flavour registry 1
        ((registry.advance flavour).intern
          ((registry.advance flavour).candidate flavour))
  | taken
      {registry : Registry} {tries : Nat} {result : Name × Registry}
      (taken : ((registry.advance flavour).get?
        ((registry.advance flavour).candidate flavour)).isSome)
      (later : Searches flavour (registry.advance flavour) tries result) :
      Searches flavour registry (tries + 1) result

variable {registry : Registry} {flavour : Flavour}

/-- The search can end in one way only. -/
theorem Searches.unique
    {tries otherTries : Nat} {result otherResult : Name × Registry}
    (searches : Searches flavour registry tries result)
    (again : Searches flavour registry otherTries otherResult) :
    tries = otherTries ∧ result = otherResult := by
  induction searches generalizing otherTries otherResult with
  | found free =>
      cases again with
      | found => exact ⟨rfl, rfl⟩
      | taken taken => rw [free] at taken; cases taken
  | taken taken _ inductionHypothesis =>
      cases again with
      | found free => rw [free] at taken; cases taken
      | taken _ later =>
          obtain ⟨rfl, rfl⟩ := inductionHypothesis later
          exact ⟨rfl, rfl⟩

/-! ## Counters -/

@[simp]
theorem settings_setCounter (number : Nat) :
    (registry.setCounter flavour number).settings = registry.settings := by
  cases flavour <;> rfl

@[simp]
theorem setCounter_setCounter (number next : Nat) :
    (registry.setCounter flavour number).setCounter flavour next =
      registry.setCounter flavour next := by
  cases flavour <;> rfl

@[simp]
theorem setCounter_counter :
    registry.setCounter flavour (registry.counter flavour) = registry := by
  cases flavour <;> rfl

theorem advance_setCounter (number : Nat) :
    (registry.setCounter flavour number).advance flavour =
      registry.setCounter flavour (number + 1) := by
  simp [advance]

theorem candidate_setCounter (number : Nat) :
    (registry.setCounter flavour number).candidate flavour =
      registry.settings.stem flavour ++ toString number := by
  simp [candidate]

/-! ## The end of the search -/

theorem Searches.of_free
    {number : Nat} (free : registry.get?
      (registry.settings.stem flavour ++ toString (number + 1)) = none) :
    Searches flavour (registry.setCounter flavour number) 1
      ((registry.setCounter flavour (number + 1)).intern
        (registry.settings.stem flavour ++ toString (number + 1))) := by
  have found := @Searches.found flavour (registry.setCounter flavour number)
  simp only [advance_setCounter, candidate_setCounter,
    get?_setCounter] at found
  exact found free

theorem Searches.of_taken
    {number tries : Nat} {result : Name × Registry}
    (taken : (registry.get?
      (registry.settings.stem flavour ++ toString (number + 1))).isSome)
    (later : Searches flavour (registry.setCounter flavour (number + 1)) tries
      result) :
    Searches flavour (registry.setCounter flavour number) (tries + 1)
      result := by
  refine .taken ?_ ?_
  · rwa [advance_setCounter, candidate_setCounter, get?_setCounter]
  · rwa [advance_setCounter]

/-- If the last number tried is free, then the search ends with it, or before.
The induction is on the number of candidates that may be taken. -/
theorem exists_searches_of_firstFree
    {allowed number last : Nat}
    (ends : registry.firstFree (registry.settings.stem flavour) allowed number =
      last)
    (free : registry.get?
      (registry.settings.stem flavour ++ toString last) = none) :
    ∃ tries ≤ allowed + 1,
      Searches flavour (registry.setCounter flavour number) tries
        ((registry.setCounter flavour last).intern
          (registry.settings.stem flavour ++ toString last)) := by
  induction allowed generalizing number with
  | zero =>
      rw [firstFree] at ends
      subst ends
      exact ⟨1, Nat.le_refl 1, .of_free free⟩
  | succ allowed inductionHypothesis =>
      rw [firstFree] at ends
      split at ends
      · subst ends
        exact ⟨1, Nat.le_add_left 1 _, .of_free free⟩
      · rename_i notFree
        rw [Option.isNone_iff_eq_none, ← ne_eq,
          Option.ne_none_iff_isSome] at notFree
        obtain ⟨tries, few, later⟩ := inductionHypothesis ends
        exact ⟨tries + 1, Nat.succ_le_succ few, later.of_taken notFree⟩

/-- The search ends, whatever is bound: after at most one candidate more than
there are bound names, and with the generated name. -/
theorem Numbered.exists_searches_iff
    (numbered : registry.Numbered) (flavour : Flavour) :
    ∃ tries ≤ registry.size + 1, ∀ count result,
      Searches flavour registry count result ↔
        count = tries ∧ result = registry.freshName flavour := by
  have ends : registry.firstFree (registry.settings.stem flavour)
      registry.size (registry.counter flavour) = _ := rfl
  obtain ⟨tries, few, searches⟩ :=
    exists_searches_of_firstFree ends (numbered.firstFree_free _ _)
  rw [setCounter_counter] at searches
  refine ⟨tries, few, fun count result => ⟨fun other => ?_, ?_⟩⟩
  · exact other.unique searches
  · rintro ⟨rfl, rfl⟩
    exact searches

end Registry

end NamedLogic
