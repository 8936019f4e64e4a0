import NamedLogic.Proofs.Update

/-!
# Outcomes of updates

What is wanted of an update comes in two halves: what is to hold if it yields,
and what is to hold if it is refused.  Both are shown of a sequence in one go,
part by part.
-/

namespace NamedLogic

namespace Registry

variable {α β : Type}

/-- If the update yields, the first condition holds of the value and of the
registry left behind; and if it is refused, the second holds of the cause and of
the registry left behind. -/
structure Ensures
    (before : Registry) (update : Update α)
    (yielded : α → Registry → Prop)
    (refused : LogicError → Registry → Prop) : Prop where
  yields : ∀ {value after}, before.Yields update value after →
    yielded value after
  refuses : ∀ {cause after}, before.Refuses update cause after →
    refused cause after

section Ensures

variable {before middle : Registry} {update : Update α}
  {next : α → Update β} {yielded : α → Registry → Prop}
  {refused : LogicError → Registry → Prop}

/-- An update that was not refused is not refused. -/
theorem Yields.not_refuses
    {after final : Registry} {value : α} {cause : LogicError}
    (run : before.Yields update value after) :
    ¬ before.Refuses update cause final := by
  intro refusal
  have equal := run.symm.trans refusal
  injection equal with outcomes _
  cases outcomes

/-- An update yields or is refused. -/
theorem yields_or_refuses (before : Registry) (update : Update α) :
    (∃ value, before.Yields update value (before.after update)) ∨
      ∃ cause, before.Refuses update cause (before.after update) := by
  unfold Yields Refuses after
  rcases update.run.run before with ⟨outcome, final⟩
  cases outcome with
  | ok value => exact Or.inl ⟨value, rfl⟩
  | error cause => exact Or.inr ⟨cause, rfl⟩

/-- What an update leaves behind if its outcome is a value. -/
theorem yields_after
    {value : α} (outcome : (update.run.run before).1 = .ok value) :
    before.Yields update value (before.after update) :=
  Prod.ext outcome rfl

theorem Yields.ensures
    {after : Registry} {value : α}
    (run : before.Yields update value after)
    (holds : yielded value after) :
    before.Ensures update yielded refused where
  yields again := by
    obtain ⟨rfl, rfl⟩ := run.unique again
    exact holds
  refuses refusal := (run.not_refuses refusal).elim

theorem Refuses.ensures
    {after : Registry} {cause : LogicError}
    (refusal : before.Refuses update cause after)
    (holds : refused cause after) :
    before.Ensures update yielded refused where
  yields run := (run.not_refuses refusal).elim
  refuses again := by
    have equal := refusal.symm.trans again
    injection equal with causes registries
    injection causes with causes
    exact causes ▸ registries ▸ holds

theorem ensures_pure {value : α} (holds : yielded value before) :
    before.Ensures (pure value) yielded refused :=
  (yields_pure_iff.mpr ⟨rfl, rfl⟩).ensures holds

theorem ensures_throw {cause : LogicError} (holds : refused cause before) :
    before.Ensures (throw cause : Update α) yielded refused :=
  Refuses.ensures (rfl : before.Refuses (throw cause) cause before) holds

theorem Ensures.mono
    {weakerYielded : α → Registry → Prop}
    {weakerRefused : LogicError → Registry → Prop}
    (ensures : before.Ensures update yielded refused)
    (onYield : ∀ {value after}, yielded value after →
      weakerYielded value after)
    (onRefusal : ∀ {cause after}, refused cause after →
      weakerRefused cause after) :
    before.Ensures update weakerYielded weakerRefused where
  yields run := onYield (ensures.yields run)
  refuses refusal := onRefusal (ensures.refuses refusal)

/-- Whatever an update comes to, a condition on the registry left behind holds
if it holds in both halves. -/
theorem Ensures.after
    {condition : Registry → Prop}
    (ensures : before.Ensures update (fun _ => condition)
      fun _ => condition) :
    condition (before.after update) := by
  rcases yields_or_refuses before update with ⟨_, run⟩ | ⟨_, refusal⟩
  · exact ensures.yields run
  · exact ensures.refuses refusal

theorem ensures_of_after
    {condition : Registry → Prop}
    (holds : condition (before.after update)) :
    before.Ensures update (fun _ => condition) fun _ => condition where
  yields run := run.after_eq ▸ holds
  refuses refusal := refusal.after_eq ▸ holds

/-! ## Sequences -/

theorem refuses_bind_iff
    {cause : LogicError} {after : Registry} :
    before.Refuses (update >>= next) cause after ↔
      before.Refuses update cause after ∨
        ∃ value middle, before.Yields update value middle ∧
          middle.Refuses (next value) cause after := by
  constructor
  · intro refusal
    rcases yields_or_refuses before update with
      ⟨value, run⟩ | ⟨other, first⟩
    · refine Or.inr ⟨value, _, run, ?_⟩
      unfold Yields Refuses at *
      rwa [run_bind, run] at refusal
    · have again := first.bind next
      have equal := again.symm.trans refusal
      injection equal with causes registries
      injection causes with causes
      exact Or.inl (causes ▸ registries ▸ first)
  · rintro (first | ⟨_, _, run, second⟩)
    · exact first.bind next
    · exact run.bind_refuses second

/-- A sequence ensures what its second part ensures wherever the first leads,
provided a refusal of the first part is as wanted. -/
theorem Ensures.bind
    {yieldedLast : β → Registry → Prop}
    (first : before.Ensures update yielded refused)
    (rest : ∀ {value middle}, before.Yields update value middle →
      yielded value middle →
        middle.Ensures (next value) yieldedLast refused) :
    before.Ensures (update >>= next) yieldedLast refused where
  yields run := by
    obtain ⟨value, middle, firstRun, restRun⟩ := yields_bind_iff.mp run
    exact (rest firstRun (first.yields firstRun)).yields restRun
  refuses refusal := by
    rcases refuses_bind_iff.mp refusal with early | ⟨value, middle, run, late⟩
    · exact first.refuses early
    · exact (rest run (first.yields run)).refuses late

/-- A sequence whose first part is known to yield. -/
theorem Yields.ensures_bind
    {yieldedLast : β → Registry → Prop} {value : α}
    (run : before.Yields update value middle)
    (rest : middle.Ensures (next value) yieldedLast refused) :
    before.Ensures (update >>= next) yieldedLast refused where
  yields whole := by
    obtain ⟨other, last, first, later⟩ := yields_bind_iff.mp whole
    obtain ⟨rfl, rfl⟩ := run.unique first
    exact rest.yields later
  refuses refusal := by
    rcases refuses_bind_iff.mp refusal with early | ⟨_, _, first, later⟩
    · exact (run.not_refuses early).elim
    · obtain ⟨rfl, rfl⟩ := run.unique first
      exact rest.refuses later

theorem ensures_get_bind
    {next : Registry → Update β} {yieldedLast : β → Registry → Prop}
    (rest : before.Ensures (next before) yieldedLast refused) :
    before.Ensures (get >>= next) yieldedLast refused :=
  (yields_get_iff.mpr ⟨rfl, rfl⟩).ensures_bind rest

/-- A sequence that only changes the value yielded. -/
theorem Ensures.bind_pure
    {result : α → β} {yieldedLast : β → Registry → Prop}
    (first : before.Ensures update yielded refused)
    (onYield : ∀ {value after}, yielded value after →
      yieldedLast (result value) after) :
    before.Ensures (do pure (result (← update))) yieldedLast refused :=
  first.bind fun _ holds => ensures_pure (onYield holds)

/-- What every round of a loop ensures again, whenever it holds before the round,
holds after the loop. -/
theorem ensures_forM
    {items : List α} {body : α → Update PUnit} {condition : Registry → Prop}
    (round : ∀ item ∈ items, ∀ registry, condition registry →
      registry.Ensures (body item) (fun _ => condition) refused)
    (holds : condition before) :
    before.Ensures (items.forM body) (fun _ => condition) refused := by
  induction items generalizing before with
  | nil => exact ensures_pure holds
  | cons item items inductionHypothesis =>
      refine (round item List.mem_cons_self before holds).bind ?_
      intro _ middle _ still
      exact inductionHypothesis
        (fun other member => round other (List.mem_cons_of_mem _ member))
        still

end Ensures

end Registry

end NamedLogic
