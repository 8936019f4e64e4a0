import NamedLogic.Proofs.RetiredKeys
import NamedLogic.Proofs.TracedSimplification

/-!
# Generated names are not repeated

Counters only rise until the registry is cleared, and every generated name takes the
number its counter comes to.  So while the stems stay as they are, no string is
generated twice for the same flavour, whatever has become of the names generated
before.
-/

namespace NamedLogic

namespace Registry

/-! ## Rising counters -/

/-- Between the two registries strings stayed numbered, stems were kept and no
counter fell; the strings of the names generated end in numbers counted in between,
and no two of a flavour are the same. -/
structure CountsUp
    (before : Registry) (trace : List Generation) (after : Registry) :
    Prop where
  names : after.Numbered
  stem : ∀ flavour,
    after.settings.stem flavour = before.settings.stem flavour
  counter : ∀ flavour, before.counter flavour ≤ after.counter flavour
  numbered : ∀ generation ∈ trace, ∃ number,
    before.counter generation.flavour < number ∧
      number ≤ after.counter generation.flavour ∧
      generation.string =
        before.settings.stem generation.flavour ++ toString number
  distinct : trace.Pairwise fun earlier later =>
    earlier.flavour = later.flavour → earlier.string ≠ later.string

section CountsUp

variable {before middle after : Registry} {earlier later : List Generation}

theorem Quiet.countsUp
    (quiet : before.Quiet after) (numbered : before.Numbered) :
    before.CountsUp [] after where
  names := quiet.numbered numbered
  stem := quiet.stem
  counter flavour := (quiet.counter flavour).ge
  numbered := nofun
  distinct := .nil

theorem Numbered.countsUp_freshName
    {registry : Registry} (numbered : registry.Numbered) (flavour : Flavour) :
    registry.CountsUp [registry.generation flavour]
      (registry.freshName flavour).2 where
  names := numbered.freshName flavour
  stem other := by rw [(Extends.freshName registry flavour).settings]
  counter other := by
    by_cases same : other = flavour
    · rw [same]
      exact (counter_lt_counter_freshName registry flavour).le
    · exact (counter_freshName_of_ne registry same).ge
  numbered generation member := by
    obtain rfl := List.mem_singleton.mp member
    exact ⟨_, counter_lt_counter_freshName registry flavour, le_rfl,
      numbered.string_freshName flavour⟩
  distinct := List.pairwise_singleton _ _

/-- Numbers counted later are greater, and so are in other strings. -/
theorem CountsUp.append
    (first : before.CountsUp earlier middle)
    (second : middle.CountsUp later after) :
    before.CountsUp (earlier ++ later) after where
  names := second.names
  stem flavour := (second.stem flavour).trans (first.stem flavour)
  counter flavour := (first.counter flavour).trans (second.counter flavour)
  numbered generation member := by
    rcases List.mem_append.mp member with among | among
    · obtain ⟨number, above, below, string⟩ := first.numbered generation among
      exact ⟨number, above, below.trans (second.counter _), string⟩
    · obtain ⟨number, above, below, string⟩ := second.numbered generation among
      rw [first.stem] at string
      exact ⟨number, (first.counter _).trans_lt above, below, string⟩
  distinct := by
    refine List.pairwise_append.mpr
      ⟨first.distinct, second.distinct, fun one member other among => ?_⟩
    intro flavour same
    obtain ⟨number, -, below, oneString⟩ := first.numbered one member
    obtain ⟨greater, above, -, otherString⟩ := second.numbered other among
    rw [first.stem, ← flavour] at otherString
    have numbers : number = greater := generated_injective _
      (oneString.symm.trans (same.trans otherString))
    rw [← flavour] at above
    omega

end CountsUp

/-- The induction is on the trace of the update, part by part. -/
theorem Generates.countsUp
    {α : Type} {registry : Registry} {update : Update α}
    {trace : List Generation} (generates : registry.Generates update trace)
    (numbered : registry.Numbered) :
    registry.CountsUp trace (registry.after update) := by
  induction generates with
  | quiet quiet => exact quiet.countsUp numbered
  | generation registry flavour => exact numbered.countsUp_freshName flavour
  | @sequence _ middle _ _ _ next _ _ _ _ run _ earlier later =>
      have counted := earlier numbered
      rw [run.after_eq] at counted
      rw [run.after_bind next]
      exact counted.append (later counted.names)
  | refused _ refusal next earlier =>
      rw [(refusal.bind next).after_eq, ← refusal.after_eq]
      exact earlier numbered

end Registry

/-! ## Operations -/

namespace Operation

/-- The stems of generated names are left as they are in the settings. -/
def KeepsStems (settings : Settings) : Operation → Prop
  | configure changed =>
      ∀ flavour, changed.stem flavour = settings.stem flavour
  | _ => True

theorem KeepsStems.of_same
    {operation : Operation} {settings other : Settings}
    (keeps : operation.KeepsStems settings)
    (same : ∀ flavour, other.stem flavour = settings.stem flavour) :
    operation.KeepsStems other := by
  cases operation with
  | configure changed =>
      exact fun flavour => (keeps flavour).trans (same flavour).symm
  | _ => trivial

/-- Applied to the registry, the operation generates the listed names one after
another. -/
def Generates :
    Operation → (registry : Registry) → (trace : List Generation) → Prop
  | configure _, _, trace | intern _, _, trace | remove _, _, trace
  | removeKey _, _, trace | clear, _, trace => trace = []
  | atom string, registry, trace =>
      registry.Generates (Registry.atom string) trace
  | freshAtom, registry, trace => registry.Generates Registry.freshAtom trace
  | negation operand, registry, trace =>
      registry.Generates (Registry.negation operand) trace
  | junction connective operands, registry, trace =>
      registry.Generates (Registry.junction connective operands) trace
  | implication antecedent consequent, registry, trace =>
      registry.Generates (Registry.implication antecedent consequent) trace
  | setAntecedent target antecedent, registry, trace =>
      registry.Generates (Registry.setAntecedent target antecedent) trace
  | setConsequent target consequent, registry, trace =>
      registry.Generates (Registry.setConsequent target consequent) trace
  | addOperand target operand, registry, trace =>
      registry.Generates (Registry.addOperand target operand) trace
  | register key, registry, trace =>
      registry.Generates (Registry.register key) trace
  | rename key string, registry, trace =>
      registry.Generates (Registry.rename key string) trace
  | setOwner key owner, registry, trace =>
      registry.Generates (Registry.setOwner key owner) trace
  | dnf atoms rows, registry, trace =>
      registry.Generates (Registry.dnf atoms rows) trace
  | simplify key, registry, trace =>
      registry.Generates (Registry.simplify key) trace
  | describe valuation, registry, trace =>
      registry.Generates valuation.toFormula trace
  | describeFour valuation, registry, trace =>
      registry.Generates valuation.toFormula trace

/-- Every operation has a trace in every registry. -/
theorem exists_generates (operation : Operation) (registry : Registry) :
    ∃ trace, operation.Generates registry trace := by
  cases operation with
  | configure | intern | remove | removeKey | clear => exact ⟨[], rfl⟩
  | atom string => exact ⟨[], .quiet (Registry.quiet_atom registry string)⟩
  | freshAtom =>
      exact ⟨_, Registry.generates_insertFresh registry .atom none .atom⟩
  | negation operand => exact Registry.traced_negation operand registry
  | junction connective operands =>
      exact Registry.traced_junction connective operands registry
  | implication antecedent consequent =>
      exact Registry.traced_implication antecedent consequent registry
  | setAntecedent target antecedent =>
      exact ⟨[], .quiet
        (Registry.quiet_setAntecedent registry target antecedent)⟩
  | setConsequent target consequent =>
      exact ⟨[], .quiet
        (Registry.quiet_setConsequent registry target consequent)⟩
  | addOperand target operand =>
      exact Registry.traced_addOperand target operand registry
  | register key => exact ⟨[], .quiet (Registry.quiet_register registry key)⟩
  | rename key string =>
      exact ⟨[], .quiet (Registry.quiet_rename registry key string)⟩
  | setOwner key owner =>
      exact ⟨[], .quiet (Registry.quiet_setOwner registry key owner)⟩
  | dnf atoms rows => exact Registry.traced_dnf atoms rows registry
  | simplify key => exact Registry.traced_simplify key registry
  | describe valuation => exact Registry.traced_toFormula valuation registry
  | describeFour valuation =>
      exact Registry.traced_toFormula valuation registry

/-- Every operation but clearing makes the counters rise, if at all. -/
theorem Generates.countsUp
    {operation : Operation} {registry : Registry} {trace : List Generation}
    (generates : operation.Generates registry trace)
    (numbered : registry.Numbered)
    (lasting : operation.clears = false)
    (keeps : operation.KeepsStems registry.settings) :
    registry.CountsUp trace (operation.apply registry) := by
  cases operation with
  | configure changed =>
      obtain rfl : trace = [] := generates
      exact {
        names := numbered.of_same rfl rfl
        stem := keeps
        counter := fun _ => le_rfl
        numbered := nofun
        distinct := .nil }
  | intern string =>
      obtain rfl : trace = [] := generates
      exact (Registry.quiet_intern registry string).countsUp numbered
  | remove string =>
      obtain rfl : trace = [] := generates
      exact (Registry.quiet_remove registry string).countsUp numbered
  | removeKey key =>
      obtain rfl : trace = [] := generates
      exact (Registry.quiet_removeKey registry key).countsUp numbered
  | clear => cases lasting
  | _ =>
      have counted := Registry.Generates.countsUp generates numbered
      exact counted

end Operation

/-! ## Histories -/

namespace Registry

/-- From the registry on, the operations generate the listed names one after
another. -/
inductive GeneratesAlong :
    Registry → List Operation → List Generation → Prop where
  | nil (registry : Registry) : GeneratesAlong registry [] []
  | cons
      {registry : Registry} {operation : Operation}
      {history : List Operation} {earlier later : List Generation}
      (first : operation.Generates registry earlier)
      (rest : GeneratesAlong (operation.apply registry) history later) :
      GeneratesAlong registry (operation :: history) (earlier ++ later)

theorem exists_generatesAlong (registry : Registry) (history : List Operation) :
    ∃ trace, registry.GeneratesAlong history trace := by
  induction history generalizing registry with
  | nil => exact ⟨[], .nil registry⟩
  | cons operation history inductionHypothesis =>
      obtain ⟨earlier, first⟩ := operation.exists_generates registry
      obtain ⟨later, rest⟩ := inductionHypothesis (operation.apply registry)
      exact ⟨earlier ++ later, .cons first rest⟩

/-- The induction is on the history, operation by operation. -/
theorem GeneratesAlong.countsUp
    {registry : Registry} {history : List Operation}
    {trace : List Generation}
    (generates : registry.GeneratesAlong history trace)
    (numbered : registry.Numbered)
    (lasting : ∀ operation ∈ history, operation.clears = false)
    (keeps : ∀ operation ∈ history,
      operation.KeepsStems registry.settings) :
    registry.CountsUp trace (Operation.applyAll history registry) := by
  induction generates with
  | nil registry => exact (Quiet.refl registry).countsUp numbered
  | @cons registry operation history _ _ first _ inductionHypothesis =>
      rw [List.forall_mem_cons] at lasting keeps
      have counted := first.countsUp numbered lasting.1 keeps.1
      exact counted.append (inductionHypothesis counted.names lasting.2
        fun later member => (keeps.2 later member).of_same counted.stem)

/-- Generated names.  In every state, and for both flavours, the search for a name
ends after at most one candidate more than there are bound names, with the generated
name, which is not bound.  From then on, for as long as the registry is not cleared
and the stems stay as they are, no string is generated twice for a flavour. -/
theorem Reachable.generated_names_unrepeated
    {registry : Registry} (reachable : registry.Reachable) :
    (∀ flavour,
      (∃ tries ≤ registry.size + 1, ∀ count result,
        Searches flavour registry count result ↔
          count = tries ∧ result = registry.freshName flavour) ∧
      registry.get? (registry.generation flavour).string = none ∧
      (registry.freshName flavour).2.binding
        (registry.freshName flavour).1 = none) ∧
    ∀ history : List Operation,
      (∀ operation ∈ history, operation.clears = false) →
      (∀ operation ∈ history, operation.KeepsStems registry.settings) →
        (∃ trace, registry.GeneratesAlong history trace) ∧
        ∀ trace, registry.GeneratesAlong history trace →
          trace.Pairwise fun earlier later =>
            earlier.flavour = later.flavour →
              earlier.string ≠ later.string := by
  have numbered := reachable.wellFormed.numbered
  refine ⟨fun flavour => ⟨numbered.exists_searches_iff flavour,
    numbered.get?_generation flavour, ?_⟩, ?_⟩
  · rw [binding_freshName]
    exact reachable.wellFormed.binding_freshName_self flavour
  · intro history lasting keeps
    exact ⟨exists_generatesAlong registry history, fun trace generates =>
      (generates.countsUp numbered lasting keeps).distinct⟩

/-- Without stems, a name is generated, and then given up by a renaming; the next
number is passed over, as it is the name of an atom, and the name with the number
after that is removed.  Numbers go on rising, and only the other flavour, with a
counter of its own, comes to the first string again. -/
theorem generated_names_unrepeated_without_stems :
    let registry := replay [.configure { atomStem := "", formulaStem := "" }]
    let history : List Operation :=
      [.atom "2", .negation ⟨1⟩, .rename ⟨2⟩ "x", .negation ⟨1⟩, .remove "3",
        .negation ⟨1⟩, .freshAtom]
    let trace : List Generation :=
      [⟨.compound, "1"⟩, ⟨.compound, "3"⟩, ⟨.compound, "4"⟩, ⟨.atom, "1"⟩]
    registry.GeneratesAlong history trace ∧
      trace.Pairwise fun earlier later =>
        earlier.flavour = later.flavour → earlier.string ≠ later.string := by
  intro registry history trace
  have generates : registry.GeneratesAlong history
      ([] ++ ([_] ++ ([] ++ ([_] ++ ([] ++ ([_] ++ ([_] ++ []))))))) :=
    .cons (.quiet (quiet_atom _ _)) <|
    .cons (generates_negation (by decide +kernel)) <|
    .cons (.quiet (quiet_rename _ _ _)) <|
    .cons (generates_negation (by decide +kernel)) <|
    .cons rfl <|
    .cons (generates_negation (by decide +kernel)) <|
    .cons (generates_insertFresh _ .atom none .atom) <|
    .nil _
  have listed : registry.GeneratesAlong history trace :=
    Eq.mp (congrArg (GeneratesAlong registry history) (by decide +kernel))
      generates
  obtain ⟨_, unrepeated⟩ := (reachable_replay _).generated_names_unrepeated
  have keeps : ∀ operation ∈ history,
      operation.KeepsStems registry.settings := by
    simp [history, Operation.KeepsStems]
  obtain ⟨_, distinct⟩ := unrepeated history (by decide) keeps
  exact ⟨listed, distinct trace listed⟩

end Registry

end NamedLogic
