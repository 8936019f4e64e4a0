import NamedLogic.Program
import NamedLogic.Proofs.Outcomes
import NamedLogic.Proofs.ValuationFormulas
import NamedLogic.Proofs.WorldHistories

/-!
# Refused requests

A request looks at all its arguments before it changes anything, so that a
refusal comes first or not at all.  The one exception is the renaming of a node,
which enters the new name before it looks.  Describing a valuation takes many
steps, but none is refused once no name of the valuation is empty.
-/

namespace NamedLogic

namespace Registry

variable {α β : Type} {registry : Registry}

/-! ## Updates that are refused at once -/

/-- If the update is refused, the registry is as it was. -/
def Intact (registry : Registry) (update : Update α) : Prop :=
  ∀ cause after, registry.Refuses update cause after → after = registry

theorem intact_of_yields
    {update : Update α} {value : α} {after : Registry}
    (run : registry.Yields update value after) : registry.Intact update :=
  fun _ _ refusal => (run.not_refuses refusal).elim

theorem intact_of_after
    {update : Update α} (unchanged : registry.after update = registry) :
    registry.Intact update :=
  fun _ _ refusal => refusal.after_eq.symm.trans unchanged

/-- A first part that changes nothing may be refused, and a rest that is refused
at once may be too. -/
theorem intact_bind
    {update : Update α} {next : α → Update β}
    (unchanged : registry.after update = registry)
    (rest : ∀ value, registry.Yields update value registry →
      registry.Intact (next value)) :
    registry.Intact (update >>= next) := by
  intro cause after refusal
  rcases refuses_bind_iff.mp refusal with early | ⟨value, middle, run, late⟩
  · exact intact_of_after unchanged cause after early
  · obtain rfl : middle = registry := run.after_eq.symm.trans unchanged
    exact rest value run cause after late

theorem intact_stored_bind
    {key : Key} {next : Node → Update β}
    (found : ∀ node, registry.node? key = some node →
      registry.Intact (next node)) :
    registry.Intact (stored key >>= next) :=
  intact_bind (after_stored registry key)
    fun node run => found node (yields_stored_iff.mp run).1

theorem after_operandName (registry : Registry) (key : Key) :
    registry.after (operandName key) = registry :=
  after_stored_bind (· = registry) rfl fun _ _ => rfl

theorem after_sideName (registry : Registry) (side : Option Key) :
    registry.after (sideName side) = registry := by
  cases side with
  | none => rfl
  | some key => exact after_operandName_bind (· = registry) rfl fun _ _ => rfl

theorem intact_insertFresh
    (flavour : Flavour) (owner : Option Entity) (body : Body) :
    registry.Intact (insertFresh flavour owner body) :=
  intact_of_yields <| Yields.bind (yields_modifyGet_iff.mpr ⟨rfl, rfl⟩)
    (yields_modifyGet_iff.mpr ⟨rfl, rfl⟩)

/-! ## Making formulas -/

theorem WellFormed.intact_atom
    (wellFormed : registry.WellFormed) (string : String) :
    registry.Intact (atom string) := by
  cases empty : string.isEmpty with
  | true =>
      refine intact_of_after ?_
      unfold atom
      rw [if_pos empty]
      rfl
  | false =>
      obtain ⟨_, _, _, run, _⟩ := wellFormed.exists_yields_atom empty
      exact intact_of_yields run

theorem intact_negation (registry : Registry) (operand : Key) :
    registry.Intact (negation operand) :=
  intact_bind (after_operandName registry operand)
    fun _ _ => intact_insertFresh _ _ _

theorem WellFormed.intact_junction
    (wellFormed : registry.WellFormed)
    (connective : Connective) (operands : List Key) :
    registry.Intact (junction connective operands) := by
  by_cases complete :
      ∀ operand ∈ operands, registry.node? operand ≠ none
  · obtain ⟨additions, stored⟩ := exists_additions complete
    obtain ⟨_, _, _, run, _⟩ := yields_junction wellFormed connective stored
    exact intact_of_yields run
  · push Not at complete
    obtain ⟨missing, member, absent⟩ := complete
    exact intact_of_after
      (refuses_junction connective member absent).after_eq

theorem intact_implication
    (registry : Registry) (antecedent consequent : Option Key) :
    registry.Intact (implication antecedent consequent) :=
  intact_bind (after_sideName registry antecedent) fun _ _ =>
    intact_bind (after_sideName registry consequent) fun _ _ =>
      intact_insertFresh _ _ _

/-! ## Changing formulas -/

theorem intact_addOperand (registry : Registry) (junction operand : Key) :
    registry.Intact (addOperand junction operand) := by
  refine intact_stored_bind fun addition _ => ?_
  refine intact_stored_bind fun target _ => ?_
  split
  · exact intact_of_yields <|
      (yields_modify _).bind (yields_pure_iff.mpr ⟨rfl, rfl⟩)
  · exact intact_of_after rfl

theorem intact_reviseImplication
    (registry : Registry) (implication : Key)
    (revise : Option Name → Option Name → Body) :
    registry.Intact (reviseImplication implication revise) := by
  refine intact_stored_bind fun node _ => ?_
  split
  · exact intact_of_yields (yields_modify _)
  · exact intact_of_after rfl

theorem intact_setAntecedent
    (registry : Registry) (implication : Key) (antecedent : Option Key) :
    registry.Intact (setAntecedent implication antecedent) :=
  intact_bind (after_sideName registry antecedent)
    fun _ _ => intact_reviseImplication registry implication _

theorem intact_setConsequent
    (registry : Registry) (implication : Key) (consequent : Option Key) :
    registry.Intact (setConsequent implication consequent) :=
  intact_bind (after_sideName registry consequent)
    fun _ _ => intact_reviseImplication registry implication _

theorem intact_setOwner
    (registry : Registry) (key : Key) (owner : Option Entity) :
    registry.Intact (setOwner key owner) :=
  intact_stored_bind fun _ _ => intact_of_yields (yields_modify _)

theorem intact_register (registry : Registry) (key : Key) :
    registry.Intact (register key) :=
  intact_bind (after_operandName registry key) fun _ _ =>
    intact_of_yields (yields_modifyGet_iff.mpr ⟨rfl, rfl⟩)

theorem intact_dnfFormula (registry : Registry) (key : Key) :
    registry.Intact (dnfFormula key) := by
  refine intact_stored_bind fun node _ => ?_
  split <;> exact intact_of_after rfl

/-- A renaming that is refused has entered the new name or has done nothing. -/
theorem refuses_rename
    {key : Key} {string : String} {cause : LogicError} {after : Registry}
    (refusal : registry.Refuses (rename key string) cause after) :
    after = registry ∨ after = (registry.intern string).2 := by
  unfold rename at refusal
  split at refusal
  · exact Or.inl (refusal.after_eq.symm.trans rfl)
  · obtain early | ⟨_, middle, run, late⟩ := refuses_bind_iff.mp refusal
    · exact ((yields_modifyGet_iff.mpr ⟨rfl, rfl⟩).not_refuses early).elim
    · obtain ⟨_, rfl⟩ := yields_modifyGet_iff.mp run
      refine Or.inr ((intact_stored_bind fun node _ => ?_) cause after late)
      split
      · exact intact_of_after rfl
      · exact intact_of_yields (yields_modify _)

/-! ## Atoms of a disjunctive normal form -/

/-- Why a key is not accepted as that of an atom, if it is not. -/
def atomFault? (registry : Registry) (key : Key) : Option LogicError :=
  match registry.node? key with
  | none => some .unknownKey
  | some node => if node.isAtom then none else some .notAnAtom

theorem atomFault?_eq_none_iff (key : Key) :
    registry.atomFault? key = none ↔
      ∃ node, registry.node? key = some node ∧ node.isAtom := by
  unfold atomFault?
  cases registry.node? key <;> simp

theorem refuses_atomName
    {key : Key} {cause : LogicError}
    (fault : registry.atomFault? key = some cause) :
    registry.Refuses (atomName key) cause registry := by
  unfold atomFault? at fault
  split at fault
  · rename_i absent
    obtain rfl := Option.some.inj fault
    exact (refuses_stored absent).bind _
  · rename_i node found
    split at fault
    · cases fault
    · rename_i notAtom
      obtain rfl := Option.some.inj fault
      refine (yields_stored_iff.mpr ⟨found, rfl⟩).bind_refuses ?_
      rw [if_neg notAtom]
      rfl

/-- The first key that is at fault is what the keys are refused for. -/
theorem refuses_atomNames
    {atoms : List Key} {cause : LogicError}
    (fault : atoms.findSome? registry.atomFault? = some cause) :
    registry.Refuses (atoms.mapM atomName) cause registry := by
  induction atoms with
  | nil => cases fault
  | cons key atoms inductionHypothesis =>
      rw [List.mapM_cons]
      rw [List.findSome?_cons] at fault
      cases here : registry.atomFault? key with
      | some first =>
          rw [here] at fault
          obtain rfl := Option.some.inj fault
          exact (refuses_atomName here).bind _
      | none =>
          rw [here] at fault
          obtain ⟨node, found, isAtom⟩ := (atomFault?_eq_none_iff key).mp here
          have named := yields_atomName_iff.mpr
            ⟨⟨node, found, isAtom, rfl⟩, rfl⟩
          exact named.bind_refuses ((inductionHypothesis fault).bind _)

/-- A disjunctive normal form is refused for the first key at fault among those
given for its atoms, and nothing has been done by then. -/
theorem refuses_dnf
    {atoms : List Key} {cause : LogicError} (rows : UInt64)
    (fault : atoms.findSome? registry.atomFault? = some cause) :
    registry.Refuses (dnf atoms rows) cause registry :=
  (refuses_atomNames fault).bind _

theorem exists_atomFault
    {atoms : List Key} {key : Key} (member : key ∈ atoms)
    (unfit : ∀ node, registry.node? key = some node → node.isAtom = false) :
    ∃ cause, atoms.findSome? registry.atomFault? = some cause := by
  refine Option.isSome_iff_exists.mp (List.findSome?_isSome_iff.mpr
    ⟨key, member, Option.isSome_iff_ne_none.mpr fun sound => ?_⟩)
  obtain ⟨node, found, isAtom⟩ := (atomFault?_eq_none_iff key).mp sound
  rw [unfit node found] at isAtom
  cases isAtom

/-! ## Describing valuations -/

section Describing

variable {V : Type} [TruthValue V]

/-- Literals of nonempty names are formed without a refusal, and are all there
in the end. -/
theorem WellFormed.exists_yields_storedLiterals
    (wellFormed : registry.WellFormed) {entries : List (String × V)}
    (nonempty : ∀ entry ∈ entries, entry.1 ≠ "") :
    ∃ literals after,
      registry.Yields (entries.mapM Valuation.literal) literals after ∧
        after.WellFormed ∧
        registry.ExtendsExcept (fun _ => True) after ∧
        ∀ literal ∈ literals, after.node? literal ≠ none := by
  induction entries generalizing registry with
  | nil =>
      exact ⟨[], registry, yields_pure_iff.mpr ⟨rfl, rfl⟩, wellFormed,
        (Extends.refl registry).except _, by simp⟩
  | cons entry entries inductionHypothesis =>
      obtain ⟨literal, middle, first, middleWellFormed, extension,
        presented⟩ := wellFormed.exists_yields_literal
          (nonempty entry List.mem_cons_self)
          (Valuation.testBit_row [entry] (Nat.zero_lt_succ 0))
      obtain ⟨node, stored, _⟩ :=
        (presented ((Extends.refl middle).except fun _ => False) id
          fun _ => id).shows
      obtain ⟨literals, after, rest, afterWellFormed, growth, remain⟩ :=
        inductionHypothesis middleWellFormed fun other member =>
          nonempty other (List.mem_cons_of_mem _ member)
      refine ⟨literal :: literals, after, ?_, afterWellFormed,
        (extension.mono fun _ _ => trivial).trans wellFormed growth, ?_⟩
      · rw [List.mapM_cons]
        exact first.bind (rest.bind (yields_pure_iff.mpr ⟨rfl, rfl⟩))
      · refine List.forall_mem_cons.mpr ⟨?_, remain⟩
        rw [growth.nodes stored]
        exact Option.some_ne_none node

theorem WellFormed.yields_toFormula
    (wellFormed : registry.WellFormed) {valuation : Valuation V}
    (nonempty : ∀ entry ∈ valuation.entries, entry.1 ≠ "") :
    ∃ formula after, registry.Yields valuation.toFormula formula after := by
  obtain ⟨literals, middle, forming, middleWellFormed, _, remain⟩ :=
    wellFormed.exists_yields_storedLiterals nonempty
  match literals with
  | [] => exact ⟨_, _, forming.bind (yields_pure_iff.mpr ⟨rfl, rfl⟩)⟩
  | [single] => exact ⟨_, _, forming.bind (yields_pure_iff.mpr ⟨rfl, rfl⟩)⟩
  | first :: second :: rest =>
      obtain ⟨additions, stored⟩ := exists_additions remain
      obtain ⟨_, _, _, joining, _⟩ :=
        yields_junction middleWellFormed .conjunction stored
      exact ⟨_, _, forming.bind
        (joining.bind (yields_pure_iff.mpr ⟨rfl, rfl⟩))⟩

/-- An empty name comes before all others, so that it is met at once. -/
theorem refuses_toFormula
    {valuation : Valuation V} {entry : String × V}
    (member : entry ∈ valuation.entries) (empty : entry.1 = "") :
    registry.Refuses valuation.toFormula .emptyName registry := by
  refine Refuses.bind ?_ _
  have ascending := valuation.ascending
  cases entries : valuation.entries with
  | nil =>
      rw [entries] at member
      cases member
  | cons first rest =>
      rw [entries] at member ascending
      have firstEmpty : first.1 = "" := by
        rcases List.mem_cons.mp member with rfl | later
        · exact empty
        · have below := (List.pairwise_cons.mp ascending).1 entry later
          rw [empty] at below
          exact (List.not_lt_nil _ (String.lt_iff.mp below)).elim
      rw [List.mapM_cons]
      refine Refuses.bind (Refuses.bind ?_ _) _
      unfold atom
      rw [firstEmpty]
      rfl

theorem WellFormed.refuses_toFormula_iff
    (wellFormed : registry.WellFormed) (valuation : Valuation V) :
    (∃ cause after, registry.Refuses valuation.toFormula cause after) ↔
      ∃ entry ∈ valuation.entries, entry.1 = "" := by
  constructor
  · rintro ⟨_, _, refusal⟩
    by_contra nonempty
    push Not at nonempty
    obtain ⟨_, _, run⟩ := wellFormed.yields_toFormula nonempty
    exact run.not_refuses refusal
  · rintro ⟨_, member, empty⟩
    exact ⟨_, _, refuses_toFormula member empty⟩

theorem WellFormed.intact_toFormula
    (wellFormed : registry.WellFormed) (valuation : Valuation V) :
    registry.Intact valuation.toFormula := by
  by_cases nonempty : ∀ entry ∈ valuation.entries, entry.1 ≠ ""
  · obtain ⟨_, _, run⟩ := wellFormed.yields_toFormula nonempty
    exact intact_of_yields run
  · push Not at nonempty
    obtain ⟨_, member, empty⟩ := nonempty
    exact intact_of_after (refuses_toFormula member empty).after_eq

end Describing

end Registry

/-! ## Operations -/

/-- Whether an operation is refused at once or not at all: it neither builds a
disjunctive normal form nor simplifies. -/
def Operation.AtOnce : Operation → Prop
  | dnf _ _ | simplify _ => False
  | _ => True

theorem refuses_ignoreResult_iff
    {State α : Type} {update : ExceptT LogicError (StateM State) α}
    {before after : State} {cause : LogicError} :
    (ignoreResult update).run.run before = (.error cause, after) ↔
      update.run.run before = (.error cause, after) := by
  change (let (result, left) := update.run.run before
    (result.map fun _ => PUnit.unit, left)) = _ ↔ _
  rcases update.run.run before with ⟨_ | _, left⟩
  · constructor <;> intro refusal <;> cases refusal <;> rfl
  · constructor <;> intro refusal <;> cases refusal

namespace Registry

theorem Intact.ignoreResult
    {α : Type} {registry : Registry} {update : Update α}
    (intact : registry.Intact update) :
    registry.Intact (ignoreResult update) :=
  fun cause after refusal =>
    intact cause after (refuses_ignoreResult_iff.mp refusal)

/-- A refused operation has done nothing, or it is a renaming that has entered the
new name. -/
theorem WellFormed.eq_or_intern_of_refuses
    {registry after : Registry} (wellFormed : registry.WellFormed)
    {operation : Operation} (atOnce : operation.AtOnce) {cause : LogicError}
    (refusal : registry.Refuses operation.update cause after) :
    after = registry ∨ ∃ key string, operation = .rename key string ∧
      after = (registry.intern string).2 := by
  have unchanged (intact : registry.Intact operation.update) :
      after = registry ∨ ∃ key string, operation = .rename key string ∧
        after = (registry.intern string).2 :=
    Or.inl (intact cause after refusal)
  cases operation with
  | rename key string =>
      exact (refuses_rename refusal).imp_right fun entered =>
        ⟨key, string, rfl, entered⟩
  | atom string => exact unchanged (wellFormed.intact_atom string).ignoreResult
  | freshAtom => exact unchanged (intact_insertFresh _ _ _).ignoreResult
  | negation operand =>
      exact unchanged (intact_negation registry operand).ignoreResult
  | junction connective operands =>
      exact unchanged
        (wellFormed.intact_junction connective operands).ignoreResult
  | implication antecedent consequent =>
      exact unchanged
        (intact_implication registry antecedent consequent).ignoreResult
  | setAntecedent target antecedent =>
      exact unchanged (intact_setAntecedent registry target antecedent)
  | setConsequent target consequent =>
      exact unchanged (intact_setConsequent registry target consequent)
  | addOperand target operand =>
      exact unchanged (intact_addOperand registry target operand).ignoreResult
  | register key =>
      exact unchanged (intact_register registry key).ignoreResult
  | setOwner key owner => exact unchanged (intact_setOwner registry key owner)
  | describe valuation | describeFour valuation =>
      exact unchanged (wellFormed.intact_toFormula valuation).ignoreResult
  | configure | clear => exact unchanged (intact_of_yields (yields_modify _))
  | intern | remove | removeKey =>
      exact unchanged (intact_of_yields
        (yields_modifyGet_iff.mpr ⟨rfl, rfl⟩)).ignoreResult
  | dnf | simplify => exact atOnce.elim

end Registry

/-! ## Changes of a world -/

/-- Whether a change is refused at once or not at all. -/
def World.Change.AtOnce : World.Change → Prop
  | .operate operation => operation.AtOnce
  | _ => True

namespace World

variable {α : Type} {world after : World}

/-- The request is refused, and leaves the second world behind. -/
def Refuses
    (before : World) (request : WorldUpdate α) (cause : LogicError)
    (after : World) : Prop :=
  request.run.run before = (.error cause, after)

/-- The two worlds have the same nodes, bindings and counters, the same rules and
goals, and the same current state. -/
structure SameRecords (before after : World) : Prop where
  nodes : after.registry.nodes = before.registry.nodes
  bindings : ∀ name,
    after.registry.binding name = before.registry.binding name
  atomCounter : after.registry.atomCounter = before.registry.atomCounter
  formulaCounter :
    after.registry.formulaCounter = before.registry.formulaCounter
  rules : after.rules = before.rules
  goals : after.goals = before.goals
  current : after.current = before.current

theorem SameRecords.refl (world : World) : world.SameRecords world :=
  ⟨rfl, fun _ => rfl, rfl, rfl, rfl, rfl, rfl⟩

theorem sameRecords_intern (world : World) (string : String) :
    world.SameRecords
      { world with registry := (world.registry.intern string).2 } where
  nodes := by
    change (world.registry.intern string).2.nodes = _
    unfold Registry.intern
    split <;> rfl
  bindings := Registry.binding_intern world.registry string
  atomCounter := Registry.counter_intern world.registry string .atom
  formulaCounter := Registry.counter_intern world.registry string .compound
  rules := rfl
  goals := rfl
  current := rfl

/-- A request is refused with its first part if nothing after that is refused. -/
theorem refuses_of_bind
    {β : Type} {request : WorldUpdate α} {next : α → WorldUpdate β}
    (accepts : ∀ value middle,
      ∃ result, ((next value).run.run middle).1 = .ok result)
    {cause : LogicError}
    (refusal : world.Refuses (request >>= next) cause after) :
    world.Refuses request cause after := by
  rw [Refuses, run_bind] at refusal
  unfold Refuses
  rcases ran : request.run.run world with ⟨outcome, middle⟩
  rw [ran] at refusal
  cases outcome with
  | ok value =>
      change (next value).run.run middle = _ at refusal
      obtain ⟨result, accepted⟩ := accepts value middle
      rw [refusal] at accepted
      cases accepted
  | error other =>
      cases refusal
      rfl

theorem refuses_onRegistry_iff
    {update : Update α} {cause : LogicError} :
    world.Refuses (onRegistry update) cause after ↔
      world.registry.Refuses update cause after.registry ∧
        after = { world with registry := after.registry } := by
  rw [Refuses, run_onRegistry]
  constructor
  · intro refusal
    injection refusal with outcome left
    subst left
    exact ⟨Prod.ext outcome rfl, rfl⟩
  · rintro ⟨refusal, same⟩
    have outcome : (update.run.run world.registry).1 = .error cause :=
      congrArg Prod.fst refusal
    rw [same, refusal.after_eq, outcome]

theorem eq_of_refuses
    {update : Update α} (intact : world.registry.Intact update)
    {cause : LogicError}
    (refusal : world.Refuses (onRegistry update) cause after) :
    after = world := by
  obtain ⟨refused, same⟩ := refuses_onRegistry_iff.mp refusal
  rw [intact cause _ refused] at same
  exact same

/-- A refused change has done nothing, or it is a renaming that has entered the
new name. -/
theorem eq_or_intern_of_refuses
    (wellFormed : world.registry.WellFormed)
    {change : Change} (atOnce : change.AtOnce) {cause : LogicError}
    (refusal : world.Refuses change.request cause after) :
    after = world ∨ ∃ key string, change = .operate (.rename key string) ∧
      after = { world with registry := (world.registry.intern string).2 } := by
  cases change with
  | operate operation =>
      obtain ⟨refused, same⟩ := refuses_onRegistry_iff.mp refusal
      rcases wellFormed.eq_or_intern_of_refuses atOnce refused with
        unchanged | ⟨key, string, rfl, entered⟩
      · rw [unchanged] at same
        exact Or.inl same
      · rw [entered] at same
        exact Or.inr ⟨key, string, rfl, same⟩
  | addRule antecedent consequent =>
      -- A rule is refused with its implication.
      have refused := refuses_of_bind (fun _ _ => ⟨_, rfl⟩)
        (refuses_ignoreResult_iff.mp refusal)
      exact Or.inl (eq_of_refuses
        (Registry.intact_implication _ antecedent consequent) refused)
  | addGoal | update => cases refusal
  | stateFormula =>
      have refused : world.Refuses
          (onRegistry world.current.valuation.toFormula) cause after :=
        refuses_ignoreResult_iff.mp refusal
      exact Or.inl (eq_of_refuses
        (wellFormed.intact_toFormula world.current.valuation) refused)

/-- The table and the map of names are as before, or the string is a new entry of
both. -/
theorem names_intern_eq (registry : Registry) (string : String) :
    ((registry.intern string).2.strings = registry.strings ∧
        (registry.intern string).2.names = registry.names) ∨
      (registry.intern string).2.strings = registry.strings.push string ∧
        (registry.intern string).2.names =
          (string, registry.strings.size) :: registry.names := by
  unfold Registry.intern
  split
  · exact Or.inl ⟨rfl, rfl⟩
  · exact Or.inr ⟨rfl, rfl⟩

/-- Failing operations leave a world as it was.  In every state, whatever change
is refused, nodes, bindings, counters, rules, goals and the current state are as
before, and so are the names in the table and in the map, except that a refused
renaming may have entered the new name.  So it is where the formula of a disjunctive
normal form is asked for.  A disjunctive normal form over anything but stored
atoms is refused for the first key that is missing or is no atom, and changes
nothing at all.  Describing a valuation is refused exactly if the valuation has an
entry of the empty name. -/
theorem Reachable.sameRecords_of_refuses
    (reachable : world.Reachable) :
    (∀ change : Change, change.AtOnce →
      ∀ cause after, world.Refuses change.request cause after →
        world.SameRecords after ∧
          ((after.registry.strings = world.registry.strings ∧
              after.registry.names = world.registry.names) ∨
            ∃ key string, change = .operate (.rename key string) ∧
              after.registry.strings =
                world.registry.strings.push string ∧
              after.registry.names =
                (string, world.registry.strings.size) ::
                  world.registry.names)) ∧
    (∀ key cause after,
      world.Refuses (onRegistry (Registry.dnfFormula key)) cause after →
        after = world) ∧
    (∀ atoms rows, (∃ key ∈ atoms, ∀ node,
        world.registry.node? key = some node → node.isAtom = false) →
      ∃ cause, atoms.findSome? world.registry.atomFault? = some cause ∧
        world.Refuses (onRegistry (Registry.dnf atoms rows)) cause world) ∧
    (∀ {V : Type} [TruthValue V] (valuation : Valuation V),
      (∃ cause after,
        world.Refuses (onRegistry valuation.toFormula) cause after) ↔
          ∃ entry ∈ valuation.entries, entry.1 = "") ∧
    ((∃ cause after, world.Refuses World.stateFormula cause after) ↔
      ∃ entry ∈ world.current.valuation.entries, entry.1 = "") := by
  have wellFormed := reachable.registry.wellFormed
  have describing {V : Type} [TruthValue V] (valuation : Valuation V) :
      (∃ cause after,
        world.Refuses (onRegistry valuation.toFormula) cause after) ↔
          ∃ entry ∈ valuation.entries, entry.1 = "" := by
    rw [← wellFormed.refuses_toFormula_iff valuation]
    constructor
    · rintro ⟨cause, after, refusal⟩
      exact ⟨cause, _, (refuses_onRegistry_iff.mp refusal).1⟩
    · rintro ⟨cause, left, refusal⟩
      exact ⟨cause, { world with registry := left },
        refuses_onRegistry_iff.mpr ⟨refusal, rfl⟩⟩
  refine ⟨fun change atOnce cause after refusal => ?_,
    fun key cause after => eq_of_refuses (Registry.intact_dnfFormula _ key),
    fun atoms rows unfit => ?_, describing,
    describing world.current.valuation⟩
  · rcases eq_or_intern_of_refuses wellFormed atOnce refusal with
      rfl | ⟨key, string, rfl, rfl⟩
    · exact ⟨.refl after, Or.inl ⟨rfl, rfl⟩⟩
    · exact ⟨sameRecords_intern world string,
        (names_intern_eq world.registry string).imp_right
          fun entered => ⟨key, string, rfl, entered⟩⟩
  · obtain ⟨key, member, unfit⟩ := unfit
    obtain ⟨cause, fault⟩ := Registry.exists_atomFault member unfit
    exact ⟨cause, fault, refuses_onRegistry_iff.mpr
      ⟨Registry.refuses_dnf rows fault, rfl⟩⟩

/-- Renaming a node that is not there enters the name and does nothing else.  A
disjunctive normal form is refused for the first of two unfit keys. -/
theorem sameRecords_after_refused_rename :
    let empty := ((World.new {}).run {}).1
    let world : World :=
      { empty with
        registry := (Operation.negation ⟨1⟩).apply
          ((Operation.atom "p").apply empty.registry) }
    let change : Change := .operate (.rename ⟨3⟩ "q")
    ∃ after, world.Refuses change.request .unknownKey after ∧
      world.SameRecords after ∧ world.registry.strings = #["p", "F1"] ∧
      after.registry.strings = #["p", "F1", "q"] ∧
      world.Refuses (onRegistry (Registry.dnf [⟨1⟩, ⟨2⟩, ⟨3⟩] 1))
        .notAnAtom world := by
  intro empty world change
  have reachable : world.Reachable :=
    ((Reachable.new {} {}).operate (.atom "p")).operate (.negation ⟨1⟩)
  obtain ⟨refused, _, rejected, _⟩ := reachable.sameRecords_of_refuses
  have outcome : (change.request.run.run world).1 =
      .error .unknownKey := by decide +kernel
  have refusal : world.Refuses change.request .unknownKey
      (change.request.run.run world).2 :=
    Prod.ext outcome rfl
  have missing : world.registry.node? ⟨3⟩ = none := by decide +kernel
  obtain ⟨cause, fault, rejection⟩ := rejected [⟨1⟩, ⟨2⟩, ⟨3⟩] 1
    ⟨⟨3⟩, by simp, by simp [missing]⟩
  have first : [⟨1⟩, ⟨2⟩, ⟨3⟩].findSome? world.registry.atomFault? =
      some .notAnAtom := by decide +kernel
  obtain rfl : cause = .notAnAtom := Option.some.inj (fault.symm.trans first)
  exact ⟨_, refusal, (refused change trivial _ _ refusal).1, by decide +kernel,
    by decide +kernel, rejection⟩

end World

end NamedLogic
