import NamedLogic.NormalForm
import NamedLogic.Proofs.Issued

/-!
# Building a disjunctive normal form only adds

The only node that changes while a disjunctive normal form is built is the
disjunction that was stored first, so that every node and every binding there
was is kept, even if the simplification of that disjunction is refused.
-/

namespace NamedLogic

namespace Registry

/-! ## Literals and minterms -/

theorem rowLiterals_cons
    (row : Nat) (atom : Key) (position : Nat) (rest : List (Key × Nat)) :
    rowLiterals row ((atom, position) :: rest) =
      (if row.testBit position then pure atom else negation atom) >>=
        fun literal => rowLiterals row rest >>=
          fun literals => pure (literal :: literals) := by
  rw [rowLiterals]
  split <;> rfl

theorem Formative.rowLiterals
    {relation : Registry → Registry → Prop} (formative : Formative relation)
    (row : Nat) (atoms : List (Key × Nat)) (registry : Registry) :
    relation registry (registry.after (rowLiterals row atoms)) := by
  induction atoms generalizing registry with
  | nil => exact formative.refl registry
  | cons placed atoms inductionHypothesis =>
      obtain ⟨atom, position⟩ := placed
      rw [rowLiterals_cons]
      refine formative.bind ?_ ?_
      · split
        · exact formative.refl registry
        · exact formative.negation registry atom
      · intro literal middle _
        exact formative.bind_pure (inductionHypothesis middle)

/-- What was added stays so while the registry grows. -/
theorem Adds.of_grows
    {before middle after : Registry} {key : Key} {node : Node}
    (added : before.Adds middle key node) (grows : middle.Grows after) :
    before.Adds after key node := by
  have ⟨wellFormed, extension⟩ := grows added.wellFormed
  exact {
    wellFormed
    extension := added.extension.trans extension
    new := added.new
    unbound := added.unbound
    stored := extension.node? added.stored
    bound := extension.bindings added.bound }

/-- The second registry holds a junction that is still being filled. -/
def Filling
    (before : Registry) (key : Key) (name : Name) (connective : Connective)
    (registry : Registry) : Prop :=
  ∃ operands, before.Adds registry key
    { name, owner := none, body := .junction connective operands }

theorem Filling.of_grows
    {before registry after : Registry} {key : Key} {name : Name}
    {connective : Connective}
    (filling : before.Filling key name connective registry)
    (grows : registry.Grows after) :
    before.Filling key name connective after := by
  obtain ⟨operands, added⟩ := filling
  exact ⟨operands, added.of_grows grows⟩

theorem Filling.after_addOperand
    {before registry : Registry} {key : Key} {name : Name}
    {connective : Connective}
    (filling : before.Filling key name connective registry)
    (operand : Key) :
    before.Filling key name connective
      (registry.after (addOperand key operand)) := by
  obtain ⟨operands, added⟩ := filling
  cases found : registry.node? operand with
  | none =>
      have refused : registry.Refuses (addOperand key operand) .unknownKey
          registry := Refuses.bind (refuses_stored found) _
      rw [refused.after_eq]
      exact ⟨operands, added⟩
  | some addition =>
      rw [(yields_addOperand added.stored rfl found).after_eq]
      exact ⟨_, added.replace _ rfl <|
        added.wellFormed.admits_extendOperands found
          (added.wellFormed.admits added.stored)⟩

/-- One round of the loop that adds the minterms to a disjunction. -/
def addMinterm
    (disjunction : Key) (atoms : List Key) (row : Nat) : Update PUnit := do
  let literals ← rowLiterals row atoms.zipIdx
  let minterm ← junction .conjunction literals
  let _ ← addOperand disjunction minterm

/-- The rounds of the loop. -/
def addMinterms
    (disjunction : Key) (atoms : List Key) (rows : List Nat) :
    Update PUnit :=
  rows.forM (addMinterm disjunction atoms)

theorem minterms_eq (atoms : List Key) (rows : List Nat) :
    minterms atoms rows =
      junction .disjunction [] >>= fun disjunction =>
        addMinterms disjunction atoms rows >>= fun _ =>
          get >>= fun registry =>
            simplifyWithin (registry.levels 1) .named disjunction :=
  rfl

/-- A formative relation that holds around the filling of the disjunction holds
around all rounds. -/
theorem Formative.addMinterms
    {relation : Registry → Registry → Prop} (formative : Formative relation)
    {disjunction : Key}
    (filling : ∀ registry operand,
      relation registry (registry.after (addOperand disjunction operand)))
    (atoms : List Key) (rows : List Nat) (registry : Registry) :
    relation registry
      (registry.after (addMinterms disjunction atoms rows)) := by
  refine after_forM_of_trans relation formative.refl formative.trans ?_
  intro row current
  refine formative.bind (formative.rowLiterals row _ current) ?_
  intro literals middle _
  refine formative.bind (formative.junction middle _ literals) ?_
  intro minterm last _
  exact formative.bind_pure (filling last minterm)

theorem Filling.after_addMinterms
    {before registry : Registry} {key : Key} {name : Name}
    {connective : Connective}
    (filling : before.Filling key name connective registry)
    (atoms : List Key) (rows : List Nat) :
    before.Filling key name connective
      (registry.after (addMinterms key atoms rows)) := by
  have formative : Formative fun first second =>
      before.Filling key name connective first →
        before.Filling key name connective second := {
    refl := fun _ => id
    trans := fun first second => second ∘ first
    negation := fun current operand filling =>
      filling.of_grows (grows_negation current operand)
    junction := fun current connective operands filling =>
      filling.of_grows (grows_junction current connective operands) }
  exact formative.addMinterms
    (fun _ operand filling => filling.after_addOperand operand) atoms rows
    registry filling

/-- The disjunction of minterms starts empty. -/
theorem exists_filling
    {registry : Registry} (wellFormed : registry.WellFormed) :
    ∃ disjunction name middle,
      registry.Yields (junction .disjunction []) disjunction middle ∧
        registry.Adds middle disjunction
          { name, owner := none, body := .junction .disjunction [] } := by
  have none : ([] : List Key).map registry.node? =
      ([] : List Node).map some := rfl
  exact yields_junction wellFormed .disjunction none

theorem grows_minterms
    (atoms : List Key) (rows : List Nat) (registry : Registry) :
    registry.Grows (registry.after (minterms atoms rows)) := by
  intro wellFormed
  obtain ⟨disjunction, name, middle, run, added⟩ :=
    exists_filling wellFormed
  have filling : registry.Filling disjunction name .disjunction middle :=
    ⟨[], added⟩
  rw [minterms_eq, run.after_bind]
  have filled : registry.Filling disjunction name .disjunction
      (middle.after <| addMinterms disjunction atoms rows >>= fun _ =>
        get >>= fun registry =>
          simplifyWithin (registry.levels 1) .named disjunction) := by
    refine after_bind_of_trans
      (fun first second =>
        registry.Filling disjunction name .disjunction first →
          registry.Filling disjunction name .disjunction second)
      (fun first second => second ∘ first)
      (fun filling => filling.after_addMinterms atoms rows) ?_ filling
    intro _ last _ filling
    exact filling.of_grows (grows_simplifyWithin _ _ disjunction last)
  obtain ⟨_, stillAdded⟩ := filled
  exact stillAdded.grows wellFormed

/-- The key of the simplified disjunction of minterms was issued. -/
theorem issued_minterms
    {before after : Registry} (wellFormed : before.WellFormed)
    {atoms : List Key} {rows : List Nat} {generated : Option Key}
    (run : before.Yields (minterms atoms rows) generated after) :
    after.Issued generated.toList := by
  rw [minterms_eq] at run
  obtain ⟨disjunction, middle, first, run⟩ := yields_bind_iff.mp run
  obtain ⟨_, name, _, again, added⟩ := exists_filling wellFormed
  obtain ⟨rfl, rfl⟩ := first.unique again
  have filling : before.Filling disjunction name .disjunction middle :=
    ⟨[], added⟩
  obtain ⟨_, last, loop, run⟩ := yields_bind_iff.mp run
  have filled := filling.after_addMinterms atoms rows
  rw [loop.after_eq] at filled
  obtain ⟨_, stillAdded⟩ := filled
  have run := yields_get_bind_iff.mp run
  exact issued_simplifyWithin stillAdded.wellFormed run

/-! ## Recording the formula -/

@[simp]
theorem after_atomName (registry : Registry) (key : Key) :
    registry.after (atomName key) = registry := by
  cases found : registry.node? key with
  | none => exact (Refuses.bind (refuses_stored found) _).after_eq
  | some node =>
      rw [atomName,
        (yields_stored_iff.mpr ⟨found, rfl⟩).after_bind]
      split <;> rfl

@[simp]
theorem after_atomNames (registry : Registry) (atoms : List Key) :
    registry.after (atoms.mapM atomName) = registry :=
  after_mapM_of_trans (fun first second => second = first) (fun _ => rfl)
    (fun first second => second.trans first)
    fun atom current => after_atomName current atom

theorem yields_atomName_iff
    {before after : Registry} {key : Key} {name : Name} :
    before.Yields (atomName key) name after ↔
      (∃ node, before.node? key = some node ∧ node.isAtom ∧
        node.name = name) ∧ before = after := by
  unfold atomName
  rw [yields_bind_iff]
  constructor
  · rintro ⟨node, middle, looked, run⟩
    obtain ⟨found, rfl⟩ := yields_stored_iff.mp looked
    split at run
    · rename_i isAtom
      obtain ⟨named, same⟩ := yields_pure_iff.mp run
      exact ⟨⟨node, found, isAtom, named⟩, same⟩
    · exact (yields_throw_iff.mp run).elim
  · rintro ⟨⟨node, found, isAtom, named⟩, same⟩
    refine ⟨node, before, yields_stored_iff.mpr ⟨found, rfl⟩, ?_⟩
    rw [if_pos isAtom]
    exact yields_pure_iff.mpr ⟨named, same⟩

/-- The names recorded for the atoms are names of stored nodes. -/
theorem stored_of_atomNames
    {before after : Registry} {atoms : List Key} {names : List Name}
    (run : before.Yields (atoms.mapM atomName) names after) :
    before = after ∧ ∀ name ∈ names,
      ∃ key node, before.node? key = some node ∧ node.name = name := by
  induction atoms generalizing names after with
  | nil =>
      obtain ⟨rfl, same⟩ := yields_pure_iff.mp run
      exact ⟨same, by simp⟩
  | cons atom atoms inductionHypothesis =>
      rw [List.mapM_cons] at run
      obtain ⟨name, middle, first, rest⟩ := yields_bind_iff.mp run
      obtain ⟨⟨node, found, _, rfl⟩, rfl⟩ := yields_atomName_iff.mp first
      obtain ⟨names, last, others, collected⟩ := yields_bind_iff.mp rest
      obtain ⟨rfl, othersStored⟩ := inductionHypothesis others
      obtain ⟨rfl, same⟩ := yields_pure_iff.mp collected
      refine ⟨same, ?_⟩
      intro name member
      rcases List.mem_cons.mp member with rfl | later
      · exact ⟨atom, node, found, rfl⟩
      · exact othersStored name later

theorem within_of_atomNames
    {before after : Registry} {atoms : List Key} {names : List Name}
    (run : before.Yields (atoms.mapM atomName) names after)
    (wellFormed : before.WellFormed) :
    before = after ∧ ∀ name ∈ names, name < before.strings.size := by
  obtain ⟨same, stored⟩ := stored_of_atomNames run
  refine ⟨same, fun name member => ?_⟩
  obtain ⟨_, _, found, rfl⟩ := stored name member
  exact wellFormed.named found

/-- The names recorded are those of stored atoms. -/
theorem atoms_of_atomNames
    {before after : Registry} {atoms : List Key} {names : List Name}
    (run : before.Yields (atoms.mapM atomName) names after) :
    ∀ atom ∈ atoms, ∃ node, before.node? atom = some node ∧ node.isAtom := by
  induction atoms generalizing names after with
  | nil => simp
  | cons atom atoms inductionHypothesis =>
      rw [List.mapM_cons] at run
      obtain ⟨name, middle, first, rest⟩ := yields_bind_iff.mp run
      obtain ⟨⟨node, found, isAtom, _⟩, rfl⟩ := yields_atomName_iff.mp first
      obtain ⟨_, _, others, _⟩ := yields_bind_iff.mp rest
      intro other member
      rcases List.mem_cons.mp member with rfl | later
      · exact ⟨node, found, isAtom⟩
      · exact inductionHypothesis others other later

/-- The disjunctive normal form may be stored once its formula was
generated. -/
theorem admits_dnf
    {before after last : Registry} (wellFormed : before.WellFormed)
    {atoms : List Key} {names : List Name} {selected : List Nat}
    {generated : Option Key}
    (naming : before.Yields (atoms.mapM atomName) names after)
    (generation : before.Yields (minterms atoms selected) generated last)
    (rows : UInt64) :
    last.Admits (.dnf names rows generated) := by
  obtain ⟨_, within⟩ := within_of_atomNames naming wellFormed
  obtain ⟨_, extension⟩ :=
    generation.related (grows_minterms atoms selected before) wellFormed
  exact {
    references := fun name member =>
      Nat.lt_of_lt_of_le (within name member) extension.strings_size_le
    generated := fun formula member =>
      issued_minterms wellFormed generation formula
        (Option.mem_toList.mpr member) }

theorem grows_dnf
    (atoms : List Key) (rows : UInt64) (registry : Registry) :
    registry.Grows (registry.after (dnf atoms rows)) := by
  intro wellFormed
  refine grows_bind (by rw [after_atomNames]; exact Grows.refl registry) ?_
    wellFormed
  intro names middle naming
  obtain ⟨rfl, _⟩ := within_of_atomNames naming wellFormed
  refine grows_bind (grows_minterms atoms _ registry) ?_
  intro generated last generation
  obtain ⟨lastWellFormed, _⟩ :=
    generation.related (grows_minterms atoms _ registry) wellFormed
  obtain ⟨_, _, after, insertion, added⟩ :=
    adds_insertFresh lastWellFormed .compound none
      (admits_dnf wellFormed naming generation rows)
  rw [insertion.after_eq]
  exact added.grows

end Registry

end NamedLogic
