import NamedLogic.Proofs.Representation

/-!
# Operations as sequences of basic changes

Whatever an operation does to a registry, short of clearing it, it does in steps
of a few sorts: it adds entries, changes the settings, binds or unbinds a name,
replaces a stored node by another of the same kind, or drops one.  So what holds
around each of these steps holds around every operation.
-/

namespace NamedLogic

/-- What a body says, leaving its operands aside. -/
inductive Kind where
  | atom
  | negation
  | junction (connective : Connective)
  | implication
  | dnf
  deriving DecidableEq

/-- The kind of a body. -/
def Body.kind : Body → Kind
  | .atom => .atom
  | .negation _ => .negation
  | .junction connective _ => .junction connective
  | .implication _ _ => .implication
  | .dnf _ _ _ => .dnf

namespace Registry

/-- The second registry comes about from the first by basic changes. -/
inductive ChangesTo (before : Registry) : Registry → Prop where
  | start : ChangesTo before before
  | extend
      {middle after : Registry} (earlier : ChangesTo before middle)
      (extension : middle.Extends after) : ChangesTo before after
  | configure
      {middle : Registry} (earlier : ChangesTo before middle)
      (settings : Settings) : ChangesTo before { middle with settings }
  | bind
      {middle : Registry} (earlier : ChangesTo before middle)
      (name : Name) (key : Key) : ChangesTo before (middle.bind name key).2
  | unbind
      {middle : Registry} (earlier : ChangesTo before middle)
      (name : Name) : ChangesTo before (middle.unbind name)
  | replace
      {middle : Registry} (earlier : ChangesTo before middle)
      {key : Key} {old node : Node} (stored : middle.node? key = some old)
      (same : node.body.kind = old.body.kind) :
      ChangesTo before (middle.replace key node)
  | drop
      {middle : Registry} (earlier : ChangesTo before middle)
      (key : Key) : ChangesTo before (middle.drop key)

namespace ChangesTo

variable {before middle after : Registry}

theorem trans
    (first : before.ChangesTo middle) (second : middle.ChangesTo after) :
    before.ChangesTo after := by
  induction second with
  | start => exact first
  | extend _ extension inductionHypothesis =>
      exact inductionHypothesis.extend extension
  | configure _ settings inductionHypothesis =>
      exact inductionHypothesis.configure settings
  | bind _ name key inductionHypothesis =>
      exact inductionHypothesis.bind name key
  | unbind _ name inductionHypothesis => exact inductionHypothesis.unbind name
  | replace _ stored same inductionHypothesis =>
      exact inductionHypothesis.replace stored same
  | drop _ key inductionHypothesis => exact inductionHypothesis.drop key

theorem release
    (earlier : before.ChangesTo after) (name : Name) (key : Key) :
    before.ChangesTo (after.release name key) := by
  unfold Registry.release
  split
  · exact earlier.unbind name
  · exact earlier

theorem insert (earlier : before.ChangesTo after) (node : Node) :
    before.ChangesTo (after.insert node).2 :=
  (earlier.extend (Extends.store after node)).bind _ _

end ChangesTo

/-! ## Single updates -/

theorem changes_intern (string : String) (registry : Registry) :
    registry.ChangesTo (registry.intern string).2 :=
  .extend .start (Extends.intern registry string)

theorem changes_atom (string : String) (registry : Registry) :
    registry.ChangesTo (registry.after (atom string)) := by
  unfold atom
  split
  · exact .start
  · refine after_bind_of_trans ChangesTo ChangesTo.trans
      (changes_intern string registry) ?_
    intro name middle _
    rw [after_get_bind]
    split
    · exact .start
    · exact ChangesTo.start.insert _

/-- The sides of an implication may be revised. -/
theorem changes_reviseImplication
    (implication : Key) {revise : Option Name → Option Name → Body}
    (stays : ∀ antecedent consequent,
      (revise antecedent consequent).kind = .implication)
    (registry : Registry) :
    registry.ChangesTo
      (registry.after (reviseImplication implication revise)) := by
  refine after_stored_bind _ .start fun node stored => ?_
  split
  · rename_i antecedent consequent body
    refine ChangesTo.start.replace stored ?_
    rw [body]
    exact stays antecedent consequent
  · exact .start

theorem changes_addOperand
    (junction operand : Key) (registry : Registry) :
    registry.ChangesTo (registry.after (addOperand junction operand)) := by
  refine after_stored_bind _ .start fun _ _ => ?_
  refine after_stored_bind _ .start fun target stored => ?_
  split
  · rename_i connective operands body
    refine ChangesTo.start.replace stored ?_
    rw [body]
    rfl
  · exact .start

theorem changes_remove (string : String) (registry : Registry) :
    registry.ChangesTo (registry.remove string).2 := by
  unfold remove
  split
  · exact .start
  · split
    · exact .start
    · exact (ChangesTo.start.unbind _).drop _

theorem changes_removeKey (key : Key) (registry : Registry) :
    registry.ChangesTo (registry.removeKey key).2 := by
  unfold removeKey
  split
  · exact .start
  · exact (ChangesTo.start.drop _).release _ _

theorem changes_rename (key : Key) (string : String) (registry : Registry) :
    registry.ChangesTo (registry.after (rename key string)) := by
  unfold rename
  split
  · exact .start
  · refine after_bind_of_trans ChangesTo ChangesTo.trans
      (changes_intern string registry) ?_
    intro name middle _
    refine after_stored_bind _ .start fun node stored => ?_
    split
    · exact .start
    · have same : { node with name }.body.kind = node.body.kind := rfl
      exact ((ChangesTo.start.replace stored same).release _ _).bind _ _

/-- A change by basic steps that keeps the tables in step. -/
def Proceeds (before after : Registry) : Prop :=
  before.WellFormed → after.WellFormed ∧ before.ChangesTo after

theorem Grows.proceeds {before after : Registry}
    (grows : before.Grows after) : before.Proceeds after :=
  fun wellFormed => (grows wellFormed).imp_right ChangesTo.start.extend

theorem formative_proceeds : Formative Proceeds where
  refl registry := (Grows.refl registry).proceeds
  trans first second wellFormed := by
    obtain ⟨middleWellFormed, firstChanges⟩ := first wellFormed
    obtain ⟨afterWellFormed, secondChanges⟩ := second middleWellFormed
    exact ⟨afterWellFormed, firstChanges.trans secondChanges⟩
  negation registry operand := (grows_negation registry operand).proceeds
  junction registry connective operands :=
    (grows_junction registry connective operands).proceeds

theorem WellFormed.changes_toFormula
    {registry : Registry} (wellFormed : registry.WellFormed)
    {V : Type} [TruthValue V] (valuation : Valuation V) :
    registry.ChangesTo (registry.after valuation.toFormula) :=
  (formative_proceeds.toFormula
    (fun current string wellFormed => ⟨keeps_atom string current wellFormed,
      changes_atom string current⟩) valuation registry wellFormed).2

end Registry

/-! ## Operations -/

namespace Operation

/-- Whether the operation clears the registry. -/
def clears : Operation → Bool
  | clear => true
  | _ => false

/-- Every operation but clearing consists of basic changes, whether it is refused
or not. -/
theorem changes
    {operation : Operation} (lasting : operation.clears = false)
    {registry : Registry} (wellFormed : registry.WellFormed) :
    registry.ChangesTo (operation.apply registry) := by
  have grown : ∀ {after : Registry}, registry.Grows after →
      registry.ChangesTo after := fun grows => (grows.proceeds wellFormed).2
  cases operation with
  | configure settings => exact .configure .start settings
  | intern string => exact Registry.changes_intern string registry
  | atom string => exact Registry.changes_atom string registry
  | freshAtom => exact grown (Registry.grows_freshAtom registry)
  | negation operand => exact grown (Registry.grows_negation registry operand)
  | junction connective operands =>
      exact grown (Registry.grows_junction registry connective operands)
  | implication antecedent consequent =>
      exact grown
        (Registry.grows_implication registry antecedent consequent)
  | setAntecedent | setConsequent =>
      exact Registry.after_sideName_bind _ .start fun _ _ =>
        Registry.changes_reviseImplication _ (fun _ _ => rfl) registry
  | addOperand target operand =>
      exact Registry.changes_addOperand target operand registry
  | register key =>
      change registry.ChangesTo (registry.after (Registry.register key))
      exact Registry.after_operandName_bind _ .start fun _ _ =>
        .bind .start _ key
  | remove string => exact Registry.changes_remove string registry
  | removeKey key => exact Registry.changes_removeKey key registry
  | rename key string => exact Registry.changes_rename key string registry
  | setOwner key owner =>
      exact Registry.after_stored_bind _ .start fun _ stored =>
        Registry.ChangesTo.start.replace stored rfl
  | dnf atoms rows => exact grown (Registry.grows_dnf atoms rows registry)
  | simplify key => exact grown (Registry.grows_simplify key registry)
  | describe valuation => exact wellFormed.changes_toFormula valuation
  | describeFour valuation => exact wellFormed.changes_toFormula valuation
  | clear => cases lasting

end Operation

end NamedLogic
