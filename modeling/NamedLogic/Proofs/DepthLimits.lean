import NamedLogic.Proofs.AgreeingRegistries
import NamedLogic.Proofs.ClassicalAgreement
import NamedLogic.Proofs.Comparison

/-!
# Changing the depth limit

The depth limit decides how many levels a traversal is given, and nothing else
looks at it.  So formulas are stored and named alike under every limit.  With a
larger one a traversal finds what it found before, and structural equality
affirms what it affirmed before: it descends further, and denies a comparison
only where there are no levels left or the formulas differ.
-/

namespace NamedLogic

namespace Registry

/-- The registry with another depth limit. -/
def withLimit (registry : Registry) (limit : Nat) : Registry :=
  { registry with
    settings :=
      { registry.settings with
        depthLimit := { registry.settings.depthLimit with value := limit } } }

section Reading

variable (registry : Registry) (limit : Nat)

@[simp]
theorem node?_withLimit (key : Key) :
    (registry.withLimit limit).node? key = registry.node? key := rfl

@[simp]
theorem lookup_withLimit (string : String) :
    (registry.withLimit limit).lookup string = registry.lookup string := by
  rw [lookup, lookup]
  rfl

@[simp]
theorem get?_withLimit (string : String) :
    (registry.withLimit limit).get? string = registry.get? string := by
  rw [get?, lookup_withLimit]
  rfl

@[simp]
theorem size_withLimit : (registry.withLimit limit).size = registry.size :=
  rfl

@[simp]
theorem stem_withLimit (flavour : Flavour) :
    (registry.withLimit limit).settings.stem flavour =
      registry.settings.stem flavour := by
  cases flavour <;> rfl

@[simp]
theorem counter_withLimit (flavour : Flavour) :
    (registry.withLimit limit).counter flavour =
      registry.counter flavour := by
  cases flavour <;> rfl

@[simp]
theorem setCounter_withLimit (flavour : Flavour) (counter : Nat) :
    (registry.withLimit limit).setCounter flavour counter =
      (registry.setCounter flavour counter).withLimit limit := by
  cases flavour <;> rfl

end Reading

section Traversals

variable {registry : Registry} {limit : Nat}

/-! ## Traversals with the same number of levels -/

theorem agreesAt_withLimit (node : Node) :
    registry.AgreesAt (registry.withLimit limit) node :=
  ⟨fun _ _ => rfl, fun _ _ => rfl, fun _ _ => rfl⟩

theorem unfold_withLimit (levels : Nat) (node : Node) :
    (registry.withLimit limit).unfold levels node =
      registry.unfold levels node :=
  unfold_eq_of_agrees (fun part _ => agreesAt_withLimit part) levels

theorem nodeValue_withLimit
    {V : Type} [Interpretation V] [Extensional V] (valuation : Valuation V)
    (levels : Nat) (node : Node) :
    (registry.withLimit limit).nodeValue valuation levels node =
      registry.nodeValue valuation levels node := by
  rw [nodeValue_eq_value, unfold_withLimit, nodeValue_eq_value]

theorem nodesAlike_withLimit (levels : Nat) (left right : Node) :
    (registry.withLimit limit).nodesAlike levels left right =
      registry.nodesAlike levels left right := by
  induction levels generalizing left right with
  | zero => rfl
  | succ levels inductionHypothesis =>
      have heads : (registry.withLimit limit).compareHeads
          (fun first second => .ok
            ((registry.withLimit limit).nodesAlike levels first second))
          left right =
        registry.compareHeads
          (fun first second => .ok (registry.nodesAlike levels first second))
          left right := by
        simp only [inductionHypothesis]
        rfl
      rw [compareHeads_nodesAlike, compareHeads_nodesAlike] at heads
      exact Except.ok.inj heads

/-! ## More levels -/

theorem nodesAlike_persists (levels : Nat) (left right : Node) :
    Traversed.Supports (.ok (registry.nodesAlike levels left right))
      (.ok (registry.nodesAlike (levels + 1) left right)) := by
  induction levels generalizing left right with
  | zero =>
      intro answer affirmed
      cases affirmed
  | succ levels inductionHypothesis =>
      rw [← compareHeads_nodesAlike, ← compareHeads_nodesAlike]
      exact compareHeads_related Traversed.respected_supports
        fun first second _ _ => inductionHypothesis first second

/-- What structural equality affirms, it affirms with more levels. -/
theorem nodesAlike_of_le
    {small large : Nat} (more : small ≤ large) {left right : Node}
    (alike : registry.nodesAlike small left right = true) :
    registry.nodesAlike large left right = true := by
  induction more with
  | refl => exact alike
  | step _ inductionHypothesis =>
      exact nodesAlike_persists _ left right _
        (congrArg Except.ok inductionHypothesis) rfl

/-! ## Larger limits -/

variable (more : registry.settings.depthLimit.value ≤ limit)

include more

theorem levels_le_of_limit_le : registry.levels 0 ≤ limit + 1 :=
  Nat.succ_le_succ more

/-- What evaluation finds, it finds with a larger limit. -/
theorem evaluate_of_limit_le
    {V : Type} [Interpretation V] [Extensional V] [Persistent V]
    {valuation : Valuation V} {key : Key} {outcome : Option V}
    (found : registry.evaluate valuation key = .ok outcome) :
    (registry.withLimit limit).evaluate valuation key = .ok outcome := by
  rw [evaluate] at found ⊢
  rw [node?_withLimit]
  cases stored : registry.node? key with
  | none =>
      rw [stored] at found
      exact found
  | some node =>
      rw [stored] at found
      dsimp only
      rw [nodeValue_withLimit]
      exact nodeValue_persists_of_le (levels_le_of_limit_le more) node outcome
        found

/-- What structural equality affirms, it affirms with a larger limit. -/
theorem alike_of_limit_le
    {left right : Key} (same : registry.alike left right = true) :
    (registry.withLimit limit).alike left right = true := by
  rw [alike] at same ⊢
  rw [node?_withLimit, node?_withLimit]
  split at same
  · rw [nodesAlike_withLimit]
    exact nodesAlike_of_le (levels_le_of_limit_le more) same
  · rfl
  · cases same

end Traversals

/-! ## Updates that do not look at the limit -/

/-- An update comes to the same under every limit, and leaves the same registry
behind but for the limit. -/
def Indifferent {α : Type} (update : Update α) : Prop :=
  ∀ (registry : Registry) (limit : Nat),
    update.run.run (registry.withLimit limit) =
      ((update.run.run registry).1,
        (update.run.run registry).2.withLimit limit)

section Updates

variable {α β : Type}

theorem Indifferent.yields
    {update : Update α} (indifferent : Indifferent update)
    {before after : Registry} {value : α}
    (run : before.Yields update value after) (limit : Nat) :
    (before.withLimit limit).Yields update value (after.withLimit limit) := by
  rw [Yields, indifferent, run]

theorem indifferent_pure (value : α) : Indifferent (pure value) :=
  fun _ _ => rfl

theorem indifferent_throw (cause : LogicError) :
    Indifferent (throw cause : Update α) :=
  fun _ _ => rfl

theorem indifferent_modifyGet
    {change : Registry → α × Registry}
    (same : ∀ registry limit, change (withLimit registry limit) =
      ((change registry).1, (change registry).2.withLimit limit)) :
    Indifferent (modifyGet change) := by
  intro registry limit
  change (Except.ok (change _).1, (change _).2) = _
  rw [same]
  rfl

theorem Indifferent.bind
    {update : Update α} {next : α → Update β}
    (first : Indifferent update) (rest : ∀ value, Indifferent (next value)) :
    Indifferent (update >>= next) := by
  intro registry limit
  rw [run_bind, run_bind, first]
  rcases update.run.run registry with ⟨outcome, middle⟩
  cases outcome with
  | error cause => rfl
  | ok value => exact rest value middle limit

/-- Looking at anything but the limit. -/
theorem indifferent_get_bind
    {next : Registry → Update β}
    (same : ∀ registry limit, next (withLimit registry limit) = next registry)
    (rest : ∀ registry, Indifferent (next registry)) :
    Indifferent (get >>= next) := by
  intro registry limit
  change (next (registry.withLimit limit)).run.run
    (registry.withLimit limit) = _
  rw [same, rest registry]
  rfl

theorem indifferent_forM
    {update : α → Update PUnit} (each : ∀ item, Indifferent (update item))
    (items : List α) : Indifferent (items.forM update) := by
  induction items with
  | nil => exact indifferent_pure _
  | cons item items inductionHypothesis =>
      exact (each item).bind fun _ => inductionHypothesis

/-! ## Constructors -/

theorem intern_withLimit (registry : Registry) (limit : Nat) (string : String) :
    (registry.withLimit limit).intern string =
      ((registry.intern string).1,
        (registry.intern string).2.withLimit limit) := by
  unfold intern
  rw [lookup_withLimit]
  cases registry.lookup string <;> rfl

theorem firstFree_withLimit
    (registry : Registry) (limit : Nat) (stem : String) (tries counter : Nat) :
    (registry.withLimit limit).firstFree stem tries counter =
      registry.firstFree stem tries counter := by
  induction tries generalizing counter with
  | zero => rfl
  | succ tries inductionHypothesis =>
      rw [firstFree, firstFree, get?_withLimit, inductionHypothesis]

theorem freshName_withLimit
    (registry : Registry) (limit : Nat) (flavour : Flavour) :
    (registry.withLimit limit).freshName flavour =
      ((registry.freshName flavour).1,
        (registry.freshName flavour).2.withLimit limit) := by
  simp only [freshName, firstFree_withLimit, stem_withLimit, size_withLimit,
    counter_withLimit, setCounter_withLimit, intern_withLimit]

theorem indifferent_stored (key : Key) : Indifferent (stored key) := by
  refine indifferent_get_bind (fun _ _ => rfl) fun registry => ?_
  cases registry.node? key with
  | none => exact indifferent_throw _
  | some node => exact indifferent_pure node

theorem indifferent_insertFresh
    (flavour : Flavour) (owner : Option Entity) (body : Body) :
    Indifferent (insertFresh flavour owner body) :=
  (indifferent_modifyGet fun registry limit =>
      freshName_withLimit registry limit flavour).bind
    fun _ => indifferent_modifyGet fun _ _ => rfl

theorem indifferent_negation (operand : Key) :
    Indifferent (negation operand) :=
  ((indifferent_stored operand).bind fun _ => indifferent_pure _).bind
    fun _ => indifferent_insertFresh _ _ _

theorem indifferent_addOperand (junction operand : Key) :
    Indifferent (addOperand junction operand) := by
  refine (indifferent_stored operand).bind fun addition => ?_
  refine (indifferent_stored junction).bind fun target => ?_
  split
  · exact (indifferent_modifyGet fun _ _ => rfl).bind
      fun _ => indifferent_pure _
  · exact indifferent_throw _

theorem indifferent_junction (connective : Connective) (operands : List Key) :
    Indifferent (junction connective operands) := by
  refine (indifferent_forM (fun operand =>
    (indifferent_stored operand).bind fun _ => indifferent_pure _)
      operands).bind fun _ => ?_
  refine (indifferent_insertFresh _ _ _).bind fun key => ?_
  exact (indifferent_forM (fun operand =>
    (indifferent_addOperand key operand).bind fun _ => indifferent_pure _)
      operands).bind fun _ => indifferent_pure key

theorem indifferent_rebuild
    (placement : Placement) (node : Node) (connective : Connective)
    (operands : List Key) :
    Indifferent (rebuild placement node connective operands) := by
  refine indifferent_get_bind (fun _ _ => rfl) fun registry => ?_
  cases placement with
  | detached => exact indifferent_modifyGet fun _ _ => rfl
  | named => exact indifferent_insertFresh _ _ _

end Updates

end Registry

end NamedLogic
