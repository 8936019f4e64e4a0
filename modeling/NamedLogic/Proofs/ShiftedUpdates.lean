import NamedLogic.Registry.Formation
import NamedLogic.Proofs.ShiftedKeys
import NamedLogic.Proofs.Update

/-!
# Updates of registries with shifted keys

Every constructor does to a registry with shifted keys what it does to the
original: it is refused for the same cause or yields the same result, with its
keys shifted, and leaves registries behind that differ in the same way.  The
proofs are put together from the parts of an update just as the update is.
-/

namespace NamedLogic

namespace Registry

variable {α β γ δ : Type} {offset : Nat}

/-- What the second update does to a registry with shifted keys is what the
first does to the original, with the value yielded renamed. -/
def Shifts
    (offset : Nat) (rename : α → β) (update : Update α)
    (shifted : Update β) : Prop :=
  ∀ registry : Registry,
    shifted.run.run (registry.shift offset) =
      (update.run.run registry).map (Except.map rename) (shift · offset)

/-! ## Sequences of updates -/

section Sequences

variable {rename : α → β} {renameNext : γ → δ}

theorem shifts_pure (rename : α → β) (value : α) :
    Shifts offset rename (pure value) (pure (rename value)) :=
  fun _ => rfl

theorem shifts_throw (rename : α → β) (cause : LogicError) :
    Shifts offset rename (throw cause) (throw cause) :=
  fun _ => rfl

theorem Shifts.bind
    {update : Update α} {shifted : Update β}
    {next : α → Update γ} {shiftedNext : β → Update δ}
    (first : Shifts offset rename update shifted)
    (rest : ∀ value,
      Shifts offset renameNext (next value) (shiftedNext (rename value))) :
    Shifts offset renameNext (update >>= next) (shifted >>= shiftedNext) := by
  intro registry
  rw [run_bind, run_bind, first registry]
  rcases update.run.run registry with ⟨outcome, middle⟩
  cases outcome with
  | error cause => rfl
  | ok value => exact rest value middle

/-- A first part whose result holds no keys. -/
theorem Shifts.bind_same
    {update shifted : Update α} {next : α → Update γ}
    {shiftedNext : α → Update δ} (first : Shifts offset id update shifted)
    (rest : ∀ value,
      Shifts offset renameNext (next value) (shiftedNext value)) :
    Shifts offset renameNext (update >>= next) (shifted >>= shiftedNext) :=
  first.bind rest

theorem shifts_get_bind
    {next : Registry → Update α} {shiftedNext : Registry → Update β}
    (rest : ∀ registry : Registry, Shifts offset rename (next registry)
      (shiftedNext (registry.shift offset))) :
    Shifts offset rename (get >>= next) (get >>= shiftedNext) :=
  fun registry => rest registry registry

theorem shifts_modifyGet
    {change : Registry → α × Registry}
    {shiftedChange : Registry → β × Registry}
    (changes : ∀ registry : Registry, shiftedChange (registry.shift offset) =
      (change registry).map rename (shift · offset)) :
    Shifts offset rename (modifyGet change) (modifyGet shiftedChange) := by
  intro registry
  exact congrArg (Prod.map Except.ok id) (changes registry)

theorem shifts_modify
    {change shiftedChange : Registry → Registry}
    (changes : ∀ registry : Registry,
      shiftedChange (registry.shift offset) =
        (change registry).shift offset) :
    Shifts offset id (modify change) (modify shiftedChange) :=
  shifts_modifyGet fun registry => congrArg (Prod.mk _) (changes registry)

theorem shifts_forM
    {body : α → Update PUnit} {shiftedBody : β → Update PUnit}
    (round : ∀ item,
      Shifts offset id (body item) (shiftedBody (rename item)))
    (items : List α) :
    Shifts offset id (items.forM body) ((items.map rename).forM shiftedBody)
    := by
  induction items with
  | nil => exact shifts_pure id PUnit.unit
  | cons item items inductionHypothesis =>
      exact (round item).bind fun _ => inductionHypothesis

theorem shifts_mapM
    {body : α → Update γ} {shiftedBody : β → Update δ}
    (round : ∀ item,
      Shifts offset renameNext (body item) (shiftedBody (rename item)))
    (items : List α) :
    Shifts offset (List.map renameNext) (items.mapM body)
      ((items.map rename).mapM shiftedBody) := by
  induction items with
  | nil => exact shifts_pure (List.map renameNext) []
  | cons item items inductionHypothesis =>
      rw [List.map_cons, List.mapM_cons, List.mapM_cons]
      exact (round item).bind fun first => inductionHypothesis.bind fun rest =>
        shifts_pure (List.map renameNext) (first :: rest)

end Sequences

/-! ## Looking up -/

section Constructors

variable (offset)

theorem shifts_stored (key : Key) :
    Shifts offset (Node.rekey (Key.shift offset)) (stored key)
      (stored (key.shift offset)) := by
  refine shifts_get_bind fun registry => ?_
  rw [shift_node?]
  cases registry.node? key with
  | none => exact shifts_throw _ _
  | some node => exact shifts_pure _ node

theorem shifts_operandName (key : Key) :
    Shifts offset id (operandName key) (operandName (key.shift offset)) :=
  (shifts_stored offset key).bind fun node => shifts_pure id node.name

theorem shifts_sideName (side : Option Key) :
    Shifts offset id (sideName side)
      (sideName (side.map (Key.shift offset))) := by
  cases side with
  | none => exact shifts_pure id none
  | some key =>
      exact (shifts_operandName offset key).bind fun name =>
        shifts_pure id (some name)

/-! ## Constructors -/

theorem shifts_insert (node : Node) :
    Shifts offset (Key.shift offset) (modifyGet (·.insert node))
      (modifyGet (·.insert (node.rekey (Key.shift offset)))) :=
  shifts_modifyGet fun registry => shift_insert registry offset node

theorem shifts_insertFresh
    (flavour : Flavour) (owner : Option Entity) (body : Body) :
    Shifts offset (Key.shift offset) (insertFresh flavour owner body)
      (insertFresh flavour owner (body.rekey (Key.shift offset))) :=
  (shifts_modifyGet fun registry =>
    shift_freshName registry offset flavour).bind fun name =>
      shifts_insert offset { name, owner, body }

theorem shifts_intern (string : String) :
    Shifts offset id (modifyGet (·.intern string))
      (modifyGet (·.intern string)) :=
  shifts_modifyGet fun registry => shift_intern registry offset string

theorem shifts_atom (string : String) :
    Shifts offset (Key.shift offset) (atom string) (atom string) := by
  unfold atom
  split
  · exact shifts_throw _ _
  · refine (shifts_intern offset string).bind_same fun name => ?_
    refine shifts_get_bind fun registry => ?_
    rw [shift_resolve]
    cases registry.resolve name with
    | none => exact shifts_insert offset { name, body := .atom }
    | some found =>
        obtain ⟨key, node⟩ := found
        simp only [Option.map_some, Option.filter_some, Prod.map,
          Node.rekey_isAtom]
        cases node.isAtom with
        | true => exact shifts_pure _ key
        | false => exact shifts_insert offset { name, body := .atom }

theorem shifts_freshAtom :
    Shifts offset (Key.shift offset) freshAtom freshAtom :=
  shifts_insertFresh offset .atom none .atom

theorem shifts_negation (operand : Key) :
    Shifts offset (Key.shift offset) (negation operand)
      (negation (operand.shift offset)) :=
  (shifts_operandName offset operand).bind fun name =>
    shifts_insertFresh offset .compound none (.negation name)

theorem shifts_implication (antecedent consequent : Option Key) :
    Shifts offset (Key.shift offset) (implication antecedent consequent)
      (implication (antecedent.map (Key.shift offset))
        (consequent.map (Key.shift offset))) :=
  (shifts_sideName offset antecedent).bind fun premise =>
    (shifts_sideName offset consequent).bind fun conclusion =>
      shifts_insertFresh offset .compound none
        (.implication premise conclusion)

theorem shifts_replace (key : Key) (node : Node) :
    Shifts offset id (modify (·.replace key node))
      (modify (·.replace (key.shift offset)
        (node.rekey (Key.shift offset)))) :=
  shifts_modify fun registry => shift_replace registry offset key node

theorem extendOperands_rekey
    (rename : Key → Key) (own : Name) (connective : Connective)
    (operands : List Name) (addition : Node) :
    extendOperands own connective operands (addition.rekey rename) =
      extendOperands own connective operands addition := by
  unfold extendOperands
  rw [Node.rekey_name, Node.rekey_operandsUnder?]

theorem shifts_addOperand (junction operand : Key) :
    Shifts offset id (addOperand junction operand)
      (addOperand (junction.shift offset) (operand.shift offset)) := by
  refine (shifts_stored offset operand).bind fun addition => ?_
  refine (shifts_stored offset junction).bind fun target => ?_
  rw [Node.rekey_body]
  cases body : target.body with
  | junction connective operands =>
      dsimp only [Body.rekey]
      rw [extendOperands_rekey, Node.rekey_name]
      exact (shifts_replace offset junction { target with
        body := .junction connective (extendOperands target.name connective
          operands addition).2 }).bind fun _ => shifts_pure id _
  | _ => exact shifts_throw _ _

theorem shifts_junction (connective : Connective) (operands : List Key) :
    Shifts offset (Key.shift offset) (junction connective operands)
      (junction connective (operands.map (Key.shift offset))) := by
  refine (shifts_forM (fun operand => ?_) operands).bind fun _ => ?_
  · exact (shifts_stored offset operand).bind fun _ =>
      shifts_pure id PUnit.unit
  refine (shifts_insertFresh offset .compound none
    (.junction connective [])).bind fun key => ?_
  refine (shifts_forM (fun operand => ?_) operands).bind fun _ => ?_
  · exact (shifts_addOperand offset key operand).bind fun _ =>
      shifts_pure id PUnit.unit
  · exact shifts_pure _ key

/-! ## Changes of stored nodes -/

theorem shifts_reviseImplication
    (implication : Key) {revise : Option Name → Option Name → Body}
    (plain : ∀ antecedent consequent,
      (revise antecedent consequent).rekey (Key.shift offset) =
        revise antecedent consequent) :
    Shifts offset id (reviseImplication implication revise)
      (reviseImplication (implication.shift offset) revise) := by
  refine (shifts_stored offset implication).bind fun node => ?_
  rw [Node.rekey_body]
  cases body : node.body with
  | implication antecedent consequent =>
      have replaced := shifts_replace offset implication
        { node with body := revise antecedent consequent }
      rw [Node.rekey, plain] at replaced
      exact replaced
  | _ => exact shifts_throw _ _

theorem shifts_setAntecedent
    (implication : Key) (antecedent : Option Key) :
    Shifts offset id (setAntecedent implication antecedent)
      (setAntecedent (implication.shift offset)
        (antecedent.map (Key.shift offset))) :=
  (shifts_sideName offset antecedent).bind fun _ =>
    shifts_reviseImplication offset implication fun _ _ => rfl

theorem shifts_setConsequent
    (implication : Key) (consequent : Option Key) :
    Shifts offset id (setConsequent implication consequent)
      (setConsequent (implication.shift offset)
        (consequent.map (Key.shift offset))) :=
  (shifts_sideName offset consequent).bind fun _ =>
    shifts_reviseImplication offset implication fun _ _ => rfl

theorem shifts_setOwner (key : Key) (owner : Option Entity) :
    Shifts offset id (setOwner key owner)
      (setOwner (key.shift offset) owner) :=
  (shifts_stored offset key).bind fun node =>
    shifts_replace offset key { node with owner }

theorem shifts_register (key : Key) :
    Shifts offset (Option.map (Key.shift offset)) (register key)
      (register (key.shift offset)) :=
  (shifts_operandName offset key).bind fun name =>
    shifts_modifyGet fun registry => shift_bind registry offset name key

theorem shifts_rename (key : Key) (string : String) :
    Shifts offset id (rename key string)
      (rename (key.shift offset) string) := by
  unfold rename
  split
  · exact shifts_throw _ _
  · refine (shifts_intern offset string).bind_same fun name => ?_
    refine (shifts_stored offset key).bind fun node => ?_
    rw [Node.rekey_junction?]
    split
    · exact shifts_throw _ _
    · refine shifts_modify fun registry => ?_
      have replaced := shift_replace registry offset key { node with name }
      rw [Node.rekey] at replaced ⊢
      rw [replaced, shift_release, shift_bind]
      rfl

end Constructors

end Registry

end NamedLogic
