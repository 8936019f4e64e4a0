import NamedLogic.Proofs.DnfGrowth
import NamedLogic.Proofs.PairRemainders
import NamedLogic.Proofs.ShiftedTraversals
import NamedLogic.Proofs.ShiftedUpdates

/-!
# Simplification in registries with shifted keys

Simplification compares operands, but never the numbers of their keys: of the
operands given it only uses the order.  So it does the same with shifted keys,
and so do the making of disjunctive normal forms and the description of
valuations.
-/

namespace NamedLogic

namespace Registry

section Simplification

variable (offset : Nat)

theorem shift_contribution
    (registry : Registry) (connective : Connective) (operand : Key) :
    (registry.shift offset).contribution connective (operand.shift offset) =
      (registry.contribution connective operand).map (Key.shift offset) := by
  have bound : (registry.shift offset).binding =
      Option.map (Key.shift offset) ∘ registry.binding :=
    funext (shift_binding registry offset)
  unfold contribution
  rw [shift_node?, Option.bind_map]
  simp only [Function.comp_def, Node.rekey_operandsUnder?]
  cases (registry.node? operand).bind (·.operandsUnder? connective) with
  | none => rfl
  | some names => rw [bound, List.map_filterMap]; rfl

theorem shift_negates (registry : Registry) (left right : Key) :
    (registry.shift offset).negates (left.shift offset)
        (right.shift offset) =
      registry.negates left right := by
  unfold negates
  rw [shift_node?, Option.bind_map]
  simp only [Function.comp_def, Node.rekey_negated?]
  cases (registry.node? left).bind Node.negated? with
  | none => rfl
  | some operand =>
      rw [Option.bind_some, Option.bind_some, shift_binding, Option.any_map]
      exact congrArg (Option.any · _)
        (funext fun bound => shift_alike registry offset bound right)

theorem shift_reduce?
    (registry : Registry) (connective : Connective) (operands : List Key) :
    Pairing.reduce? connective (registry.shift offset).negates
        (registry.shift offset).alike (operands.map (Key.shift offset)) =
      (Pairing.reduce? connective registry.negates registry.alike
        operands).map (List.map (Key.shift offset)) :=
  Pairing.reduce?_map connective
    (fun left _ right _ => (shift_negates offset registry left right).symm)
    (fun left _ right _ => (shift_alike registry offset left right).symm)

theorem shifts_rebuild
    (placement : Placement) (node : Node) (connective : Connective)
    (operands : List Key) :
    Shifts offset (Key.shift offset)
      (rebuild placement node connective operands)
      (rebuild placement (node.rekey (Key.shift offset)) connective
        (operands.map (Key.shift offset))) := by
  refine shifts_get_bind fun registry => ?_
  have names : (operands.map (Key.shift offset)).filterMap
        (fun operand => ((registry.shift offset).node? operand).map
          Node.name) =
      registry.operandNames operands := by
    rw [List.filterMap_map, operandNames]
    refine congrArg (List.filterMap · _) (funext fun operand => ?_)
    rw [Function.comp_apply, shift_node?, Option.map_map]
    rfl
  dsimp only
  rw [names]
  let body : Body := .junction connective (registry.operandNames operands)
  cases placement with
  | detached =>
      exact shifts_modifyGet fun current =>
        shift_store current offset { node with body }
  | named => exact shifts_insertFresh offset .compound node.owner body

section Parts

variable {simplify : Key → Update (Option Key)}
  (simplifyShifts : ∀ key, Shifts offset (Option.map (Key.shift offset))
    (simplify key) (simplify (key.shift offset)))

include simplifyShifts

theorem shifts_simplifyOperands
    (connective : Connective) (names : List Name) :
    Shifts offset (List.map (Key.shift offset))
      (simplifyOperands simplify connective names)
      (simplifyOperands simplify connective names) := by
  induction names with
  | nil => exact shifts_pure _ []
  | cons name names inductionHypothesis =>
      refine shifts_get_bind fun registry => ?_
      rw [shift_binding]
      cases registry.binding name with
      | none => exact inductionHypothesis
      | some operand =>
          refine (simplifyShifts operand).bind fun simplified => ?_
          cases simplified with
          | none => exact inductionHypothesis
          | some result =>
              refine shifts_get_bind fun registry => ?_
              refine inductionHypothesis.bind fun back => ?_
              rw [shift_contribution, ← List.map_append]
              exact shifts_pure _ _

theorem shifts_simplifyNegations (names : List Name) :
    Shifts offset (List.map (Key.shift offset))
      (simplifyNegations simplify names)
      (simplifyNegations simplify names) := by
  induction names with
  | nil => exact shifts_pure _ []
  | cons name names inductionHypothesis =>
      refine shifts_get_bind fun registry => ?_
      rw [shift_binding]
      cases registry.binding name with
      | none => exact inductionHypothesis
      | some operand =>
          refine (shifts_negation offset operand).bind fun negated => ?_
          refine (simplifyShifts negated).bind fun front => ?_
          refine inductionHypothesis.bind fun back => ?_
          rw [Option.toList_map, ← List.map_append]
          exact shifts_pure _ _

theorem shifts_simplifyJunction
    (placement : Placement) (key : Key) (connective : Connective)
    (names : List Name) :
    Shifts offset (Option.map (Key.shift offset))
      (simplifyJunction simplify placement key connective names)
      (simplifyJunction simplify placement (key.shift offset) connective
        names) := by
  refine (shifts_simplifyOperands offset simplifyShifts connective
    names).bind fun operands => ?_
  refine shifts_get_bind fun registry => ?_
  rw [shift_reduce?]
  rcases Pairing.reduce? connective registry.negates registry.alike operands
    with _ | _ | ⟨first, _ | ⟨second, rest⟩⟩
  · exact shifts_pure _ none
  · exact shifts_pure _ none
  · exact shifts_pure _ (some first)
  · dsimp only [Option.map_some, List.map_cons]
    rw [shift_node?]
    cases registry.node? key with
    | none => exact shifts_pure _ none
    | some node =>
        exact (shifts_rebuild offset placement node connective
          (first :: second :: rest)).bind fun rebuilt =>
            shifts_pure _ (some rebuilt)

theorem shifts_simplifyNegation (key : Key) (operand : Name) :
    Shifts offset (Option.map (Key.shift offset))
      (simplifyNegation simplify key operand)
      (simplifyNegation simplify (key.shift offset) operand) := by
  refine shifts_get_bind fun registry => ?_
  rw [shift_resolve]
  rcases registry.resolve operand with _ | ⟨operandKey, operandNode⟩
  · exact shifts_pure _ none
  dsimp only [Option.map_some, Prod.map]
  rw [Node.rekey_isAtom]
  cases operandNode.isAtom with
  | true => exact shifts_pure _ (some key)
  | false =>
      refine (simplifyShifts operandKey).bind fun simplified => ?_
      cases simplified with
      | none => exact shifts_pure _ none
      | some result =>
          refine shifts_get_bind fun registry => ?_
          rw [shift_node?, Option.map_map]
          rcases registry.node? result with _ | ⟨name, owner, body⟩
          · exact shifts_pure _ none
          cases body with
          | negation inner =>
              dsimp only [Option.map_some, Function.comp_apply, Body.rekey,
                Node.rekey]
              rw [shift_binding]
              exact shifts_pure _ (registry.binding inner)
          | junction connective names =>
              refine (shifts_simplifyNegations offset simplifyShifts
                names).bind fun negated => ?_
              rcases negated with _ | ⟨first, _ | ⟨second, rest⟩⟩
              · exact shifts_pure _ none
              · exact shifts_pure _ (some first)
              · exact (shifts_junction offset connective.dual
                  (first :: second :: rest)).bind fun dual =>
                    shifts_pure _ (some dual)
          | _ =>
              exact (shifts_negation offset result).bind fun negated =>
                shifts_pure _ (some negated)

theorem shifts_simplifyImplication (antecedent consequent : Option Name) :
    Shifts offset (Option.map (Key.shift offset))
      (simplifyImplication simplify antecedent consequent)
      (simplifyImplication simplify antecedent consequent) := by
  refine shifts_get_bind fun registry => ?_
  have bound : ∀ side : Option Name,
      side.bind (registry.shift offset).binding =
        (side.bind registry.binding).map (Key.shift offset) := by
    intro side
    cases side with
    | none => rfl
    | some name => exact shift_binding registry offset name
  rw [bound, bound]
  cases antecedent.bind registry.binding with
  | none =>
      cases consequent.bind registry.binding with
      | none => exact shifts_pure _ none
      | some conclusion => exact simplifyShifts conclusion
  | some premise =>
      cases consequent.bind registry.binding with
      | none =>
          exact (shifts_negation offset premise).bind fun negated =>
            simplifyShifts negated
      | some conclusion =>
          refine (shifts_negation offset premise).bind fun negated => ?_
          refine (simplifyShifts negated).bind fun left => ?_
          refine (simplifyShifts conclusion).bind fun right => ?_
          cases left with
          | none =>
              cases right with
              | none => exact shifts_pure _ none
              | some right => exact shifts_pure _ (some right)
          | some left =>
              cases right with
              | none => exact shifts_pure _ (some left)
              | some right =>
                  exact (shifts_junction offset .disjunction
                    [left, right]).bind fun disjunction =>
                      simplifyShifts disjunction

end Parts

/-- The induction is on the number of levels. -/
theorem shifts_simplifyWithin
    (levels : Nat) (placement : Placement) (key : Key) :
    Shifts offset (Option.map (Key.shift offset))
      (simplifyWithin levels placement key)
      (simplifyWithin levels placement (key.shift offset)) := by
  induction levels generalizing placement key with
  | zero => exact shifts_throw _ _
  | succ levels inductionHypothesis =>
      have operands := inductionHypothesis .named
      refine shifts_get_bind fun registry => ?_
      rw [shift_node?, Option.map_map]
      rcases registry.node? key with _ | ⟨name, owner, body⟩
      · exact shifts_pure _ none
      cases body with
      | atom => exact shifts_pure _ (some key)
      | negation operand =>
          exact shifts_simplifyNegation offset operands key operand
      | junction connective names =>
          exact shifts_simplifyJunction offset operands placement key
            connective names
      | implication antecedent consequent =>
          exact shifts_simplifyImplication offset operands antecedent
            consequent
      | dnf atoms rows generated => exact shifts_pure _ generated

theorem shifts_simplify (key : Key) :
    Shifts offset (Option.map (Key.shift offset)) (simplify key)
      (simplify (key.shift offset)) :=
  shifts_get_bind fun _ => shifts_simplifyWithin offset _ .detached key

/-! ## Disjunctive normal forms -/

theorem shifts_atomName (key : Key) :
    Shifts offset id (atomName key) (atomName (key.shift offset)) := by
  refine (shifts_stored offset key).bind fun node => ?_
  rw [Node.rekey_isAtom]
  cases node.isAtom with
  | true => exact shifts_pure id node.name
  | false => exact shifts_throw _ _

theorem shifts_rowLiterals (row : Nat) (atoms : List (Key × Nat)) :
    Shifts offset (List.map (Key.shift offset)) (rowLiterals row atoms)
      (rowLiterals row (atoms.map (Prod.map (Key.shift offset) id))) := by
  induction atoms with
  | nil => exact shifts_pure _ []
  | cons entry atoms inductionHypothesis =>
      obtain ⟨atom, position⟩ := entry
      have literal : Shifts offset (Key.shift offset)
          (if row.testBit position then pure atom else negation atom)
          (if row.testBit position then pure (atom.shift offset)
            else negation (atom.shift offset)) := by
        split
        · exact shifts_pure _ atom
        · exact shifts_negation offset atom
      rw [List.map_cons, Prod.map_apply, rowLiterals_cons, rowLiterals_cons]
      exact literal.bind fun first => inductionHypothesis.bind fun rest =>
        shifts_pure (List.map (Key.shift offset)) (first :: rest)

theorem shifts_addMinterm
    (disjunction : Key) (atoms : List Key) (row : Nat) :
    Shifts offset id (addMinterm disjunction atoms row)
      (addMinterm (disjunction.shift offset)
        (atoms.map (Key.shift offset)) row) := by
  unfold addMinterm
  rw [List.zipIdx_map]
  refine (shifts_rowLiterals offset row atoms.zipIdx).bind fun literals => ?_
  refine (shifts_junction offset .conjunction literals).bind fun minterm => ?_
  exact (shifts_addOperand offset disjunction minterm).bind fun _ =>
    shifts_pure id PUnit.unit

theorem shifts_minterms (atoms : List Key) (rows : List Nat) :
    Shifts offset (Option.map (Key.shift offset)) (minterms atoms rows)
      (minterms (atoms.map (Key.shift offset)) rows) := by
  rw [minterms_eq, minterms_eq]
  refine (shifts_junction offset .disjunction []).bind fun disjunction => ?_
  have rounds := shifts_forM
    (fun row => shifts_addMinterm offset disjunction atoms (id row)) rows
  rw [List.map_id] at rounds
  refine rounds.bind fun _ => ?_
  exact shifts_get_bind fun _ =>
    shifts_simplifyWithin offset _ .named disjunction

theorem shifts_dnf (atoms : List Key) (rows : UInt64) :
    Shifts offset (Key.shift offset) (dnf atoms rows)
      (dnf (atoms.map (Key.shift offset)) rows) := by
  refine (shifts_mapM (shifts_atomName offset) atoms).bind fun names => ?_
  refine (shifts_minterms offset atoms _).bind fun generated => ?_
  rw [List.map_id]
  exact shifts_insertFresh offset .compound none (.dnf names rows generated)

theorem shifts_dnfFormula (key : Key) :
    Shifts offset (Option.map (Key.shift offset)) (dnfFormula key)
      (dnfFormula (key.shift offset)) := by
  refine (shifts_stored offset key).bind fun node => ?_
  obtain ⟨name, owner, body⟩ := node
  cases body with
  | dnf atoms rows generated => exact shifts_pure _ generated
  | _ => exact shifts_throw _ _

/-! ## Descriptions of valuations -/

theorem shifts_literal
    {V : Type} [TruthValue V] (entry : String × V) :
    Shifts offset (Key.shift offset) (Valuation.literal entry)
      (Valuation.literal entry) := by
  refine (shifts_atom offset entry.1).bind fun atom => ?_
  split
  · exact shifts_pure _ atom
  · exact shifts_negation offset atom

theorem shifts_toFormula
    {V : Type} [TruthValue V] (valuation : Valuation V) :
    Shifts offset (Option.map (Key.shift offset)) valuation.toFormula
      valuation.toFormula := by
  have literals := shifts_mapM
    (fun entry => shifts_literal offset (id entry)) valuation.entries
  rw [List.map_id] at literals
  refine literals.bind fun literals => ?_
  rcases literals with _ | ⟨first, _ | ⟨second, rest⟩⟩
  · exact shifts_pure _ none
  · exact shifts_pure _ (some first)
  · exact (shifts_junction offset .conjunction
      (first :: second :: rest)).bind fun conjunction =>
        shifts_pure _ (some conjunction)

end Simplification

end Registry

end NamedLogic
