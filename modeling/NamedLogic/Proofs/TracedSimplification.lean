import NamedLogic.Proofs.DnfGrowth
import NamedLogic.Proofs.TracedUpdates
import NamedLogic.StateFormula

/-!
# Traces of simplification

Simplification generates a name for every node that it binds, and so do the making
of disjunctive normal forms and the description of valuations.  All of them have
traces in every registry.
-/

namespace NamedLogic

namespace Registry

/-! ## Simplification -/

theorem traced_rebuild
    (placement : Placement) (node : Node) (connective : Connective)
    (operands : List Key) :
    Traced (rebuild placement node connective operands) := by
  refine traced_get_bind fun registry => ?_
  cases placement with
  | detached => exact traced_of_quiet fun _ => quiet_of_same rfl rfl rfl rfl rfl
  | named => exact traced_insertFresh .compound node.owner _

section Parts

variable {simplify : Key → Update (Option Key)}
  (simplifyTraced : ∀ key, Traced (simplify key))

include simplifyTraced

theorem traced_simplifyOperands
    (connective : Connective) (names : List Name) :
    Traced (simplifyOperands simplify connective names) := by
  induction names with
  | nil => exact traced_pure []
  | cons name names inductionHypothesis =>
      refine traced_get_bind fun registry => ?_
      split
      · exact inductionHypothesis
      · refine (simplifyTraced _).bind fun simplified => ?_
        split
        · exact inductionHypothesis
        · refine traced_get_bind fun registry => ?_
          exact inductionHypothesis.bind fun back => traced_pure _

theorem traced_simplifyNegations (names : List Name) :
    Traced (simplifyNegations simplify names) := by
  induction names with
  | nil => exact traced_pure []
  | cons name names inductionHypothesis =>
      refine traced_get_bind fun registry => ?_
      split
      · exact inductionHypothesis
      · refine (traced_negation _).bind fun negated => ?_
        refine (simplifyTraced negated).bind fun front => ?_
        exact inductionHypothesis.bind fun back => traced_pure _

theorem traced_simplifyJunction
    (placement : Placement) (key : Key) (connective : Connective)
    (names : List Name) :
    Traced (simplifyJunction simplify placement key connective names) := by
  refine (traced_simplifyOperands simplifyTraced connective names).bind
    fun operands => traced_get_bind fun registry => ?_
  split
  · exact traced_pure none
  · exact traced_pure none
  · exact traced_pure _
  · split
    · exact traced_pure none
    · exact (traced_rebuild placement _ connective _).bind fun rebuilt =>
        traced_pure (some rebuilt)

theorem traced_simplifyNegation (key : Key) (operand : Name) :
    Traced (simplifyNegation simplify key operand) := by
  refine traced_get_bind fun registry => ?_
  split
  · exact traced_pure none
  · split
    · exact traced_pure (some key)
    · refine (simplifyTraced _).bind fun simplified => ?_
      split
      · exact traced_pure none
      · refine traced_get_bind fun registry => ?_
        split
        · exact traced_pure none
        · exact traced_pure _
        · refine (traced_simplifyNegations simplifyTraced _).bind
            fun negated => ?_
          split
          · exact traced_pure none
          · exact traced_pure _
          · exact (traced_junction _ _).bind fun dual =>
              traced_pure (some dual)
        · exact (traced_negation _).bind fun negated =>
            traced_pure (some negated)

theorem traced_simplifyImplication (antecedent consequent : Option Name) :
    Traced (simplifyImplication simplify antecedent consequent) := by
  refine traced_get_bind fun registry => ?_
  split
  · exact traced_pure none
  · exact simplifyTraced _
  · exact (traced_negation _).bind simplifyTraced
  · refine (traced_negation _).bind fun negated => ?_
    refine (simplifyTraced negated).bind fun left => ?_
    refine (simplifyTraced _).bind fun right => ?_
    split
    · exact (traced_junction .disjunction _).bind simplifyTraced
    · exact traced_pure _
    · exact traced_pure _

end Parts

/-- The induction is on the number of levels. -/
theorem traced_simplifyWithin
    (levels : Nat) (placement : Placement) (key : Key) :
    Traced (simplifyWithin levels placement key) := by
  induction levels generalizing placement key with
  | zero => exact traced_throw _
  | succ levels inductionHypothesis =>
      have operands := inductionHypothesis .named
      refine traced_get_bind fun registry => ?_
      split
      · exact traced_pure none
      · exact traced_pure (some key)
      · exact traced_simplifyNegation operands key _
      · exact traced_simplifyJunction operands placement key _ _
      · exact traced_simplifyImplication operands _ _
      · exact traced_pure _

theorem traced_simplify (key : Key) : Traced (simplify key) :=
  traced_get_bind fun _ => traced_simplifyWithin _ .detached key

/-! ## Disjunctive normal forms -/

theorem traced_atomName (key : Key) : Traced (atomName key) := by
  refine (traced_of_quiet (quiet_stored · key)).bind fun node => ?_
  split
  · exact traced_pure node.name
  · exact traced_throw _

theorem traced_rowLiterals (row : Nat) (atoms : List (Key × Nat)) :
    Traced (rowLiterals row atoms) := by
  induction atoms with
  | nil => exact traced_pure []
  | cons placed atoms inductionHypothesis =>
      obtain ⟨atom, position⟩ := placed
      have literal : Traced
          (if row.testBit position then pure atom else negation atom) := by
        split
        · exact traced_pure atom
        · exact traced_negation atom
      rw [rowLiterals_cons]
      exact literal.bind fun first => inductionHypothesis.bind fun rest =>
        traced_pure (first :: rest)

theorem traced_addMinterm (disjunction : Key) (atoms : List Key) (row : Nat) :
    Traced (addMinterm disjunction atoms row) := by
  refine (traced_rowLiterals row atoms.zipIdx).bind fun literals => ?_
  refine (traced_junction .conjunction literals).bind fun minterm => ?_
  exact (traced_addOperand disjunction minterm).bind fun _ =>
    traced_pure PUnit.unit

theorem traced_minterms (atoms : List Key) (rows : List Nat) :
    Traced (minterms atoms rows) := by
  rw [minterms_eq]
  refine (traced_junction .disjunction []).bind fun disjunction => ?_
  refine (traced_forM (traced_addMinterm disjunction atoms) rows).bind
    fun _ => ?_
  exact traced_get_bind fun _ => traced_simplifyWithin _ .named disjunction

theorem traced_dnf (atoms : List Key) (rows : UInt64) :
    Traced (dnf atoms rows) := by
  refine (traced_mapM traced_atomName atoms).bind fun names => ?_
  refine (traced_minterms atoms _).bind fun generated => ?_
  exact traced_insertFresh .compound none (.dnf names rows generated)

/-! ## Descriptions of valuations -/

section Valuations

variable {V : Type} [TruthValue V]

theorem traced_literal (entry : String × V) :
    Traced (Valuation.literal entry) := by
  refine (traced_of_quiet (quiet_atom · entry.1)).bind fun atom => ?_
  split
  · exact traced_pure atom
  · exact traced_negation atom

theorem traced_toFormula (valuation : Valuation V) :
    Traced valuation.toFormula := by
  refine (traced_mapM traced_literal valuation.entries).bind
    fun literals => ?_
  split
  · exact traced_pure none
  · exact traced_pure _
  · exact (traced_junction .conjunction _).bind fun conjunction =>
      traced_pure (some conjunction)

end Valuations

end Registry

end NamedLogic
