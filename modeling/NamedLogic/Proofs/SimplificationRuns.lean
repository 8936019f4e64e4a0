import NamedLogic.Simplification.Basic
import NamedLogic.Proofs.Update

/-!
# Successful runs of simplification, case by case

Each part of simplification is given by the ways in which it can succeed, and
every one of these ways is a success.  A later argument about simplification
goes through the cases and never opens the updates themselves.
-/

namespace NamedLogic

namespace Registry

section Parts

variable (simplify : Key → Update (Option Key))

/-- How the operands of a junction are simplified and collected. -/
inductive OperandsRun (connective : Connective) :
    Registry → List Name → List Key → Registry → Prop where
  | nil (registry : Registry) : OperandsRun connective registry [] [] registry
  | unbound
      {before after : Registry} {name : Name} {names : List Name}
      {result : List Key}
      (unbound : before.binding name = none)
      (rest : OperandsRun connective before names result after) :
      OperandsRun connective before (name :: names) result after
  | vanished
      {before middle after : Registry} {name : Name} {names : List Name}
      {operand : Key} {result : List Key}
      (bound : before.binding name = some operand)
      (run : before.Yields (simplify operand) none middle)
      (rest : OperandsRun connective middle names result after) :
      OperandsRun connective before (name :: names) result after
  | kept
      {before middle after : Registry} {name : Name} {names : List Name}
      {operand simplified : Key} {back : List Key}
      (bound : before.binding name = some operand)
      (run : before.Yields (simplify operand) (some simplified) middle)
      (rest : OperandsRun connective middle names back after) :
      OperandsRun connective before (name :: names)
        (middle.contribution connective simplified ++ back) after

/-- How the operands of a junction are negated and simplified. -/
inductive NegationsRun : Registry → List Name → List Key → Registry → Prop where
  | nil (registry : Registry) : NegationsRun registry [] [] registry
  | unbound
      {before after : Registry} {name : Name} {names : List Name}
      {result : List Key}
      (unbound : before.binding name = none)
      (rest : NegationsRun before names result after) :
      NegationsRun before (name :: names) result after
  | negated
      {before middle next after : Registry} {name : Name}
      {names : List Name} {operand negated : Key} {front : Option Key}
      {back : List Key}
      (bound : before.binding name = some operand)
      (negation : before.Yields (negation operand) negated middle)
      (run : middle.Yields (simplify negated) front next)
      (rest : NegationsRun next names back after) :
      NegationsRun before (name :: names) (front.toList ++ back) after

/-- How a junction is simplified. -/
inductive JunctionRun
    (placement : Placement) (key : Key) (connective : Connective) :
    Registry → List Name → Option Key → Registry → Prop where
  | decided
      {before after : Registry} {names : List Name} {operands : List Key}
      (collected :
        OperandsRun simplify connective before names operands after)
      (decided : Pairing.reduce? connective after.negates after.alike
        operands = none) :
      JunctionRun placement key connective before names none after
  | empty
      {before after : Registry} {names : List Name} {operands : List Key}
      (collected :
        OperandsRun simplify connective before names operands after)
      (reduced : Pairing.reduce? connective after.negates after.alike
        operands = some []) :
      JunctionRun placement key connective before names none after
  | single
      {before after : Registry} {names : List Name} {operands : List Key}
      {single : Key}
      (collected :
        OperandsRun simplify connective before names operands after)
      (reduced : Pairing.reduce? connective after.negates after.alike
        operands = some [single]) :
      JunctionRun placement key connective before names (some single) after
  | dropped
      {before after : Registry} {names : List Name}
      {operands remaining : List Key}
      (collected :
        OperandsRun simplify connective before names operands after)
      (reduced : Pairing.reduce? connective after.negates after.alike
        operands = some remaining)
      (several : 2 ≤ remaining.length)
      (missing : after.node? key = none) :
      JunctionRun placement key connective before names none after
  | rebuilt
      {before middle after : Registry} {names : List Name}
      {operands remaining : List Key} {node : Node} {rebuilt : Key}
      (collected :
        OperandsRun simplify connective before names operands middle)
      (reduced : Pairing.reduce? connective middle.negates middle.alike
        operands = some remaining)
      (several : 2 ≤ remaining.length)
      (stored : middle.node? key = some node)
      (run : middle.Yields (rebuild placement node connective remaining)
        rebuilt after) :
      JunctionRun placement key connective before names (some rebuilt)
        after

/-- How negated operands are joined under the dual connective. -/
inductive DualRun (connective : Connective) :
    Registry → List Key → Option Key → Registry → Prop where
  | empty (registry : Registry) :
      DualRun connective registry [] none registry
  | single (registry : Registry) (key : Key) :
      DualRun connective registry [key] (some key) registry
  | several
      {before after : Registry} {negated : List Key} {dual : Key}
      (several : 2 ≤ negated.length)
      (run : before.Yields (junction connective.dual negated) dual after) :
      DualRun connective before negated (some dual) after

/-- How a negation is simplified. -/
inductive NegationRun (key : Key) :
    Registry → Name → Option Key → Registry → Prop where
  | unresolved
      {registry : Registry} {operand : Name}
      (unresolved : registry.resolve operand = none) :
      NegationRun key registry operand none registry
  | atom
      {registry : Registry} {operand : Name} {operandKey : Key}
      {node : Node}
      (resolved : registry.resolve operand = some (operandKey, node))
      (isAtom : node.isAtom) :
      NegationRun key registry operand (some key) registry
  | vanished
      {before after : Registry} {operand : Name} {operandKey : Key}
      {node : Node}
      (resolved : before.resolve operand = some (operandKey, node))
      (compound : ¬ node.isAtom)
      (run : before.Yields (simplify operandKey) none after) :
      NegationRun key before operand none after
  | dropped
      {before after : Registry} {operand : Name} {operandKey : Key}
      {node : Node} {simplified : Key}
      (resolved : before.resolve operand = some (operandKey, node))
      (compound : ¬ node.isAtom)
      (run : before.Yields (simplify operandKey) (some simplified) after)
      (missing : after.node? simplified = none) :
      NegationRun key before operand none after
  | negation
      {before after : Registry} {operand inner : Name} {operandKey : Key}
      {node result : Node} {simplified : Key}
      (resolved : before.resolve operand = some (operandKey, node))
      (compound : ¬ node.isAtom)
      (run : before.Yields (simplify operandKey) (some simplified) after)
      (stored : after.node? simplified = some result)
      (body : result.body = .negation inner) :
      NegationRun key before operand (after.binding inner) after
  | junction
      {before middle next after : Registry} {operand : Name}
      {operandKey : Key} {node result : Node} {simplified : Key}
      {connective : Connective} {names : List Name} {negated : List Key}
      {joined : Option Key}
      (resolved : before.resolve operand = some (operandKey, node))
      (compound : ¬ node.isAtom)
      (run : before.Yields (simplify operandKey) (some simplified) middle)
      (stored : middle.node? simplified = some result)
      (body : result.body = .junction connective names)
      (negations : NegationsRun simplify middle names negated next)
      (dual : DualRun connective next negated joined after) :
      NegationRun key before operand joined after
  | other
      {before middle after : Registry} {operand : Name}
      {operandKey : Key} {node result : Node} {simplified negated : Key}
      (resolved : before.resolve operand = some (operandKey, node))
      (compound : ¬ node.isAtom)
      (run : before.Yields (simplify operandKey) (some simplified) middle)
      (stored : middle.node? simplified = some result)
      (noNegation : ∀ inner, result.body ≠ .negation inner)
      (noJunction : ∀ connective names,
        result.body ≠ .junction connective names)
      (negation : middle.Yields (Registry.negation simplified) negated
        after) :
      NegationRun key before operand (some negated) after

/-- How an implication is simplified. -/
inductive ImplicationRun :
    Registry → Option Name → Option Name → Option Key → Registry →
      Prop where
  | neither
      {registry : Registry} {antecedent consequent : Option Name}
      (noPremise : antecedent.bind registry.binding = none)
      (noConclusion : consequent.bind registry.binding = none) :
      ImplicationRun registry antecedent consequent none registry
  | conclusion
      {before after : Registry} {antecedent consequent : Option Name}
      {conclusion : Key} {result : Option Key}
      (noPremise : antecedent.bind before.binding = none)
      (bound : consequent.bind before.binding = some conclusion)
      (run : before.Yields (simplify conclusion) result after) :
      ImplicationRun before antecedent consequent result after
  | premise
      {before middle after : Registry}
      {antecedent consequent : Option Name} {premise negated : Key}
      {result : Option Key}
      (bound : antecedent.bind before.binding = some premise)
      (noConclusion : consequent.bind before.binding = none)
      (negation : before.Yields (Registry.negation premise) negated middle)
      (run : middle.Yields (simplify negated) result after) :
      ImplicationRun before antecedent consequent result after
  | oneSide
      {before second third after : Registry}
      {antecedent consequent : Option Name}
      {premise conclusion negated : Key} {left right : Option Key}
      (premiseBound : antecedent.bind before.binding = some premise)
      (conclusionBound :
        consequent.bind before.binding = some conclusion)
      (negation : before.Yields (Registry.negation premise) negated second)
      (leftRun : second.Yields (simplify negated) left third)
      (rightRun : third.Yields (simplify conclusion) right after)
      (oneSide : left = none ∨ right = none) :
      ImplicationRun before antecedent consequent (left.or right) after
  | bothSides
      {before second third fourth fifth after : Registry}
      {antecedent consequent : Option Name}
      {premise conclusion negated left right disjunction : Key}
      {result : Option Key}
      (premiseBound : antecedent.bind before.binding = some premise)
      (conclusionBound :
        consequent.bind before.binding = some conclusion)
      (negation : before.Yields (Registry.negation premise) negated second)
      (leftRun : second.Yields (simplify negated) (some left) third)
      (rightRun : third.Yields (simplify conclusion) (some right) fourth)
      (joined : fourth.Yields
        (Registry.junction .disjunction [left, right]) disjunction fifth)
      (run : fifth.Yields (simplify disjunction) result after) :
      ImplicationRun before antecedent consequent result after

/-- How a formula is simplified when its operands are by `simplify`. -/
inductive FormulaRun (placement : Placement) :
    Registry → Key → Option Key → Registry → Prop where
  | missing
      {registry : Registry} {key : Key}
      (missing : registry.node? key = none) :
      FormulaRun placement registry key none registry
  | atom
      {registry : Registry} {key : Key} {node : Node}
      (stored : registry.node? key = some node)
      (body : node.body = .atom) :
      FormulaRun placement registry key (some key) registry
  | negation
      {before after : Registry} {key : Key} {node : Node}
      {operand : Name} {result : Option Key}
      (stored : before.node? key = some node)
      (body : node.body = .negation operand)
      (run : NegationRun simplify key before operand result after) :
      FormulaRun placement before key result after
  | junction
      {before after : Registry} {key : Key} {node : Node}
      {connective : Connective} {names : List Name} {result : Option Key}
      (stored : before.node? key = some node)
      (body : node.body = .junction connective names)
      (run : JunctionRun simplify placement key connective before names
        result after) :
      FormulaRun placement before key result after
  | implication
      {before after : Registry} {key : Key} {node : Node}
      {antecedent consequent : Option Name} {result : Option Key}
      (stored : before.node? key = some node)
      (body : node.body = .implication antecedent consequent)
      (run : ImplicationRun simplify before antecedent consequent result
        after) :
      FormulaRun placement before key result after
  | dnf
      {registry : Registry} {key : Key} {node : Node} {atoms : List Name}
      {rows : UInt64} {generated : Option Key}
      (stored : registry.node? key = some node)
      (body : node.body = .dnf atoms rows generated) :
      FormulaRun placement registry key generated registry

end Parts

/-! ## Every successful run is one of the cases -/

section Cases

variable {simplify : Key → Update (Option Key)} {before after : Registry}

theorem operandsRun_of_yields
    {connective : Connective} {names : List Name} {result : List Key}
    (run : before.Yields (simplifyOperands simplify connective names)
      result after) :
    OperandsRun simplify connective before names result after := by
  induction names generalizing before result with
  | nil =>
      obtain ⟨rfl, rfl⟩ := yields_pure_iff.mp run
      exact .nil before
  | cons name names inductionHypothesis =>
      rw [simplifyOperands] at run
      have run := yields_get_bind_iff.mp run
      cases bound : before.binding name with
      | none =>
          rw [bound] at run
          exact .unbound bound (inductionHypothesis run)
      | some operand =>
          rw [bound] at run
          obtain ⟨simplified, middle, first, run⟩ :=
            yields_bind_iff.mp run
          cases simplified with
          | none => exact .vanished bound first (inductionHypothesis run)
          | some simplified =>
              have run := yields_get_bind_iff.mp run
              obtain ⟨back, last, rest, collected⟩ :=
                yields_bind_iff.mp run
              obtain ⟨rfl, rfl⟩ := yields_pure_iff.mp collected
              exact .kept bound first (inductionHypothesis rest)

theorem negationsRun_of_yields
    {names : List Name} {result : List Key}
    (run : before.Yields (simplifyNegations simplify names) result after) :
    NegationsRun simplify before names result after := by
  induction names generalizing before result with
  | nil =>
      obtain ⟨rfl, rfl⟩ := yields_pure_iff.mp run
      exact .nil before
  | cons name names inductionHypothesis =>
      rw [simplifyNegations] at run
      have run := yields_get_bind_iff.mp run
      cases bound : before.binding name with
      | none =>
          rw [bound] at run
          exact .unbound bound (inductionHypothesis run)
      | some operand =>
          rw [bound] at run
          obtain ⟨negated, middle, negation, run⟩ :=
            yields_bind_iff.mp run
          obtain ⟨front, next, first, run⟩ := yields_bind_iff.mp run
          obtain ⟨back, last, rest, collected⟩ := yields_bind_iff.mp run
          obtain ⟨rfl, rfl⟩ := yields_pure_iff.mp collected
          exact .negated bound negation first (inductionHypothesis rest)

theorem junctionRun_of_yields
    {placement : Placement} {key : Key} {connective : Connective}
    {names : List Name} {result : Option Key}
    (run : before.Yields
      (simplifyJunction simplify placement key connective names)
      result after) :
    JunctionRun simplify placement key connective before names result
      after := by
  rw [simplifyJunction] at run
  obtain ⟨operands, middle, collecting, run⟩ := yields_bind_iff.mp run
  have collected := operandsRun_of_yields collecting
  have run := yields_get_bind_iff.mp run
  cases reduced : Pairing.reduce? connective middle.negates middle.alike
      operands with
  | none =>
      rw [reduced] at run
      obtain ⟨rfl, rfl⟩ := yields_pure_iff.mp run
      exact .decided collected reduced
  | some remaining =>
      rw [reduced] at run
      match remaining with
      | [] =>
          obtain ⟨rfl, rfl⟩ := yields_pure_iff.mp run
          exact .empty collected reduced
      | [single] =>
          obtain ⟨rfl, rfl⟩ := yields_pure_iff.mp run
          exact .single collected reduced
      | first :: second :: rest =>
          cases stored : middle.node? key with
          | none =>
              simp only [stored] at run
              obtain ⟨rfl, rfl⟩ := yields_pure_iff.mp run
              exact .dropped collected reduced (by simp) stored
          | some node =>
              simp only [stored] at run
              obtain ⟨rebuilt, last, rebuilding, run⟩ :=
                yields_bind_iff.mp run
              obtain ⟨rfl, rfl⟩ := yields_pure_iff.mp run
              exact .rebuilt collected reduced (by simp) stored rebuilding

theorem dualRun_of_yields
    {connective : Connective} {negated : List Key} {result : Option Key}
    (run : before.Yields
      (match negated with
      | [] => pure none
      | [single] => pure (some single)
      | negated => do
          let dual ← junction connective.dual negated
          pure (some dual))
      result after) :
    DualRun connective before negated result after := by
  match negated with
  | [] =>
      obtain ⟨rfl, rfl⟩ := yields_pure_iff.mp run
      exact .empty before
  | [single] =>
      obtain ⟨rfl, rfl⟩ := yields_pure_iff.mp run
      exact .single before single
  | first :: second :: rest =>
      obtain ⟨dual, last, joining, run⟩ := yields_bind_iff.mp run
      obtain ⟨rfl, rfl⟩ := yields_pure_iff.mp run
      exact .several (by simp) joining

theorem negationRun_of_yields
    {key : Key} {operand : Name} {result : Option Key}
    (run : before.Yields (simplifyNegation simplify key operand)
      result after) :
    NegationRun simplify key before operand result after := by
  rw [simplifyNegation] at run
  have run := yields_get_bind_iff.mp run
  cases resolved : before.resolve operand with
  | none =>
      rw [resolved] at run
      obtain ⟨rfl, rfl⟩ := yields_pure_iff.mp run
      exact .unresolved resolved
  | some found =>
      obtain ⟨operandKey, node⟩ := found
      rw [resolved] at run
      by_cases isAtom : node.isAtom
      · simp only [isAtom, if_true] at run
        obtain ⟨rfl, rfl⟩ := yields_pure_iff.mp run
        exact .atom resolved isAtom
      · simp only [isAtom] at run
        obtain ⟨simplified, middle, first, run⟩ := yields_bind_iff.mp run
        cases simplified with
        | none =>
            obtain ⟨rfl, rfl⟩ := yields_pure_iff.mp run
            exact .vanished resolved isAtom first
        | some simplified =>
            have run := yields_get_bind_iff.mp run
            cases stored : middle.node? simplified with
            | none =>
                rw [stored] at run
                obtain ⟨rfl, rfl⟩ := yields_pure_iff.mp run
                exact .dropped resolved isAtom first stored
            | some simple =>
                rw [stored, Option.map_some] at run
                cases body : simple.body with
                | negation inner =>
                    rw [body] at run
                    obtain ⟨rfl, rfl⟩ := yields_pure_iff.mp run
                    exact .negation resolved isAtom first stored body
                | junction connective names =>
                    rw [body] at run
                    obtain ⟨negated, next, negating, run⟩ :=
                      yields_bind_iff.mp run
                    exact .junction resolved isAtom first stored body
                      (negationsRun_of_yields negating)
                      (dualRun_of_yields run)
                | atom | implication antecedent consequent
                | dnf atoms rows generated =>
                    rw [body] at run
                    obtain ⟨negated, last, negation, run⟩ :=
                      yields_bind_iff.mp run
                    obtain ⟨rfl, rfl⟩ := yields_pure_iff.mp run
                    exact .other resolved isAtom first stored
                      (by simp [body]) (by simp [body]) negation

theorem implicationRun_of_yields
    {antecedent consequent : Option Name} {result : Option Key}
    (run : before.Yields
      (simplifyImplication simplify antecedent consequent) result after) :
    ImplicationRun simplify before antecedent consequent result after := by
  rw [simplifyImplication] at run
  have run := yields_get_bind_iff.mp run
  cases premiseBound : antecedent.bind before.binding with
  | none =>
      cases conclusionBound : consequent.bind before.binding with
      | none =>
          rw [premiseBound, conclusionBound] at run
          obtain ⟨rfl, rfl⟩ := yields_pure_iff.mp run
          exact .neither premiseBound conclusionBound
      | some conclusion =>
          rw [premiseBound, conclusionBound] at run
          exact .conclusion premiseBound conclusionBound run
  | some premise =>
      cases conclusionBound : consequent.bind before.binding with
      | none =>
          rw [premiseBound, conclusionBound] at run
          obtain ⟨negated, middle, negation, run⟩ := yields_bind_iff.mp run
          exact .premise premiseBound conclusionBound negation run
      | some conclusion =>
          rw [premiseBound, conclusionBound] at run
          obtain ⟨negated, second, negation, run⟩ := yields_bind_iff.mp run
          obtain ⟨left, third, leftRun, run⟩ := yields_bind_iff.mp run
          obtain ⟨right, fourth, rightRun, run⟩ := yields_bind_iff.mp run
          match left, right with
          | some left, some right =>
              obtain ⟨disjunction, fifth, joined, run⟩ :=
                yields_bind_iff.mp run
              exact .bothSides premiseBound conclusionBound negation leftRun
                rightRun joined run
          | some left, none =>
              obtain ⟨rfl, rfl⟩ := yields_pure_iff.mp run
              exact .oneSide premiseBound conclusionBound negation leftRun
                rightRun (Or.inr rfl)
          | none, none =>
              obtain ⟨rfl, rfl⟩ := yields_pure_iff.mp run
              exact .oneSide premiseBound conclusionBound negation leftRun
                rightRun (Or.inl rfl)
          | none, some right =>
              obtain ⟨rfl, rfl⟩ := yields_pure_iff.mp run
              exact .oneSide premiseBound conclusionBound negation leftRun
                rightRun (Or.inl rfl)

end Cases

/-- A successful simplification is a run of one of the cases, in which
operands are simplified with one level less. -/
theorem formulaRun_of_yields
    {levels : Nat} {placement : Placement} {before after : Registry}
    {key : Key} {result : Option Key}
    (run : before.Yields (simplifyWithin (levels + 1) placement key) result
      after) :
    FormulaRun (simplifyWithin levels .named) placement before key result
      after := by
  rw [simplifyWithin] at run
  have run := yields_get_bind_iff.mp run
  cases stored : before.node? key with
  | none =>
      rw [stored] at run
      obtain ⟨rfl, rfl⟩ := yields_pure_iff.mp run
      exact .missing stored
  | some node =>
      rw [stored, Option.map_some] at run
      cases body : node.body with
      | atom =>
          rw [body] at run
          obtain ⟨rfl, rfl⟩ := yields_pure_iff.mp run
          exact .atom stored body
      | negation operand =>
          rw [body] at run
          exact .negation stored body (negationRun_of_yields run)
      | junction connective names =>
          rw [body] at run
          exact .junction stored body (junctionRun_of_yields run)
      | implication antecedent consequent =>
          rw [body] at run
          exact .implication stored body (implicationRun_of_yields run)
      | dnf atoms rows generated =>
          rw [body] at run
          obtain ⟨rfl, rfl⟩ := yields_pure_iff.mp run
          exact .dnf stored body

/-- The simplification of a stored junction is a run for junctions. -/
theorem FormulaRun.of_junction
    {simplify : Key → Update (Option Key)} {placement : Placement}
    {before after : Registry} {key : Key} {node : Node}
    {connective : Connective} {names : List Name} {result : Option Key}
    (run : FormulaRun simplify placement before key result after)
    (stored : before.node? key = some node)
    (body : node.body = .junction connective names) :
    JunctionRun simplify placement key connective before names result
      after := by
  cases run with
  | junction storedAgain bodyAgain run =>
      rw [stored] at storedAgain
      obtain rfl := Option.some.inj storedAgain
      rw [body] at bodyAgain
      obtain ⟨rfl, rfl⟩ := Body.junction.inj bodyAgain
      exact run
  | missing missing =>
      rw [stored] at missing
      cases missing
  | atom storedAgain bodyAgain | negation storedAgain bodyAgain
  | implication storedAgain bodyAgain | dnf storedAgain bodyAgain =>
      rw [stored] at storedAgain
      obtain rfl := Option.some.inj storedAgain
      rw [body] at bodyAgain
      cases bodyAgain

/-! ## Every case is a successful run -/

section Converse

variable {simplify : Key → Update (Option Key)} {before after : Registry}

theorem OperandsRun.yields
    {connective : Connective} {names : List Name} {result : List Key}
    (run : OperandsRun simplify connective before names result after) :
    before.Yields (simplifyOperands simplify connective names) result
      after := by
  induction run with
  | nil => exact yields_pure_iff.mpr ⟨rfl, rfl⟩
  | unbound unbound _ inductionHypothesis =>
      rw [simplifyOperands, yields_get_bind_iff, unbound]
      exact inductionHypothesis
  | vanished bound run _ inductionHypothesis =>
      rw [simplifyOperands, yields_get_bind_iff, bound]
      exact run.bind inductionHypothesis
  | kept bound run _ inductionHypothesis =>
      rw [simplifyOperands, yields_get_bind_iff, bound]
      refine run.bind (yields_get_bind_iff.mpr ?_)
      exact inductionHypothesis.bind (yields_pure_iff.mpr ⟨rfl, rfl⟩)

theorem NegationsRun.yields
    {names : List Name} {result : List Key}
    (run : NegationsRun simplify before names result after) :
    before.Yields (simplifyNegations simplify names) result after := by
  induction run with
  | nil => exact yields_pure_iff.mpr ⟨rfl, rfl⟩
  | unbound unbound _ inductionHypothesis =>
      rw [simplifyNegations, yields_get_bind_iff, unbound]
      exact inductionHypothesis
  | negated bound negation run _ inductionHypothesis =>
      rw [simplifyNegations, yields_get_bind_iff, bound]
      refine negation.bind (run.bind ?_)
      exact inductionHypothesis.bind (yields_pure_iff.mpr ⟨rfl, rfl⟩)

theorem JunctionRun.yields
    {placement : Placement} {key : Key} {connective : Connective}
    {names : List Name} {result : Option Key}
    (run : JunctionRun simplify placement key connective before names result
      after) :
    before.Yields (simplifyJunction simplify placement key connective names)
      result after := by
  rw [simplifyJunction]
  cases run with
  | decided collected decided =>
      refine collected.yields.bind (yields_get_bind_iff.mpr ?_)
      rw [decided]
      exact yields_pure_iff.mpr ⟨rfl, rfl⟩
  | empty collected reduced | single collected reduced =>
      refine collected.yields.bind (yields_get_bind_iff.mpr ?_)
      rw [reduced]
      exact yields_pure_iff.mpr ⟨rfl, rfl⟩
  | dropped collected reduced several missing =>
      rename_i operands remaining
      refine collected.yields.bind (yields_get_bind_iff.mpr ?_)
      rw [reduced]
      match remaining, several with
      | _ :: _ :: _, _ =>
          simp only [missing]
          exact yields_pure_iff.mpr ⟨rfl, rfl⟩
  | rebuilt collected reduced several stored run =>
      rename_i middle operands remaining node rebuilt
      refine collected.yields.bind (yields_get_bind_iff.mpr ?_)
      rw [reduced]
      match remaining, several with
      | _ :: _ :: _, _ =>
          simp only [stored]
          exact run.bind (yields_pure_iff.mpr ⟨rfl, rfl⟩)

theorem DualRun.yields
    {connective : Connective} {negated : List Key} {result : Option Key}
    (run : DualRun connective before negated result after) :
    before.Yields
      (match negated with
      | [] => pure none
      | [only] => pure (some only)
      | negated => do
          let dual ← Registry.junction connective.dual negated
          pure (some dual))
      result after := by
  cases run with
  | empty | single => exact yields_pure_iff.mpr ⟨rfl, rfl⟩
  | several several run =>
      match negated, several with
      | _ :: _ :: _, _ => exact run.bind (yields_pure_iff.mpr ⟨rfl, rfl⟩)

theorem NegationRun.yields
    {key : Key} {operand : Name} {result : Option Key}
    (run : NegationRun simplify key before operand result after) :
    before.Yields (simplifyNegation simplify key operand) result after := by
  rw [simplifyNegation, yields_get_bind_iff]
  cases run with
  | unresolved unresolved =>
      rw [unresolved]
      exact yields_pure_iff.mpr ⟨rfl, rfl⟩
  | atom resolved isAtom =>
      rw [resolved]
      simp only [isAtom, if_true]
      exact yields_pure_iff.mpr ⟨rfl, rfl⟩
  | vanished resolved compound run =>
      rw [resolved]
      simp only [compound]
      exact run.bind (yields_pure_iff.mpr ⟨rfl, rfl⟩)
  | dropped resolved compound run missing =>
      rw [resolved]
      simp only [compound]
      refine run.bind (yields_get_bind_iff.mpr ?_)
      rw [missing]
      exact yields_pure_iff.mpr ⟨rfl, rfl⟩
  | negation resolved compound run stored body =>
      rw [resolved]
      simp only [compound]
      refine run.bind (yields_get_bind_iff.mpr ?_)
      rw [stored, Option.map_some, body]
      exact yields_pure_iff.mpr ⟨rfl, rfl⟩
  | junction resolved compound run stored body negations dual =>
      rw [resolved]
      simp only [compound]
      refine run.bind (yields_get_bind_iff.mpr ?_)
      rw [stored, Option.map_some, body]
      exact negations.yields.bind dual.yields
  | other resolved compound run stored noNegation noJunction negation =>
      rename_i middle operandKey node result simplified negated
      rw [resolved]
      simp only [compound]
      refine run.bind (yields_get_bind_iff.mpr ?_)
      rw [stored, Option.map_some]
      have made : after.Yields (pure (some negated)) (some negated) after :=
        yields_pure_iff.mpr ⟨rfl, rfl⟩
      cases body : result.body with
      | negation inner => exact (noNegation inner body).elim
      | junction connective names =>
          exact (noJunction connective names body).elim
      | atom | implication | dnf => exact negation.bind made

theorem ImplicationRun.yields
    {antecedent consequent : Option Name} {result : Option Key}
    (run : ImplicationRun simplify before antecedent consequent result
      after) :
    before.Yields (simplifyImplication simplify antecedent consequent) result
      after := by
  rw [simplifyImplication, yields_get_bind_iff]
  cases run with
  | neither noPremise noConclusion =>
      rw [noPremise, noConclusion]
      exact yields_pure_iff.mpr ⟨rfl, rfl⟩
  | conclusion noPremise bound run =>
      rw [noPremise, bound]
      exact run
  | premise bound noConclusion negation run =>
      rw [bound, noConclusion]
      exact negation.bind run
  | oneSide premiseBound conclusionBound negation leftRun rightRun oneSide =>
      rw [premiseBound, conclusionBound]
      refine negation.bind (leftRun.bind (rightRun.bind ?_))
      rename_i left right
      cases left with
      | none => cases right <;> exact yields_pure_iff.mpr ⟨rfl, rfl⟩
      | some left =>
          obtain rfl := oneSide.resolve_left (Option.some_ne_none left)
          exact yields_pure_iff.mpr ⟨rfl, rfl⟩
  | bothSides premiseBound conclusionBound negation leftRun rightRun joined
      run =>
      rw [premiseBound, conclusionBound]
      exact negation.bind
        (leftRun.bind (rightRun.bind (joined.bind run)))

/-- A run of one of the cases is a successful simplification with one level
more. -/
theorem FormulaRun.yields
    {levels : Nat} {placement : Placement} {key : Key} {result : Option Key}
    (run : FormulaRun (simplifyWithin levels .named) placement before key
      result after) :
    before.Yields (simplifyWithin (levels + 1) placement key) result
      after := by
  rw [simplifyWithin, yields_get_bind_iff]
  cases run with
  | missing missing =>
      rw [missing]
      exact yields_pure_iff.mpr ⟨rfl, rfl⟩
  | atom stored body | dnf stored body =>
      rw [stored, Option.map_some, body]
      exact yields_pure_iff.mpr ⟨rfl, rfl⟩
  | negation stored body run =>
      rw [stored, Option.map_some, body]
      exact run.yields
  | junction stored body run =>
      rw [stored, Option.map_some, body]
      exact run.yields
  | implication stored body run =>
      rw [stored, Option.map_some, body]
      exact run.yields

end Converse

/-- Without a level left, simplification is refused. -/
theorem not_yields_simplifyWithin_zero
    {placement : Placement} {before after : Registry} {key : Key}
    {result : Option Key} :
    ¬ before.Yields (simplifyWithin 0 placement key) result after :=
  yields_throw_iff.mp

end Registry

end NamedLogic
