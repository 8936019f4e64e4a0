import NamedLogic.Proofs.NormalForms
import NamedLogic.Proofs.ReferenceCycles
import NamedLogic.Proofs.Upkeep

/-!
# Simplification does not end on a cycle

Simplification that is not refused has simplified whatever the names in its way
are bound to.  No operand is passed over, neither since another one decides the
junction nor since a negation is undone, for operands are simplified before they
are compared.  So the chains of names from a formula that was simplified are no
longer than the levels there were, while a cycle makes chains of any length.
-/

namespace NamedLogic

theorem Node.lookups_eq_references
    {node : Node}
    (plain : ∀ atoms rows generated, node.body ≠ .dnf atoms rows generated) :
    node.lookups = node.references := by
  cases body : node.body with
  | dnf atoms rows generated => exact (plain _ _ _ body).elim
  | _ => simp [lookups, references, body]

namespace Registry

/-! ## What was simplified on the way -/

section Runs

variable {simplify : Key → Update (Option Key)}

/-- The formula under the key was simplified in the same or a larger registry. -/
def Passed
    (before : Registry) (simplify : Key → Update (Option Key)) (key : Key) :
    Prop :=
  ∃ middle result after, middle.WellFormed ∧ before.Extends middle ∧
    middle.Yields (simplify key) result after

theorem Passed.of_extends
    {before middle : Registry} {key : Key} (passed : middle.Passed simplify key)
    (extension : before.Extends middle) : before.Passed simplify key := by
  obtain ⟨last, result, after, wellFormed, later, run⟩ := passed
  exact ⟨last, result, after, wellFormed, extension.trans later, run⟩

theorem Yields.passed
    {before after : Registry} {key : Key} {result : Option Key}
    (run : before.Yields (simplify key) result after)
    (wellFormed : before.WellFormed) : before.Passed simplify key :=
  ⟨before, result, after, wellFormed, Extends.refl before, run⟩

/-- What the operand of a negation stands for is simplified, unless it is an
atom. -/
theorem NegationRun.passed
    {before after : Registry} {key operandKey : Key} {operand : Name}
    {node : Node} {result : Option Key}
    (run : NegationRun simplify key before operand result after)
    (wellFormed : before.WellFormed)
    (resolved : before.resolve operand = some (operandKey, node)) :
    node.isAtom ∨ before.Passed simplify operandKey := by
  cases run with
  | unresolved unresolved =>
      rw [resolved] at unresolved
      cases unresolved
  | atom again isAtom =>
      rw [resolved] at again
      obtain ⟨rfl, rfl⟩ := Prod.mk.inj (Option.some.inj again)
      exact Or.inl isAtom
  | vanished again _ run | dropped again _ run | negation again _ run
  | junction again _ run | other again _ run =>
      rw [resolved] at again
      obtain ⟨rfl, rfl⟩ := Prod.mk.inj (Option.some.inj again)
      exact Or.inr (run.passed wellFormed)

theorem JunctionRun.exists_operandsRun
    {placement : Placement} {before after : Registry} {key : Key}
    {connective : Connective} {names : List Name} {result : Option Key}
    (run : JunctionRun simplify placement key connective before names result
      after) :
    ∃ operands middle,
      OperandsRun simplify connective before names operands middle := by
  cases run with
  | decided collected | empty collected | single collected
  | dropped collected | rebuilt collected => exact ⟨_, _, collected⟩

/-- The negation made of the antecedent of an implication is simplified. -/
theorem ImplicationRun.passed_premise
    {before after : Registry} {antecedent consequent : Option Name}
    {result : Option Key}
    (run : ImplicationRun simplify before antecedent consequent result after)
    (wellFormed : before.WellFormed) {premise : Key}
    (bound : antecedent.bind before.binding = some premise) :
    ∃ negated middle,
      before.Yields (Registry.negation premise) negated middle ∧
        middle.Passed simplify negated := by
  cases run with
  | neither missing _ | conclusion missing _ =>
      rw [bound] at missing
      cases missing
  | premise again _ negation leftRun | oneSide again _ negation leftRun
  | bothSides again _ negation leftRun =>
      rw [bound] at again
      obtain rfl := Option.some.inj again
      have ⟨middleWellFormed, _⟩ :=
        negation.related (grows_negation _ _) wellFormed
      exact ⟨_, _, negation, leftRun.passed middleWellFormed⟩

variable (simplifyGrows : ∀ key registry,
  Grows registry (registry.after (simplify key)))

include simplifyGrows

/-- Every bound operand of a junction is simplified. -/
theorem OperandsRun.passed
    {connective : Connective} {before after : Registry}
    {names : List Name} {result : List Key}
    (run : OperandsRun simplify connective before names result after)
    (wellFormed : before.WellFormed) {name : Name} (member : name ∈ names)
    {operand : Key} (bound : before.binding name = some operand) :
    before.Passed simplify operand := by
  induction run with
  | nil => cases member
  | unbound unbound _ inductionHypothesis =>
      rcases List.mem_cons.mp member with rfl | later
      · rw [bound] at unbound
        cases unbound
      · exact inductionHypothesis wellFormed later bound
  | vanished boundFirst run _ inductionHypothesis
  | kept boundFirst run _ inductionHypothesis =>
      obtain ⟨middleWellFormed, extension⟩ :=
        run.related (simplifyGrows _ _) wellFormed
      rcases List.mem_cons.mp member with rfl | later
      · rw [bound] at boundFirst
        obtain rfl := Option.some.inj boundFirst
        exact run.passed wellFormed
      · exact (inductionHypothesis middleWellFormed later
          (extension.bindings bound)).of_extends extension

/-- So is the consequent of an implication. -/
theorem ImplicationRun.passed_conclusion
    {before after : Registry} {antecedent consequent : Option Name}
    {result : Option Key}
    (run : ImplicationRun simplify before antecedent consequent result after)
    (wellFormed : before.WellFormed) {conclusion : Key}
    (bound : consequent.bind before.binding = some conclusion) :
    before.Passed simplify conclusion := by
  cases run with
  | neither _ missing | premise _ missing =>
      rw [bound] at missing
      cases missing
  | conclusion _ again run =>
      rw [bound] at again
      obtain rfl := Option.some.inj again
      exact run.passed wellFormed
  | oneSide _ again negation leftRun rightRun
  | bothSides _ again negation leftRun rightRun =>
      rw [bound] at again
      obtain rfl := Option.some.inj again
      have ⟨middleWellFormed, extension⟩ :=
        negation.related (grows_negation _ _) wellFormed
      have ⟨lastWellFormed, further⟩ :=
        leftRun.related (simplifyGrows _ _) middleWellFormed
      exact (rightRun.passed lastWellFormed).of_extends
        (extension.trans further)

/-- Whatever a simplified formula looks up is simplified or negated and then
simplified, unless it is an atom, whose negation is simple. -/
theorem FormulaRun.passed
    {placement : Placement} {before after : Registry} {key : Key}
    {node : Node} {result : Option Key}
    (run : FormulaRun simplify placement before key result after)
    (wellFormed : before.WellFormed)
    (stored : before.node? key = some node)
    {name : Name} (named : name ∈ node.lookups)
    {operand : Key} {next : Node}
    (resolved : before.resolve name = some (operand, next)) :
    next.isAtom ∨ before.Passed simplify operand ∨
      ∃ negated middle,
        before.Yields (Registry.negation operand) negated middle ∧
          middle.Passed simplify negated := by
  obtain ⟨bound, _⟩ := resolve_eq_some_iff.mp resolved
  cases run with
  | missing missing =>
      rw [stored] at missing
      cases missing
  | atom again body | dnf again body =>
      rw [stored] at again
      obtain rfl := Option.some.inj again
      simp [Node.lookups, body, Body.references] at named
  | negation again body run =>
      rw [stored] at again
      obtain rfl := Option.some.inj again
      obtain rfl : name = _ := by
        simpa [Node.lookups, body, Body.references] using named
      exact (run.passed wellFormed resolved).imp_right Or.inl
  | junction again body run =>
      rw [stored] at again
      obtain rfl := Option.some.inj again
      simp only [Node.lookups, body, Body.references] at named
      obtain ⟨_, _, collected⟩ := run.exists_operandsRun
      exact Or.inr (Or.inl
        (collected.passed simplifyGrows wellFormed named bound))
  | implication again body run =>
      rw [stored] at again
      obtain rfl := Option.some.inj again
      simp only [Node.lookups, body, Body.references, List.mem_append,
        Option.mem_toList] at named
      rcases named with rfl | rfl
      · exact Or.inr (Or.inr (run.passed_premise wellFormed bound))
      · exact Or.inr (Or.inl
          (run.passed_conclusion simplifyGrows wellFormed bound))

end Runs

/-! ## Levels and chains -/

/-- Simplifying the negation of a formula takes a level more than the chains from
the formula do. -/
theorem chainsWithin_of_negation
    {before middle : Registry} {premise negated : Key}
    {node : Node} {bound : Nat} (wellFormed : before.WellFormed)
    (stored : before.node? premise = some node)
    (stands : before.referent? node.name = some node)
    (negation : before.Yields (Registry.negation premise) negated middle)
    (within : ∀ made, middle.node? negated = some made →
      ChainsWithin middle.LooksUp (bound + 1) made) :
    ChainsWithin before.LooksUp bound node := by
  obtain ⟨key, fresh, after, run, added⟩ := yields_negation wellFormed stored
  obtain ⟨rfl, rfl⟩ := run.unique negation
  have step : after.LooksUp
      { name := fresh, owner := none, body := .negation node.name } node :=
    ⟨node.name, by simp [Node.lookups, Body.references],
      added.extension.referent? stands⟩
  exact (within _ added.stored _ step).of_imp
    fun _ _ taken => taken.of_extends added.extension

/-- A formula that is simplified within some number of levels has no longer
chain of names looked up.  An atom under a negation is passed without a level,
which accounts for the one more. -/
theorem chainsWithin_of_yields
    {levels : Nat} {placement : Placement} {before after : Registry}
    {key : Key} {node : Node} {result : Option Key}
    (wellFormed : before.WellFormed)
    (stored : before.node? key = some node)
    (run : before.Yields (simplifyWithin levels placement key) result after) :
    ChainsWithin before.LooksUp (levels + 1) node := by
  induction levels generalizing placement before after key node result with
  | zero => exact (not_yields_simplifyWithin_zero run).elim
  | succ levels inductionHypothesis =>
      have simplifyGrows : ∀ key registry, Grows registry
          (registry.after (simplifyWithin levels .named key)) :=
        fun key registry => grows_simplifyWithin levels .named key registry
      -- What is simplified in a larger registry has short chains in this one.
      have passed : ∀ {registry : Registry} {operand : Key} {next : Node},
          registry.Passed (simplifyWithin levels .named) operand →
            registry.node? operand = some next →
              ChainsWithin registry.LooksUp (levels + 1) next := by
        rintro registry operand next
          ⟨middle, result, last, middleWellFormed, extension, run⟩ found
        exact (inductionHypothesis middleWellFormed (extension.node? found)
          run).of_imp fun _ _ step => step.of_extends extension
      intro next step
      have ⟨name, named, stands⟩ := step
      have ⟨operand, bound, found⟩ :=
        (referent?_eq_some_iff name next).mp stands
      have resolved := resolve_eq_some_iff.mpr ⟨bound, found⟩
      rcases (formulaRun_of_yields run).passed simplifyGrows wellFormed stored
        named resolved with isAtom | operandPassed |
          ⟨negated, middle, negation, negatedPassed⟩
      · rintro last ⟨other, otherNamed, _⟩
        simp [Node.lookups, Node.body_eq_atom_of_isAtom isAtom,
          Body.references] at otherNamed
      · exact passed operandPassed found
      · obtain rfl := wellFormed.named_of_binding bound found
        exact (chainsWithin_of_negation wellFormed found stands negation
          fun made => passed negatedPassed).succ

/-! ## Cycles -/

section Cycles

variable {registry : Registry} {node : Node}
  (plain : ∀ part, registry.Meets node part →
    ∀ atoms rows generated, part.body ≠ .dnf atoms rows generated)

theorem Meets.of_looksUp
    {part : Node}
    (path : Relation.ReflTransGen registry.LooksUp node part) :
    registry.Meets node part :=
  meets_iff_reflTransGen.mpr
    (Relation.ReflTransGen.mono (fun _ _ step => step.descends) _ _ path)

include plain

/-- Without disjunctive normal forms, names looked up are the only way on. -/
theorem Meets.looksUp
    {part : Node} (meets : registry.Meets node part) :
    Relation.ReflTransGen registry.LooksUp node part := by
  induction meets with
  | here => exact .refl
  | further step _ inductionHypothesis =>
      obtain ⟨name, named, stands⟩ := step.exists_name (plain _ (.here _))
      exact .head ⟨name, named, stands⟩ (inductionHypothesis fun part rest =>
        plain part (.further step rest))

theorem looksUp_of_refers
    {name reference : Name} {part next : Node}
    (meets : registry.Meets node part)
    (stands : registry.referent? name = some part)
    (refers : registry.Refers name reference)
    (referenceStands : registry.referent? reference = some next) :
    registry.LooksUp part next := by
  obtain ⟨same, sameStands, named⟩ := refers_iff.mp refers
  rw [stands] at sameStands
  obtain rfl := Option.some.inj sameStands
  rw [← Node.lookups_eq_references (plain part meets)] at named
  exact ⟨reference, named, referenceStands⟩

/-- Names that refer to one another stand for nodes that lead to one another. -/
theorem looksUp_along_references
    {name reference : Name} {part next : Node}
    (meets : registry.Meets node part)
    (stands : registry.referent? name = some part)
    (path : Relation.ReflTransGen registry.Refers name reference)
    (referenceStands : registry.referent? reference = some next) :
    Relation.ReflTransGen registry.LooksUp part next := by
  induction path generalizing next with
  | refl =>
      rw [stands] at referenceStands
      exact Option.some.inj referenceStands ▸ .refl
  | tail _ refers inductionHypothesis =>
      obtain ⟨middle, middleStands, _⟩ := refers_iff.mp refers
      have earlier := inductionHypothesis middleStands
      have middleMeets := meets_iff_reflTransGen.mpr <|
        (meets_iff_reflTransGen.mp meets).trans
          (meets_iff_reflTransGen.mp (Meets.of_looksUp earlier))
      exact earlier.tail (looksUp_of_refers plain middleMeets middleStands
        refers referenceStands)

/-- What a name that refers to itself stands for returns to itself. -/
theorem returns_of_cyclic
    {name : Name} {part : Node} (meets : registry.Meets node part)
    (stands : registry.referent? name = some part)
    (cyclic : Relation.TransGen registry.Refers name name) :
    Relation.TransGen registry.LooksUp part part := by
  obtain ⟨last, path, refers⟩ := Relation.TransGen.tail'_iff.mp cyclic
  obtain ⟨middle, middleStands, _⟩ := refers_iff.mp refers
  have earlier :=
    looksUp_along_references plain meets stands path middleStands
  have middleMeets := meets_iff_reflTransGen.mpr <|
    (meets_iff_reflTransGen.mp meets).trans
      (meets_iff_reflTransGen.mp (Meets.of_looksUp earlier))
  exact Relation.TransGen.tail' earlier
    (looksUp_of_refers plain middleMeets middleStands refers stands)

end Cycles

/-- A cycle within reach always stops simplification.  If no disjunctive normal
form is met from a stored formula, and some node met refers to a name that is
listed as cyclic, then the simplification of the formula is refused for the depth
limit, whatever the limit. -/
theorem Reachable.cycle_stops_simplification
    {registry : Registry} (reachable : registry.Reachable)
    {key : Key} {node : Node} (stored : registry.node? key = some node)
    (plain : ∀ part, registry.Meets node part →
      ∀ atoms rows generated, part.body ≠ .dnf atoms rows generated)
    {part : Node} (meets : registry.Meets node part)
    {name : Name} (referred : name ∈ part.references)
    (cyclic : registry.string name ∈ registry.cyclicNames) :
    ∃ final, registry.Refuses (simplify key) .depthExceeded final := by
  have wellFormed := reachable.wellFormed
  obtain ⟨partKey, partStored⟩ :=
    mem_stock_iff.mp (meets.mem_stock (mem_stock_iff.mpr ⟨key, stored⟩))
  obtain ⟨other, returns, same⟩ := mem_cyclicNames_iff.mp cyclic
  obtain ⟨_, refers, _⟩ := Relation.TransGen.head'_iff.mp returns
  obtain ⟨bearer, stands, _⟩ := refers_iff.mp refers
  obtain ⟨_, bound, _⟩ := (referent?_eq_some_iff other bearer).mp stands
  obtain rfl : other = name :=
    wellFormed.string_injective (wellFormed.name_lt_of_binding bound)
      ((wellFormed.admits partStored).references name referred) same
  rw [← Node.lookups_eq_references (plain part meets)] at referred
  have step : registry.LooksUp part bearer := ⟨other, referred, stands⟩
  have path := (meets.looksUp plain).tail step
  have around :=
    returns_of_cyclic plain (Meets.of_looksUp path) stands returns
  rcases yields_or_refuses registry (simplify key) with
    ⟨result, run⟩ | ⟨cause, refusal⟩
  · -- A successful run would bound the chains around the cycle.
    obtain ⟨_, _, reading, run⟩ := yields_bind_iff.mp run
    obtain ⟨rfl, rfl⟩ := yields_get_iff.mp reading
    exact (not_chainsWithin_of_cycle path around _
      (chainsWithin_of_yields wellFormed stored run)).elim
  · have ensured := (upheld_trivial registry Node.Elementary).simplify
      (tracked_elementary registry)
      ⟨wellFormed, Extends.refl registry, trivial⟩
      ⟨node, stored, throughout_elementary plain,
        fun impossible => by cases impossible⟩
      fun _ _ _ _ _ _ => trivial
    obtain rfl : cause = .depthExceeded := (ensured.refuses refusal).1
    exact ⟨_, refusal⟩

/-- A conjunction of opposed operands and of a double negation that was given the
name of the atom it negates. -/
theorem cycle_stops_opposed_operands :
    let registry := replay
      [.atom "a", .negation ⟨1⟩, .atom "b", .negation ⟨3⟩, .negation ⟨4⟩,
        .rename ⟨5⟩ "b", .junction .conjunction [⟨1⟩, ⟨2⟩, ⟨5⟩]]
    registry.cyclicNames = ["F2", "b"] ∧
      ∃ final, registry.Refuses (simplify ⟨6⟩) .depthExceeded final := by
  intro registry
  have reachable : registry.Reachable := reachable_replay _
  let node : Node := { name := 5, body := .junction .conjunction [0, 1, 2] }
  have stored : registry.node? ⟨6⟩ = some node := by decide +kernel
  have closed : ∀ node ∈ registry.stock,
      registry.successors node ⊆ registry.stock := by decide +kernel
  have plain := plain_of_closed closed (by decide +kernel)
    (mem_stock_iff.mpr ⟨_, stored⟩)
  have listed : registry.cyclicNames = ["F2", "b"] := by decide +kernel
  have cyclic : registry.string 2 ∈ registry.cyclicNames := by decide +kernel
  exact ⟨listed, reachable.cycle_stops_simplification stored plain
    (.here node) (by decide) cyclic⟩

end Registry

end NamedLogic
