import Mathlib
import NamedLogic.Proofs.FormedFormulas
import NamedLogic.Proofs.RepeatedSimplification
import NamedLogic.Proofs.TreeLaws

/-!
# Laws of simplification

The result of a simplification depends on the complete tree of the formula only,
so that the laws for trees become laws for formulas, whenever and under whatever
names these are formed.  When a junction is formed, operands of the same kind are
replaced by theirs; where no atom occurs both positively and negatively this makes
no difference.
-/

namespace NamedLogic

namespace Registry

/-! ## Registries that agree on a formula -/

/-- Simplification depends on nothing but the tree.  Let formulas of two
registries unfold to the same tree, one level further than the first registry
admits, and let every name met stand for something and no disjunctive normal form
be met.  If both are simplified, nothing remains of either, or the results have
the same complete tree. -/
theorem Reachable.simplify_determined_by_unfolding
    {first second : Registry} (firstReachable : first.Reachable)
    (secondReachable : second.Reachable)
    {firstKey secondKey : Key} {firstNode secondNode : Node}
    (firstStored : first.node? firstKey = some firstNode)
    (secondStored : second.node? secondKey = some secondNode)
    (firstTransparent : first.Transparent firstNode)
    (secondTransparent : second.Transparent secondNode)
    {levels : Nat} (enough : first.levels 0 < levels)
    (same :
      first.unfold levels firstNode = second.unfold levels secondNode)
    {firstFinal secondFinal : Registry} {firstResult secondResult : Option Key}
    (firstRun : first.Yields (simplify firstKey) firstResult firstFinal)
    (secondRun : second.Yields (simplify secondKey) secondResult secondFinal) :
    ∃ outcome : Option Tree,
      Option.Rel firstFinal.Unfolds firstResult outcome ∧
        Option.Rel secondFinal.Unfolds secondResult outcome := by
  obtain ⟨firstSettled, firstOutcome⟩ := firstRun.simplify_unfolds
    firstReachable.wellFormed firstStored (firstTransparent.resolved _)
  obtain ⟨secondSettled, secondOutcome⟩ := secondRun.simplify_unfolds
    secondReachable.wellFormed secondStored (secondTransparent.resolved _)
  have shape := (unfold_eq_of_settled firstSettled enough).symm.trans same
  rw [shape] at firstSettled firstOutcome
  have equal := Unfolds.unique
    ((unfolds_iff_of_stored secondStored).mpr ⟨firstSettled, _, rfl⟩)
    ((unfolds_iff_of_stored secondStored).mpr ⟨secondSettled, _, rfl⟩)
  exact ⟨_, firstOutcome, equal ▸ secondOutcome⟩

/-- An implication whose antecedent occurs again in its consequent, and one with
a copy of the antecedent there, in a registry filled in another order. -/
theorem simplify_determined_by_unfolding_of_copies :
    let first := replay
      [.atom "p", .atom "q", .atom "r", .junction .conjunction [⟨1⟩, ⟨2⟩],
        .negation ⟨4⟩, .junction .disjunction [⟨5⟩, ⟨3⟩],
        .implication (some ⟨4⟩) (some ⟨6⟩)]
    let second := replay
      [.atom "r", .freshAtom, .atom "q", .atom "p",
        .junction .conjunction [⟨4⟩, ⟨3⟩], .junction .conjunction [⟨4⟩, ⟨3⟩],
        .negation ⟨6⟩, .junction .disjunction [⟨7⟩, ⟨1⟩],
        .implication (some ⟨5⟩) (some ⟨8⟩)]
    ∃ tree : Tree,
      (first.after (simplify ⟨7⟩)).Unfolds ⟨19⟩ tree ∧
        (second.after (simplify ⟨9⟩)).Unfolds ⟨21⟩ tree := by
  intro first second
  have firstRun : first.Yields (simplify ⟨7⟩) (some ⟨19⟩)
      (first.after (simplify ⟨7⟩)) := yields_after (by decide +kernel)
  have secondRun : second.Yields (simplify ⟨9⟩) (some ⟨21⟩)
      (second.after (simplify ⟨9⟩)) := yields_after (by decide +kernel)
  let firstNode : Node := { name := 6, body := .implication (some 3) (some 5) }
  let secondNode : Node :=
    { name := 8, body := .implication (some 4) (some 7) }
  have firstStored : first.node? ⟨7⟩ = some firstNode := by decide +kernel
  have secondStored : second.node? ⟨9⟩ = some secondNode := by decide +kernel
  have same : first.unfold (first.levels 0 + 1) firstNode =
      second.unfold (first.levels 0 + 1) secondNode := by
    simp only [first, second, firstNode, secondNode]
    cbv
  obtain ⟨outcome, firstUnfolds, secondUnfolds⟩ :=
    (reachable_replay _).simplify_determined_by_unfolding (reachable_replay _)
      firstStored secondStored
      (transparent_of_stock (by decide +kernel) (by decide +kernel) firstStored)
      (transparent_of_stock (by decide +kernel) (by decide +kernel)
        secondStored)
      (Nat.lt_succ_self _)
      same firstRun secondRun
  generalize first.after (simplify ⟨7⟩) = firstFinal at firstUnfolds ⊢
  generalize second.after (simplify ⟨9⟩) = secondFinal at secondUnfolds ⊢
  cases firstUnfolds with
  | @some _ tree firstUnfolded =>
      cases secondUnfolds with
      | some secondUnfolded => exact ⟨tree, firstUnfolded, secondUnfolded⟩

/-! ## Formulas formed from the same operands -/

/-- A formula formed by an update in some state that a registry has grown to, and
simplified in another state later. -/
structure Simplified (base : Registry) (form : Update Key) where
  formed : Registry
  formula : Key
  final : Registry
  result : Option Key
  forms : base.LaterYields form formula formed
  simplifies : formed.LaterYields (simplify formula) result final

namespace Simplified

variable {base : Registry} {form other : Update Key}

/-- Nothing remains of either formula, or the results are alike in both directions
in every state that the two registries have grown to, unless comparing them
reaches the depth limit. -/
def Agrees
    (left : base.Simplified form) (right : base.Simplified other) : Prop :=
  Option.Rel
    (fun first second => ∀ last : Registry, last.Reachable →
      left.final.Extends last → right.final.Extends last →
        ((last.comparison first second).Ends →
          last.alike first second = true) ∧
        ((last.comparison second first).Ends →
          last.alike second first = true))
    left.result right.result

/-- No string occurs both positively and negatively in the complete tree of the
formula. -/
def Unmixed (run : base.Simplified form) : Prop :=
  ∀ tree, run.formed.Unfolds run.formula tree →
    Tree.Consistent (tree.literals true)

theorem final_reachable (run : base.Simplified form) :
    run.final.Reachable := by
  obtain ⟨before, reachable, _, yields⟩ := run.simplifies
  exact yields.after_eq ▸ reachable.after_simplify run.formula

/-- Formulas agree if the simplifications of their complete trees do. -/
theorem agrees
    (left : base.Simplified form) (right : base.Simplified other)
    {shape otherShape : Tree → Prop}
    (forms : base.Forms left.formed left.formula shape)
    (otherForms : base.Forms right.formed right.formula otherShape)
    (agree : ∀ {tree otherTree}, left.formed.Unfolds left.formula tree →
      shape tree → otherShape otherTree →
        Tree.OutcomesAgree tree.simplify otherTree.simplify) :
    left.Agrees right := by
  obtain ⟨_, leftClear⟩ := forms.clear
  obtain ⟨_, rightClear⟩ := otherForms.clear
  obtain ⟨unfolds, outcome⟩ :=
    left.simplifies.simplify_unfolds forms.reachable leftClear
  obtain ⟨otherUnfolds, otherOutcome⟩ :=
    right.simplifies.simplify_unfolds otherForms.reachable rightClear
  have same := agree unfolds (forms.shaped unfolds)
    (otherForms.shaped otherUnfolds)
  rw [Agrees]
  generalize simplified : Tree.simplify _ = first at same outcome
  generalize otherSimplified : Tree.simplify _ = second at same otherOutcome
  generalize left.result = result at outcome ⊢
  generalize right.result = otherResult at otherOutcome ⊢
  cases same with
  | none =>
      cases outcome
      cases otherOutcome
      exact .none
  | some same =>
      cases outcome with
      | some shown =>
          cases otherOutcome with
          | some otherShown =>
              have normal := Tree.normal_of_simplify simplified
              have otherNormal := Tree.normal_of_simplify otherSimplified
              refine .some fun last reachable growth otherGrowth => ?_
              obtain ⟨_, shows, otherShows⟩ :=
                (shown.of_extends normal.resolved
                  left.final_reachable.wellFormed reachable.wellFormed
                  growth).exists_shows
                (otherShown.of_extends otherNormal.resolved
                  right.final_reachable.wellFormed reachable.wellFormed
                  otherGrowth)
              exact ⟨reachable.wellFormed.alike_of_shows_normal normal
                otherNormal same.1 shows otherShows,
                reachable.wellFormed.alike_of_shows_normal otherNormal
                  normal same.2 otherShows shows⟩

theorem unmixed_of_consistent
    (run : base.Simplified form) {formed : Registry} {formula : Key}
    (sameFormed : run.formed = formed) (sameFormula : run.formula = formula)
    (reachable : formed.Reachable) (clear : ∃ node, formed.Clear formula node)
    (consistent : ∀ node ∈ formed.node? formula, Tree.Consistent
      ((formed.unfold (formed.levels 0 + 1) node).literals true)) :
    run.Unmixed := by
  subst sameFormed sameFormula
  intro tree unfolds
  obtain ⟨node, itself⟩ := clear
  obtain ⟨whole, _⟩ := run.simplifies.simplify_unfolds reachable itself
  obtain rfl := unfolds.unique whole
  exact consistent node itself.stored

end Simplified

/-- Two formulas are formed one after the other, and then simplified one after the
other.  If their simplifications agree in whatever states they are made, the
results are alike. -/
theorem alike_in_turn
    {base formed both simplified last : Registry} {form other : Update Key}
    {formula otherFormula first second : Key}
    (reachable : base.Reachable) (formedReachable : formed.Reachable)
    (bothReachable : both.Reachable) (growth : base.Extends formed)
    (otherGrowth : formed.Extends both)
    (forms : base.Yields form formula formed)
    (otherForms : formed.Yields other otherFormula both)
    (simplifies : both.Yields (simplify formula) (some first) simplified)
    (otherSimplifies :
      simplified.Yields (simplify otherFormula) (some second) last)
    (agree : ∀ (left : base.Simplified form) (right : base.Simplified other),
      left.formed = formed → left.formula = formula → left.Agrees right)
    (ends : (last.comparison first second).Ends ∧
      (last.comparison second first).Ends) :
    last.alike first second = true ∧ last.alike second first = true := by
  have simplifiedReachable : simplified.Reachable :=
    simplifies.after_eq ▸ bothReachable.after_simplify formula
  have lastReachable : last.Reachable :=
    otherSimplifies.after_eq ▸
      simplifiedReachable.after_simplify otherFormula
  obtain ⟨_, further⟩ :=
    simplifies.related (grows_simplify formula both) bothReachable.wellFormed
  obtain ⟨_, furthest⟩ := otherSimplifies.related
    (grows_simplify otherFormula simplified) simplifiedReachable.wellFormed
  let left : base.Simplified form :=
    { formed, formula, final := simplified, result := some first
      forms := reachable.laterYields forms
      simplifies := ⟨both, bothReachable, otherGrowth, simplifies⟩ }
  let right : base.Simplified other :=
    { formed := both, formula := otherFormula, final := last
      result := some second
      forms := ⟨formed, formedReachable, growth, otherForms⟩
      simplifies :=
        ⟨simplified, simplifiedReachable, further, otherSimplifies⟩ }
  have agrees : left.Agrees right := agree left right rfl rfl
  cases agrees with
  | some alike =>
      obtain ⟨forth, back⟩ :=
        alike last lastReachable furthest (Extends.refl last)
      exact ⟨forth ends.1, back ends.2⟩

/-- The order of the operands of a junction does not matter, nor does repeating
them.  Two junctions of the same operands are simplified to nothing, or to
formulas that are alike. -/
theorem Reachable.simplify_junction_of_same_operands
    {base : Registry} (reachable : base.Reachable) (connective : Connective)
    {operands reordered : List Key}
    (anchored : ∀ operand ∈ operands, base.Anchored operand)
    (same : ∀ operand, operand ∈ operands ↔ operand ∈ reordered)
    (left : base.Simplified (junction connective operands))
    (right : base.Simplified (junction connective reordered)) :
    left.Agrees right := by
  have clear : ∀ operand ∈ operands, ∃ node, base.Clear operand node :=
    fun operand member => (anchored operand member).exists_clear
  refine left.agrees right (left.forms.forms_junction reachable clear)
    (right.forms.forms_junction reachable fun operand member =>
      clear operand ((same operand).mpr member)) ?_
  rintro _ _ - ⟨trees, parts, unfolds, gathered, rfl⟩
    ⟨otherTrees, otherParts, otherUnfolds, otherGathered, rfl⟩
  refine Tree.simplify_junction_agree_of_mem_iff connective fun part => ?_
  rw [gathered, otherGathered]
  simp only [List.mem_flatMap, mem_iff_of_forall₂_unfolds unfolds,
    mem_iff_of_forall₂_unfolds otherUnfolds, same]

/-- A disjunction with an opposed pair and two operands that are alike, and the
same operands in reverse order. -/
theorem simplify_junction_of_same_operands_reversed :
    let base := replay
      [.atom "p", .atom "q", .atom "r", .negation ⟨2⟩,
        .junction .conjunction [⟨1⟩, ⟨3⟩], .junction .conjunction [⟨3⟩, ⟨1⟩]]
    let operands : List Key := [⟨2⟩, ⟨5⟩, ⟨4⟩, ⟨6⟩, ⟨1⟩]
    let formed := base.after (junction .disjunction operands)
    let both := formed.after (junction .disjunction operands.reverse)
    let simplified := both.after (simplify ⟨7⟩)
    let last := simplified.after (simplify ⟨8⟩)
    simplified.Yields (simplify ⟨8⟩) (some ⟨14⟩) last ∧
      last.alike ⟨11⟩ ⟨14⟩ = true ∧ last.alike ⟨14⟩ ⟨11⟩ = true := by
  intro base operands formed both simplified last
  have reachable : base.Reachable := reachable_replay _
  have formedReachable : formed.Reachable :=
    reachable.step (.junction .disjunction operands)
  have bothReachable : both.Reachable :=
    formedReachable.step (.junction .disjunction operands.reverse)
  have forms : base.Yields (junction .disjunction operands) ⟨7⟩ formed :=
    yields_after (by decide +kernel)
  have otherForms : formed.Yields (junction .disjunction operands.reverse) ⟨8⟩
      both := yields_after (by decide +kernel)
  have simplifies : both.Yields (simplify ⟨7⟩) (some ⟨11⟩) simplified :=
    yields_after (by decide +kernel)
  have otherSimplifies :
      simplified.Yields (simplify ⟨8⟩) (some ⟨14⟩) last :=
    yields_after (by decide +kernel)
  have anchored : ∀ operand ∈ operands, base.Anchored operand :=
    anchored_of_stock (by decide +kernel) (by decide +kernel)
      (by decide +kernel)
  have ends : (last.comparison ⟨11⟩ ⟨14⟩).Ends ∧
      (last.comparison ⟨14⟩ ⟨11⟩).Ends := by decide +kernel
  clear_value last simplified both formed base
  obtain ⟨_, growth⟩ := forms.related
    (grows_junction base .disjunction operands) reachable.wellFormed
  obtain ⟨_, otherGrowth⟩ := otherForms.related
    (grows_junction formed .disjunction operands.reverse)
    formedReachable.wellFormed
  exact ⟨otherSimplifies, alike_in_turn reachable formedReachable bothReachable
    growth otherGrowth forms otherForms simplifies otherSimplifies
    (fun left right _ _ =>
      reachable.simplify_junction_of_same_operands .disjunction anchored
        (fun _ => List.mem_reverse.symm) left right)
    ends⟩

/-! ## Negations pushed inwards -/

/-- Both sides of De Morgan's law, and an implication and the disjunction that
it stands for, are simplified to nothing or to formulas that are alike, if no
atom occurs both positively and negatively. -/
theorem Reachable.simplify_de_morgan
    {base : Registry} (reachable : base.Reachable) :
    (∀ (connective : Connective) (operands : List Key),
      (∀ operand ∈ operands, base.Anchored operand) →
      ∀ (left : base.Simplified do
          let joined ← junction connective operands
          negation joined)
        (right : base.Simplified do
          let negations ← operands.mapM negation
          junction connective.dual negations),
        left.Unmixed → left.Agrees right) ∧
    ∀ antecedent consequent : Key,
      base.Anchored antecedent → base.Anchored consequent →
      ∀ (left : base.Simplified <|
          implication (some antecedent) (some consequent))
        (right : base.Simplified do
          let negated ← negation antecedent
          junction .disjunction [negated, consequent]),
        left.Unmixed → left.Agrees right := by
  constructor
  · intro connective operands anchored left right unmixed
    have clear : ∀ operand ∈ operands, ∃ node, base.Clear operand node :=
      fun operand member => (anchored operand member).exists_clear
    refine left.agrees right
      (left.forms.forms_negated_junction reachable clear)
      (right.forms.forms_junction_of_negations reachable clear) ?_
    rintro _ _ whole ⟨trees, parts, unfolds, gathered, rfl⟩
      ⟨otherTrees, negated, otherUnfolds, negations, rfl⟩
    obtain rfl : trees = otherTrees := List.right_unique_forall₂'
      (R := base.Unfolds) (fun _ _ _ => Unfolds.unique) unfolds otherUnfolds
    exact Tree.simplify_negation_gathered_agree gathered negations
      (.of_gathered gathered (unmixed _ whole).of_negation)
  · intro antecedent consequent premise conclusion left right unmixed
    obtain ⟨_, premiseClear⟩ := premise.exists_clear
    obtain ⟨_, conclusionClear⟩ := conclusion.exists_clear
    refine left.agrees right (left.forms.forms_implication reachable
      premiseClear conclusionClear) (right.forms.forms_material_disjunction
        reachable premiseClear conclusionClear) ?_
    rintro _ _ whole ⟨first, second, firstUnfolds, secondUnfolds, rfl⟩
      ⟨_, _, parts, otherFirst, otherSecond, gathered, rfl⟩
    obtain rfl := firstUnfolds.unique otherFirst
    obtain rfl := secondUnfolds.unique otherSecond
    have consistent := unmixed _ whole
    rw [Tree.simplify_implication]
    refine (Tree.simplify_gathered_agree gathered ?_).symm
    simpa [Tree.literalsAmong, Tree.literals] using consistent

/-- The negation of a conjunction with a conjunction in it, and an implication
from that conjunction to a disjunction. -/
theorem simplify_de_morgan_of_nested_conjunction :
    let base := replay
      [.atom "p", .atom "q", .atom "r", .junction .conjunction [⟨2⟩, ⟨3⟩],
        .negation ⟨2⟩, .junction .disjunction [⟨1⟩, ⟨5⟩]]
    let formed := base.after do
      let joined ← junction .conjunction [⟨1⟩, ⟨4⟩]
      negation joined
    let both := formed.after do
      let negations ← [⟨1⟩, ⟨4⟩].mapM negation
      junction .disjunction negations
    let simplified := both.after (simplify ⟨8⟩)
    let last := simplified.after (simplify ⟨11⟩)
    let implied := base.after (implication (some ⟨4⟩) (some ⟨6⟩))
    let replaced := implied.after do
      let negated ← negation ⟨4⟩
      junction .disjunction [negated, ⟨6⟩]
    let pushed := replaced.after (simplify ⟨7⟩)
    let final := pushed.after (simplify ⟨9⟩)
    (both.Yields (simplify ⟨8⟩) (some ⟨16⟩) simplified ∧
        simplified.Yields (simplify ⟨11⟩) (some ⟨21⟩) last ∧
        last.alike ⟨16⟩ ⟨4⟩ = false ∧
        last.alike ⟨16⟩ ⟨21⟩ = true ∧ last.alike ⟨21⟩ ⟨16⟩ = true) ∧
      replaced.Yields (simplify ⟨7⟩) (some ⟨17⟩) pushed ∧
      pushed.Yields (simplify ⟨9⟩) (some ⟨22⟩) final ∧
      final.alike ⟨17⟩ ⟨6⟩ = false ∧
      final.alike ⟨17⟩ ⟨22⟩ = true ∧ final.alike ⟨22⟩ ⟨17⟩ = true := by
  intro base formed both simplified last implied replaced pushed final
  have reachable : base.Reachable := reachable_replay _
  have anchored : ∀ key ∈ [⟨1⟩, ⟨4⟩, ⟨6⟩], base.Anchored key :=
    anchored_of_stock (by decide +kernel) (by decide +kernel)
      (by decide +kernel)
  obtain ⟨deMorgan, material⟩ := reachable.simplify_de_morgan
  constructor
  · have forms : base.Yields
        (do
          let joined ← junction .conjunction [⟨1⟩, ⟨4⟩]
          negation joined) ⟨8⟩ formed := yields_after (by decide +kernel)
    have otherForms : formed.Yields
        (do
          let negations ← [⟨1⟩, ⟨4⟩].mapM negation
          junction .disjunction negations) ⟨11⟩ both :=
      yields_after (by decide +kernel)
    have simplifies : both.Yields (simplify ⟨8⟩) (some ⟨16⟩) simplified :=
      yields_after (by decide +kernel)
    have otherSimplifies :
        simplified.Yields (simplify ⟨11⟩) (some ⟨21⟩) last :=
      yields_after (by decide +kernel)
    have still : ∀ key ∈ [⟨1⟩, ⟨4⟩], formed.Anchored key :=
      anchored_of_stock (by decide +kernel) (by decide +kernel)
        (by decide +kernel)
    have consistent : ∀ node ∈ formed.node? ⟨8⟩, Tree.Consistent
        ((formed.unfold (formed.levels 0 + 1) node).literals true) := by
      decide +kernel
    have unequal : last.alike ⟨16⟩ ⟨4⟩ = false := by decide +kernel
    have ends : (last.comparison ⟨16⟩ ⟨21⟩).Ends ∧
        (last.comparison ⟨21⟩ ⟨16⟩).Ends := by decide +kernel
    clear_value last simplified both formed base
    have negated := (reachable.laterYields forms).forms_negated_junction
      reachable fun key member => (anchored key (by grind)).exists_clear
    have joined :=
      (negated.reachable.laterYields otherForms).forms_junction_of_negations
        negated.reachable fun key member => (still key member).exists_clear
    refine ⟨simplifies, otherSimplifies, unequal, ?_⟩
    exact alike_in_turn reachable negated.reachable joined.reachable
      negated.growth joined.growth forms otherForms simplifies otherSimplifies
      (fun left right sameFormed sameFormula => deMorgan .conjunction [⟨1⟩, ⟨4⟩]
        (fun key member => anchored key (by grind)) left right
        (left.unmixed_of_consistent sameFormed sameFormula negated.reachable
          negated.clear consistent))
      ends
  · have forms : base.Yields (implication (some ⟨4⟩) (some ⟨6⟩)) ⟨7⟩
        implied := yields_after (by decide +kernel)
    have otherForms : implied.Yields
        (do
          let negated ← negation ⟨4⟩
          junction .disjunction [negated, ⟨6⟩]) ⟨9⟩ replaced :=
      yields_after (by decide +kernel)
    have simplifies : replaced.Yields (simplify ⟨7⟩) (some ⟨17⟩) pushed :=
      yields_after (by decide +kernel)
    have otherSimplifies : pushed.Yields (simplify ⟨9⟩) (some ⟨22⟩) final :=
      yields_after (by decide +kernel)
    have still : ∀ key ∈ [⟨4⟩, ⟨6⟩], implied.Anchored key :=
      anchored_of_stock (by decide +kernel) (by decide +kernel)
        (by decide +kernel)
    have consistent : ∀ node ∈ implied.node? ⟨7⟩, Tree.Consistent
        ((implied.unfold (implied.levels 0 + 1) node).literals true) := by
      decide +kernel
    have unequal : final.alike ⟨17⟩ ⟨6⟩ = false := by decide +kernel
    have ends : (final.comparison ⟨17⟩ ⟨22⟩).Ends ∧
        (final.comparison ⟨22⟩ ⟨17⟩).Ends := by decide +kernel
    clear_value final pushed replaced implied base
    obtain ⟨_, premise⟩ := (anchored ⟨4⟩ (by grind)).exists_clear
    obtain ⟨_, conclusion⟩ := (anchored ⟨6⟩ (by grind)).exists_clear
    obtain ⟨_, premiseStill⟩ := (still ⟨4⟩ (by grind)).exists_clear
    obtain ⟨_, conclusionStill⟩ := (still ⟨6⟩ (by grind)).exists_clear
    have implies := (reachable.laterYields forms).forms_implication reachable
      premise conclusion
    have joined :=
      (implies.reachable.laterYields otherForms).forms_material_disjunction
        implies.reachable premiseStill conclusionStill
    refine ⟨simplifies, otherSimplifies, unequal, ?_⟩
    exact alike_in_turn reachable implies.reachable joined.reachable
      implies.growth joined.growth forms otherForms simplifies otherSimplifies
      (fun left right sameFormed sameFormula => material ⟨4⟩ ⟨6⟩
        (anchored ⟨4⟩ (by grind)) (anchored ⟨6⟩ (by grind)) left right
        (left.unmixed_of_consistent sameFormed sameFormula implies.reachable
          implies.clear consistent))
      ends

end Registry

end NamedLogic
