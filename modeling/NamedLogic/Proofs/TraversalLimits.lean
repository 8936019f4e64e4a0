import NamedLogic.Proofs.BoundedSimplification
import NamedLogic.Proofs.GeneratedBindings
import NamedLogic.Proofs.NormalForms
import NamedLogic.Proofs.Persistence
import NamedLogic.Proofs.ReferenceCycles

/-!
# A limit that traversals stay below

If no name is listed as cyclic, a traversal can only come back to where it was
through a disjunctive normal form, whose references do not tell that it is
traversed through its generated formula.  Where this does not happen, there is a
depth that no traversal exceeds, whether or not the formula is bound.
-/

namespace NamedLogic

/-! ## Evaluation within enough levels -/

/-- A reading of the connectives that is refused only where an operand is. -/
class Unfailing (V : Type) [Interpretation V] : Prop where
  conjunction {α : Type} {value : α → Traversed (Option V)}
    {operands : List α} (parts : ∀ operand ∈ operands, (value operand).Ends) :
    (Interpretation.conjunction value operands).Ends
  disjunction {α : Type} {value : α → Traversed (Option V)}
    {operands : List α} (parts : ∀ operand ∈ operands, (value operand).Ends) :
    (Interpretation.disjunction value operands).Ends
  implication {α : Type} {value : α → Traversed (Option V)}
    {antecedent consequent : α} (left : (value antecedent).Ends)
    (right : (value consequent).Ends) :
    (Interpretation.implication value antecedent consequent).Ends

section Readings

variable {α : Type}

theorem Classical.conjunction_ends
    {value : α → Traversed (Option Bool)} {operands : List α}
    (parts : ∀ operand ∈ operands, (value operand).Ends) :
    (Classical.conjunction value operands).Ends := by
  induction operands with
  | nil => exact ⟨_, rfl⟩
  | cons operand operands inductionHypothesis =>
      have rest := inductionHypothesis fun other member =>
        parts other (List.mem_cons_of_mem _ member)
      apply (parts operand List.mem_cons_self).bind
      rintro (_ | _ | _)
      · exact ⟨_, rfl⟩
      · exact ⟨_, rfl⟩
      · exact rest

theorem Classical.disjunction_ends
    {value : α → Traversed (Option Bool)} {operands : List α}
    (parts : ∀ operand ∈ operands, (value operand).Ends) :
    (Classical.disjunction value operands).Ends := by
  induction operands with
  | nil => exact ⟨_, rfl⟩
  | cons operand operands inductionHypothesis =>
      have rest := inductionHypothesis fun other member =>
        parts other (List.mem_cons_of_mem _ member)
      apply (parts operand List.mem_cons_self).bind
      rintro (_ | _ | _)
      · exact rest
      · exact rest
      · exact ⟨_, rfl⟩

theorem Classical.implication_ends
    {value : α → Traversed (Option Bool)} {antecedent consequent : α}
    (left : (value antecedent).Ends) (right : (value consequent).Ends) :
    (Classical.implication value antecedent consequent).Ends := by
  apply right.bind
  rintro (_ | _ | _)
  · exact ⟨_, rfl⟩
  · exact left.bind fun _ => ⟨_, rfl⟩
  · exact ⟨_, rfl⟩

instance : Unfailing Bool where
  conjunction := Classical.conjunction_ends
  disjunction := Classical.disjunction_ends
  implication := Classical.implication_ends

theorem Belnap.conjunctionFrom_ends
    {value : α → Traversed (Option Four)} {running : Four}
    {operands : List α}
    (parts : ∀ operand ∈ operands, (value operand).Ends) :
    (Belnap.conjunctionFrom value running operands).Ends := by
  induction operands generalizing running with
  | nil => exact ⟨_, rfl⟩
  | cons operand operands inductionHypothesis =>
      apply (parts operand List.mem_cons_self).bind
      intro outcome
      dsimp only
      split
      · exact inductionHypothesis fun other member =>
          parts other (List.mem_cons_of_mem _ member)
      · exact ⟨_, rfl⟩

theorem Belnap.disjunctionFrom_ends
    {value : α → Traversed (Option Four)} {running : Four}
    {operands : List α}
    (parts : ∀ operand ∈ operands, (value operand).Ends) :
    (Belnap.disjunctionFrom value running operands).Ends := by
  induction operands generalizing running with
  | nil => exact ⟨_, rfl⟩
  | cons operand operands inductionHypothesis =>
      apply (parts operand List.mem_cons_self).bind
      intro outcome
      dsimp only
      split
      · exact ⟨_, rfl⟩
      · exact inductionHypothesis fun other member =>
          parts other (List.mem_cons_of_mem _ member)

theorem Belnap.implication_ends
    {value : α → Traversed (Option Four)} {antecedent consequent : α}
    (left : (value antecedent).Ends) (right : (value consequent).Ends) :
    (Belnap.implication value antecedent consequent).Ends :=
  left.bind fun _ => right.bind fun _ => ⟨_, rfl⟩

instance : Unfailing Four where
  conjunction := Belnap.conjunctionFrom_ends
  disjunction := Belnap.disjunctionFrom_ends
  implication := Belnap.implication_ends

end Readings

namespace Tree

/-- The value of a tree that is not cut off is found without a refusal. -/
theorem Settled.ends
    {V : Type} [Interpretation V] [Unfailing V] {tree : Tree}
    (settled : tree.Settled) (valuation : Valuation V) :
    (tree.value valuation).Ends := by
  induction tree using Tree.inductionOn with
  | atom | unresolved | absent => exact ⟨_, rfl⟩
  | beyond => exact (settled rfl).elim
  | negation operand inductionHypothesis =>
      have ⟨outcome, evaluated⟩ :=
        inductionHypothesis (settled_negation_iff.mp settled)
      exact ⟨outcome.map TruthValue.negate, by rw [value, evaluated]; rfl⟩
  | junction connective operands inductionHypothesis =>
      have parts : ∀ traversed ∈ operands.map (value valuation),
          (id traversed).Ends := by
        refine List.forall_mem_map.mpr fun operand member => ?_
        exact inductionHypothesis operand member
          (settled_junction_iff.mp settled operand member)
      cases connective with
      | conjunction =>
          rw [value, values_eq_map]
          exact Unfailing.conjunction parts
      | disjunction =>
          rw [value, values_eq_map]
          exact Unfailing.disjunction parts
  | implication antecedent consequent premise conclusion =>
      have sides := settled_implication_iff.mp settled
      have leftEnds : (id (antecedent.value valuation)).Ends :=
        premise sides.1
      have rightEnds : (id (consequent.value valuation)).Ends :=
        conclusion sides.2
      exact Unfailing.implication leftEnds rightEnds
  | generated formula inductionHypothesis =>
      exact inductionHypothesis settled.2

end Tree

/-! ## Cycles through disjunctive normal forms -/

namespace Registry

/-- No disjunctive normal form reached from the node by steps is reached from
itself again. -/
def FormsNeverReturn (step : Node → Node → Prop) (node : Node) : Prop :=
  ∀ form, Relation.ReflTransGen step node form → form.isDnf →
    ¬ Relation.TransGen step form form

section Cycles

variable {registry : Registry} {step : Node → Node → Prop}
  {node part : Node}
  (plain : ∀ {node next}, step node next → ¬ node.isDnf →
    registry.LooksUp node next)

include plain

theorem looksUp_of_path
    (path : Relation.ReflTransGen step node part)
    (none : ∀ form, Relation.ReflTransGen step node form →
      Relation.ReflTransGen step form part → ¬ form.isDnf) :
    Relation.ReflTransGen registry.LooksUp node part := by
  induction path using Relation.ReflTransGen.head_induction_on with
  | refl => exact .refl
  | head taken rest inductionHypothesis =>
      have first := plain taken (none _ .refl (.head taken rest))
      refine .head first (inductionHypothesis fun form reached => ?_)
      exact none form (.head taken reached)

/-- If no name is listed as cyclic, steps that return pass through a disjunctive
normal form, which then returns as well. -/
theorem not_returns_of_formsNeverReturn
    (acyclic : registry.cyclicNames = [])
    (never : FormsNeverReturn step node)
    (reached : Relation.ReflTransGen step node part) :
    ¬ Relation.TransGen step part part := by
  intro returns
  have ⟨next, taken, path⟩ := Relation.TransGen.head'_iff.mp returns
  have none : ∀ form, Relation.ReflTransGen step part form →
      Relation.ReflTransGen step form part → ¬ form.isDnf := by
    intro form there back isDnf
    have around : Relation.TransGen step form form :=
      (Relation.TransGen.trans_right back returns).trans_left there
    exact never form (reached.trans there) isDnf around
  have first := plain taken (none part .refl .refl)
  have rest := looksUp_of_path plain path fun form there =>
    none form (.head taken there)
  exact not_looksUp_returns acyclic (Relation.TransGen.head' first rest)

theorem chainsWithin_of_formsNeverReturn
    (closed : ∀ {node next}, step node next → next ∈ registry.stock)
    (acyclic : registry.cyclicNames = [])
    (never : FormsNeverReturn step node) (stored : node ∈ registry.stock) :
    ChainsWithin step registry.nodeCount node := by
  rw [← length_stock]
  apply chainsWithin_of_acyclic
  · exact fun _ _ _ taken => closed taken
  · exact fun _ => not_returns_of_formsNeverReturn plain acyclic never
  · exact stored

end Cycles

section Registries

variable {registry : Registry} {node next : Node}

theorem Descends.looksUp
    (step : registry.Descends node next) (plain : ¬ node.isDnf) :
    registry.LooksUp node next := by
  cases step with
  | operand named stands => exact ⟨_, named, stands⟩
  | generated body _ => simp [Node.isDnf, body] at plain

theorem Leads.looksUp
    (leads : registry.Leads node next) (plain : ¬ node.isDnf) :
    registry.LooksUp node next := by
  cases leads with
  | descends step => exact step.looksUp plain
  | namesake body _ _ => simp [Node.isDnf, body] at plain

/-- Settings have no say in where a step leads. -/
theorem Descends.of_settings
    {settings : Settings}
    (step : Descends { registry with settings } node next) :
    registry.Descends node next := by
  cases step with
  | operand named stands => exact .operand named stands
  | generated body present => exact .generated body present

/-- The names that simplification may follow from a node: those the node looks
up, and that of the formula generated for it. -/
def pursued (registry : Registry) (node : Node) : List Name :=
  node.lookups ++
    ((node.body.generated?.bind registry.node?).map Node.name).toList

/-- Names that simplification may follow from the node, and that stand for
nothing in the first registry, stand for nothing in the second. -/
def LeavesGaps (before after : Registry) (node : Node) : Prop :=
  ∀ part, before.ComesTo node part → ∀ name ∈ before.pursued part,
    before.referent? name = none → after.referent? name = none

/-- Under the settings, no name is generated for a compound formula that
simplification may follow from the node, and that stands for nothing. -/
def GapsApart (registry : Registry) (settings : Settings) (node : Node) : Prop :=
  ∀ part, registry.ComesTo node part → ∀ name ∈ registry.pursued part,
    registry.referent? name = none →
      ¬ MayGenerate { registry with settings } .compound (registry.string name)

theorem WellFormed.pursued_lt
    (wellFormed : registry.WellFormed) (stored : node ∈ registry.stock) :
    ∀ name ∈ registry.pursued node, name < registry.strings.size := by
  intro name followed
  have ⟨_, found⟩ := mem_stock_iff.mp stored
  rcases List.mem_append.mp followed with named | carried
  · exact (wellFormed.admits found).references name
      (Node.mem_references named)
  · obtain ⟨formula, formed, rfl⟩ :=
      Option.map_eq_some_iff.mp (Option.mem_toList.mp carried)
    obtain ⟨_, _, present⟩ := Option.bind_eq_some_iff.mp formed
    exact wellFormed.named present

/-- Simplification binds generated names only, and so leaves the others as
they are. -/
theorem GapsApart.leavesGaps
    {settings : Settings} (wellFormed : registry.WellFormed)
    (stored : node ∈ registry.stock) (apart : registry.GapsApart settings node)
    (key : Key) :
    LeavesGaps registry
      (Registry.after { registry with settings } (simplify key)) node := by
  intro part comes name followed nothing
  have configured := wellFormed.configure settings
  have binds := configured.numbered.bindsGenerated_simplify key
  have finalWellFormed := (grows_simplify key _ configured).1
  have inside := wellFormed.pursued_lt (comes.mem_stock stored) name followed
  have unbound := (wellFormed.referent?_eq_none_iff name).mp nothing
  rw [finalWellFormed.referent?_eq_none_iff]
  exact binds.binding_eq_none (binds.strings (strings_of_lt inside)) unbound
    (apart part comes name followed nothing)

/-- Where names that may be followed stay unbound, simplification comes to
nothing new. -/
theorem LeavesGaps.leads_before
    {settings : Settings} {final : Registry}
    (wellFormed : registry.WellFormed)
    (extension : Extends { registry with settings } final)
    (leaves : LeavesGaps registry final node)
    {part : Node} (comes : registry.ComesTo node part)
    (stored : part ∈ registry.stock)
    (leads : final.Leads part next) : registry.Leads part next := by
  have follows : ∀ {name : Name}, name ∈ registry.pursued part →
      final.referent? name = some next →
        registry.referent? name = some next := by
    intro name named stands
    cases before : registry.referent? name with
    | none =>
        rw [leaves part comes name named before] at stands
        cases stands
    | some earlier =>
        have kept : final.referent? name = some earlier :=
          extension.referent? before
        rw [kept] at stands
        exact stands
  have formed : ∀ {atoms : List Name} {rows : UInt64} {key : Key}
      {formula : Node}, part.body = .dnf atoms rows (some key) →
        final.node? key = some formula →
          registry.node? key = some formula := by
    intro atoms rows key formula body present
    have ⟨partKey, partStored⟩ := mem_stock_iff.mp stored
    have issued := (wellFormed.admits partStored).generated key
      (by rw [body]; rfl)
    have kept : final.node? key = registry.node? key :=
      extension.nodes issued
    rwa [kept] at present
  cases leads with
  | descends step =>
      cases step with
      | operand named stands =>
          have here := follows (List.mem_append_left _ named) stands
          exact .descends (.operand named here)
      | generated body present =>
          exact .descends (.generated body (formed body present))
  | namesake body present stands =>
      have here := formed body present
      refine .namesake body here (follows (List.mem_append_right _ ?_) stands)
      simp [body, Body.generated?, here]

end Registries

/-! ## Limits -/

theorem formsNeverReturn_of_ranked
    {registry : Registry} {node : Node} {nodes : List Node} {rank : Node → Nat}
    (lower : ∀ node ∈ nodes, ∀ next ∈ registry.successors node,
      next ∈ nodes ∧ rank next < rank node)
    (member : node ∈ nodes) :
    FormsNeverReturn registry.Descends node ∧
      FormsNeverReturn registry.Leads node := by
  constructor
  · intro form reached _ returns
    have meets : registry.Meets node form := meets_iff_reflTransGen.mpr reached
    have ⟨there, _⟩ := meets.ranked lower member
    exact not_returns_of_ranked lower there
      (returns.lift id fun _ _ => Leads.descends)
  · intro form reached _ returns
    have ⟨there, _⟩ := ComesTo.ranked lower reached member
    exact not_returns_of_ranked lower there returns

section Enough

variable {registry : Registry} (wellFormed : registry.WellFormed)
  (acyclic : registry.cyclicNames = []) {settings : Settings} {node : Node}
  (member : node ∈ registry.stock)

include acyclic member

/-- As many levels as there are stored nodes are enough to unfold one of them. -/
theorem settled_of_formsNeverReturn
    (deep : registry.nodeCount ≤ settings.depthLimit.value + 1)
    (never : FormsNeverReturn registry.Descends node) :
    (unfold { registry with settings } (settings.depthLimit.value + 1)
      node).Settled := by
  have within := chainsWithin_of_formsNeverReturn Descends.looksUp
    Descends.mem_stock acyclic never member
  have settled : (unfold { registry with settings } registry.nodeCount
      node).Settled :=
    settled_of_chainsWithin
      (within.of_imp fun _ _ step => step.of_settings)
  rwa [unfold_eq_of_settled settled deep]

include wellFormed

/-- Three levels for every stored node are enough to simplify one of them, if
names that it may follow stay unbound. -/
theorem WellFormed.not_depthExceeded_of_leavesGaps
    (deep : 3 * registry.nodeCount ≤ settings.depthLimit.value)
    {key : Key} (stored : registry.node? key = some node)
    (never : FormsNeverReturn registry.Leads node)
    (leaves : LeavesGaps registry
      (Registry.after { registry with settings } (simplify key)) node) :
    ¬ ∃ final, Refuses { registry with settings } (simplify key)
      .depthExceeded final := by
  rintro ⟨final, refusal⟩
  have configured := wellFormed.configure settings
  rw [refusal.after_eq] at leaves
  have ⟨_, extension⟩ : final.WellFormed ∧
      Extends { registry with settings } final := by
    have grown := grows_simplify key _ configured
    rwa [refusal.after_eq] at grown
  have within := chainsWithin_of_formsNeverReturn Leads.looksUp
    Leads.mem_stock acyclic never member
  have low : final.Low (3 * registry.nodeCount) node := by
    refine low_of_chainsWithin within fun part next comes leads => ?_
    exact leaves.leads_before wellFormed extension comes
      (comes.mem_stock member) leads
  have enough : 3 * registry.nodeCount ≤
      levels { registry with settings } 0 :=
    deep.trans (Nat.le_succ _)
  exact configured.not_depthExceeded_of_low stored low enough refusal

end Enough

/-- If no name is listed as cyclic, three levels for every stored node are
enough for every stored formula, bound or not.  No evaluation of it is refused,
in either logic, provided no disjunctive normal form is met from it that is met
again from its generated formula.  Its simplification is not refused for the
depth limit, provided no disjunctive normal form that it may come to is come to
again, and no name that it may follow is bound by it; it binds none that does not
have the form of a generated name, with a number to come. -/
theorem Reachable.traversals_stay_below_limit
    {registry : Registry} (reachable : registry.Reachable)
    (acyclic : registry.cyclicNames = []) {settings : Settings}
    (deep : 3 * registry.nodeCount ≤ settings.depthLimit.value)
    {key : Key} {node : Node} (stored : registry.node? key = some node) :
    let deeper : Registry := { registry with settings }
    (FormsNeverReturn registry.Descends node →
      (∀ valuation : Valuation Bool,
        ∃ outcome, deeper.evaluate valuation key = .ok outcome) ∧
      ∀ valuation : Valuation Four,
        ∃ outcome, deeper.evaluate valuation key = .ok outcome) ∧
    (FormsNeverReturn registry.Leads node →
      LeavesGaps registry (deeper.after (simplify key)) node →
        ¬ ∃ final, deeper.Refuses (simplify key) .depthExceeded final) ∧
    (registry.GapsApart settings node →
      LeavesGaps registry (deeper.after (simplify key)) node) := by
  intro deeper
  have member : node ∈ registry.stock := mem_stock_iff.mpr ⟨key, stored⟩
  have wellFormed := reachable.wellFormed
  refine ⟨fun never => ?_, fun never leaves => ?_,
    fun apart => apart.leavesGaps wellFormed member key⟩
  · have settled : (deeper.unfold (deeper.levels 0) node).Settled :=
      settled_of_formsNeverReturn acyclic member (by omega) never
    constructor
    · intro valuation
      rw [deeper.evaluate_eq_value valuation stored]
      exact settled.ends valuation
    · intro valuation
      rw [deeper.evaluate_eq_value valuation stored]
      exact settled.ends valuation
  · exact wellFormed.not_depthExceeded_of_leavesGaps acyclic member deep
      stored never leaves

/-- The formula generated for a disjunctive normal form has one of its operands
replaced by an atom.  A formula with the form in it implies what a removed name
stood for, and its negation is formed on the way, under a generated name. -/
theorem traversals_stay_below_limit_of_replaced_operand :
    let registry := replay
      [.atom "a", .atom "b", .dnf [⟨1⟩, ⟨2⟩] 6, .atom "c", .rename ⟨12⟩ "F6",
        .implication (some ⟨1⟩) (some ⟨11⟩), .atom "d",
        .implication (some ⟨13⟩) (some ⟨14⟩), .remove "d"]
    registry.cyclicNames = [] ∧
      (∀ valuation : Valuation Bool,
        ∃ outcome, registry.evaluate valuation ⟨15⟩ = .ok outcome) ∧
      ¬ ∃ final, registry.Refuses (simplify ⟨15⟩) .depthExceeded final := by
  intro registry
  have reachable : registry.Reachable := reachable_replay _
  have acyclic : registry.cyclicNames = [] := by decide +kernel
  let node : Node := { name := 14, body := .implication (some 12) (some 13) }
  have stored : registry.node? ⟨15⟩ = some node := by decide +kernel
  have deep :
      3 * registry.nodeCount ≤ registry.settings.depthLimit.value := by
    decide +kernel
  -- Every step lowers the height of the tree, and one name is not bound.
  have lower : ∀ node ∈ registry.stock, ∀ next ∈ registry.successors node,
      next ∈ registry.stock ∧
        (registry.unfold 14 next).height <
          (registry.unfold 14 node).height := by
    decide +kernel
  have gaps : ∀ part ∈ registry.stock, ∀ name ∈ registry.pursued part,
      registry.referent? name = none →
        ¬ (registry.settings.stem .compound).toList <+:
          (registry.string name).toList := by
    decide +kernel
  have member : node ∈ registry.stock := mem_stock_iff.mpr ⟨_, stored⟩
  have ⟨descends, leads⟩ := formsNeverReturn_of_ranked lower member
  have ⟨evaluation, simplification, gapsLeft⟩ :=
    reachable.traversals_stay_below_limit acyclic deep stored
  refine ⟨acyclic, (evaluation descends).1,
    simplification leads (gapsLeft ?_)⟩
  intro part comes name followed nothing generated
  exact gaps part (comes.mem_stock member) name followed nothing
    generated.begins_with_stem

/-- An operand of the formula generated for a disjunctive normal form is
replaced by the negation of the form.  No name is listed as cyclic, and yet the
form is evaluated endlessly, whatever the limit. -/
theorem form_returns_unlisted :
    let registry := replay
      [.atom "a", .atom "b", .dnf [⟨1⟩, ⟨2⟩] 6, .negation ⟨11⟩,
        .rename ⟨12⟩ "F6"]
    let valuation := Valuation.ofList [("a", true), ("b", false)]
    registry.Reachable ∧ registry.cyclicNames = [] ∧
      ∀ settings : Settings,
        evaluate { registry with settings } valuation ⟨11⟩ =
          .error .depthExceeded := by
  intro registry valuation
  refine ⟨reachable_replay _, by decide +kernel, fun settings => ?_⟩
  let deeper : Registry := { registry with settings }
  let form : Node := { name := 10, body := .dnf [0, 1] 6 (some ⟨10⟩) }
  let generated : Node := { name := 9, body := .junction .disjunction [7, 8] }
  let negated : Node := { name := 7, body := .negation 10 }
  have formStored : deeper.node? ⟨11⟩ = some form := by
    change registry.node? ⟨11⟩ = some form
    decide +kernel
  have formStands : deeper.referent? 10 = some form := by
    change registry.referent? 10 = some form
    decide +kernel
  have generatedStored : deeper.node? ⟨10⟩ = some generated := by
    change registry.node? ⟨10⟩ = some generated
    decide +kernel
  have negatedStands : deeper.referent? 7 = some negated := by
    change registry.referent? 7 = some negated
    decide +kernel
  have endless : ∀ levels,
      deeper.nodeValue valuation levels form = .error .depthExceeded ∧
      deeper.nodeValue valuation levels generated = .error .depthExceeded ∧
      deeper.nodeValue valuation levels negated = .error .depthExceeded := by
    intro levels
    induction levels with
    | zero => exact ⟨rfl, rfl, rfl⟩
    | succ levels inductionHypothesis =>
        have ⟨formEndless, generatedEndless, negatedEndless⟩ :=
          inductionHypothesis
        have firstEndless : deeper.sideValue valuation levels (some 7) =
            .error .depthExceeded := by
          rw [sideValue_of_referent negatedStands, negatedEndless]
        refine ⟨?_, ?_, ?_⟩
        · rw [nodeValue_succ]
          dsimp only [form]
          rw [Option.bind_some, generatedStored]
          exact generatedEndless
        · rw [nodeValue_succ]
          change Classical.disjunction _ _ = _
          rw [Classical.disjunction, Function.comp_apply, firstEndless]
          rfl
        · rw [nodeValue_succ]
          dsimp only [negated]
          rw [sideValue_of_referent formStands, formEndless]
          rfl
  change deeper.evaluate valuation ⟨11⟩ = .error .depthExceeded
  rw [evaluate, formStored]
  exact (endless _).1

end Registry

end NamedLogic
