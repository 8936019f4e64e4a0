import NamedLogic.Proofs.CompleteTrees

/-!
# Complete trees of newly formed formulas

An operation may be performed long after its arguments were formed.  As long as
the registry has only grown in between, the complete tree of the formula it forms
is made from the complete trees that the arguments had in the first place.
-/

namespace NamedLogic

namespace Registry

variable {α : Type}

/-- The update yields the value and the last registry in some state that the
first registry has grown to. -/
def LaterYields
    (base : Registry) (update : Update α) (value : α) (after : Registry) :
    Prop :=
  ∃ before : Registry, before.Reachable ∧ base.Extends before ∧
    before.Yields update value after

theorem Reachable.laterYields
    {base after : Registry} (reachable : base.Reachable)
    {update : Update α} {value : α}
    (run : base.Yields update value after) :
    base.LaterYields update value after :=
  ⟨base, reachable, Extends.refl base, run⟩

/-- The last registry has grown from the first one, and holds a new formula whose
complete tree has the given shape, if it has one. -/
structure Forms
    (base after : Registry) (key : Key) (shape : Tree → Prop) : Prop where
  reachable : after.Reachable
  growth : base.Extends after
  clear : ∃ node, after.Clear key node
  shaped : ∀ {tree}, after.Unfolds key tree → shape tree

section Forms

variable {base before after : Registry} {key : Key} {node : Node}
  {shape : Tree → Prop}

theorem Adds.forms
    (added : before.Adds after key node) (growth : base.Extends before)
    (reachable : after.Reachable)
    (resolved : ∀ levels, (after.unfold (levels + 1) node).Resolved)
    (shaped : ∀ levels, (after.unfold (levels + 1) node).Settled →
      shape (after.unfold (levels + 1) node)) :
    base.Forms after key shape where
  reachable := reachable
  growth := growth.trans added.extension
  clear := by
    refine ⟨node, added.stored, added.bound, fun levels => ?_⟩
    cases levels with
    | zero => exact trivial
    | succ levels => exact resolved levels
  shaped := by
    intro tree unfolds
    obtain ⟨settled, levels, rfl⟩ :=
      (unfolds_iff_of_stored added.stored).mp unfolds
    cases levels with
    | zero => exact (settled rfl).elim
    | succ levels => exact shaped levels settled

theorem Forms.of_extends
    {later : Registry} (forms : base.Forms after key shape)
    (reachable : later.Reachable) (extension : after.Extends later) :
    base.Forms later key shape where
  reachable := reachable
  growth := forms.growth.trans extension
  clear := by
    obtain ⟨node, clear⟩ := forms.clear
    exact ⟨node, clear.of_extends forms.reachable.wellFormed
      reachable.wellFormed extension⟩
  shaped := by
    intro tree unfolds
    obtain ⟨node, clear⟩ := forms.clear
    exact forms.shaped ((clear.unfolds_iff forms.reachable.wellFormed
      reachable.wellFormed extension).mp unfolds)

theorem Forms.imp
    {middle : Registry} {inner : Tree → Prop} (growth : base.Extends middle)
    (forms : middle.Forms after key inner)
    (imp : ∀ {tree}, inner tree → shape tree) :
    base.Forms after key shape where
  reachable := forms.reachable
  growth := growth.trans forms.growth
  clear := forms.clear
  shaped unfolds := imp (forms.shaped unfolds)

end Forms

namespace LaterYields

variable {base after : Registry} (reachable : base.Reachable) {key : Key}

include reachable

theorem forms_negation
    {operand : Key} {node : Node} (clear : base.Clear operand node)
    (later : base.LaterYields (negation operand) key after) :
    base.Forms after key fun tree =>
      ∃ part, base.Unfolds operand part ∧ tree = .negation part := by
  obtain ⟨before, beforeReachable, growth, run⟩ := later
  obtain ⟨_, _, _, again, added⟩ := yields_negation
    beforeReachable.wellFormed (growth.node? clear.stored)
  obtain ⟨rfl, rfl⟩ := run.unique again
  have grown := growth.trans added.extension
  have still := clear.of_extends reachable.wellFormed added.wellFormed grown
  refine added.forms growth
    (run.after_eq ▸ beforeReachable.step (.negation operand))
    (fun levels => ?_) fun levels => ?_
  · rw [unfold_negation rfl, still.nameTree_eq]
    exact ⟨trivial, still.resolved levels⟩
  · rw [unfold_negation rfl, still.nameTree_eq]
    exact fun settled => ⟨_, clear.unfolds_of_settled reachable.wellFormed
      added.wellFormed grown settled.2, rfl⟩

/-- Negations formed one after the other. -/
theorem forms_negations
    {operands negations : List Key}
    (clear : ∀ operand ∈ operands, ∃ node, base.Clear operand node)
    {before : Registry} (beforeReachable : before.Reachable)
    (growth : base.Extends before)
    (run : before.Yields (operands.mapM negation) negations after) :
    after.Reachable ∧ before.Extends after ∧
      List.Forall₂ (fun operand negated => base.Forms after negated
        fun tree => ∃ part, base.Unfolds operand part ∧
          tree = .negation part) operands negations := by
  induction operands generalizing before negations with
  | nil =>
      obtain ⟨rfl, rfl⟩ := yields_pure_iff.mp run
      exact ⟨beforeReachable, Extends.refl before, .nil⟩
  | cons operand operands inductionHypothesis =>
      rw [List.mapM_cons] at run
      obtain ⟨negated, middle, first, rest⟩ := yields_bind_iff.mp run
      obtain ⟨others, _, restRun, last⟩ := yields_bind_iff.mp rest
      obtain ⟨rfl, rfl⟩ := yields_pure_iff.mp last
      obtain ⟨node, itself⟩ := clear operand List.mem_cons_self
      have formed := forms_negation reachable itself
        ⟨before, beforeReachable, growth, first⟩
      obtain ⟨_, step⟩ := first.related (grows_negation before operand)
        beforeReachable.wellFormed
      obtain ⟨afterReachable, extension, forms⟩ := inductionHypothesis
        (fun other member => clear other (List.mem_cons_of_mem _ member))
        formed.reachable formed.growth restRun
      exact ⟨afterReachable, step.trans extension,
        .cons (formed.of_extends afterReachable extension) forms⟩

theorem forms_implication
    {antecedent consequent : Key} {premise conclusion : Node}
    (premiseClear : base.Clear antecedent premise)
    (conclusionClear : base.Clear consequent conclusion)
    (later : base.LaterYields
      (implication (some antecedent) (some consequent)) key after) :
    base.Forms after key fun tree =>
      ∃ left right, base.Unfolds antecedent left ∧
        base.Unfolds consequent right ∧ tree = .implication left right := by
  obtain ⟨before, beforeReachable, growth, run⟩ := later
  obtain ⟨_, _, _, again, added⟩ := yields_implication
    beforeReachable.wellFormed (growth.node? premiseClear.stored)
    (growth.node? conclusionClear.stored)
  obtain ⟨rfl, rfl⟩ := run.unique again
  have grown := growth.trans added.extension
  have premiseStill :=
    premiseClear.of_extends reachable.wellFormed added.wellFormed grown
  have conclusionStill :=
    conclusionClear.of_extends reachable.wellFormed added.wellFormed grown
  refine added.forms growth (run.after_eq ▸ beforeReachable.step
    (.implication (some antecedent) (some consequent)))
    (fun levels => ?_) fun levels => ?_
  · rw [unfold_implication rfl, sideTree, sideTree, Option.map_some,
      Option.map_some, premiseStill.nameTree_eq, conclusionStill.nameTree_eq]
    exact ⟨trivial, premiseStill.resolved levels,
      conclusionStill.resolved levels⟩
  · rw [unfold_implication rfl, sideTree, sideTree, Option.map_some,
      Option.map_some, premiseStill.nameTree_eq, conclusionStill.nameTree_eq]
    exact fun settled => ⟨_, _,
      premiseClear.unfolds_of_settled reachable.wellFormed added.wellFormed
        grown settled.2.1,
      conclusionClear.unfolds_of_settled reachable.wellFormed
        added.wellFormed grown settled.2.2, rfl⟩

/-- The operands of a junction are the names that the given formulas offer. -/
theorem adds_junction
    {connective : Connective} {operands : List Key}
    (clear : ∀ operand ∈ operands, ∃ node, base.Clear operand node)
    {before : Registry} (wellFormed : before.WellFormed)
    (growth : base.Extends before)
    (run : before.Yields (junction connective operands) key after) :
    ∃ node names, before.Adds after key node ∧
      node.body = .junction connective names ∧
      ∀ name, name ∈ names ↔ ∃ operand ∈ operands, ∃ addition,
        base.Clear operand addition ∧ name ∈ addition.offered connective := by
  obtain ⟨additions, stored⟩ := additions_of_yields run
  have among {addition : Node} : addition ∈ additions ↔
      ∃ operand ∈ operands, base.Clear operand addition := by
    rw [mem_additions_iff stored]
    refine exists_congr fun operand => and_congr_right fun member => ?_
    obtain ⟨node, itself⟩ := clear operand member
    constructor
    · intro found
      obtain rfl := Option.some.inj
        ((growth.node? itself.stored).symm.trans found)
      exact itself
    · exact fun other => growth.node? other.stored
  have named : ∀ addition ∈ additions,
      before.binding addition.name ≠ none := by
    intro addition member
    obtain ⟨operand, _, itself⟩ := among.mp member
    rw [growth.bindings itself.bound]
    exact Option.some_ne_none operand
  have offered : ∀ addition ∈ additions,
      ∀ name ∈ addition.offered connective, before.binding name ≠ none := by
    intro addition member name offers
    obtain ⟨_, _, itself⟩ := among.mp member
    have still := itself.of_extends reachable.wellFormed wellFormed growth
    exact binding_ne_none_of_resolved (still.resolved_of_mem_offered offers 0)
  obtain ⟨node, added, body⟩ :=
    wellFormed.adds_gathered run stored named offered
  refine ⟨node, _, added, body, fun name => ?_⟩
  rw [mem_foldl_appendNew, or_iff_right List.not_mem_nil, List.mem_flatMap]
  simp only [among]
  constructor
  · rintro ⟨addition, ⟨operand, member, itself⟩, offers⟩
    exact ⟨operand, member, addition, itself, offers⟩
  · rintro ⟨operand, member, addition, itself, offers⟩
    exact ⟨addition, ⟨operand, member, itself⟩, offers⟩

theorem forms_junction
    {connective : Connective} {operands : List Key}
    (clear : ∀ operand ∈ operands, ∃ node, base.Clear operand node)
    (later : base.LaterYields (junction connective operands) key after) :
    base.Forms after key fun tree =>
      ∃ trees parts, List.Forall₂ base.Unfolds operands trees ∧
        (∀ part, part ∈ parts ↔
          part ∈ trees.flatMap (Tree.contributed connective)) ∧
        tree = .junction connective parts := by
  obtain ⟨before, beforeReachable, growth, run⟩ := later
  obtain ⟨_, names, added, body, gathered⟩ := adds_junction reachable clear
    beforeReachable.wellFormed growth run
  have grown := growth.trans added.extension
  have still {operand : Key} {node : Node} (itself : base.Clear operand node) :
      after.Clear operand node :=
    itself.of_extends reachable.wellFormed added.wellFormed grown
  refine added.forms growth (run.after_eq ▸ beforeReachable.step
    (.junction connective operands)) (fun levels => ?_) fun levels settled => ?_
  · rw [unfold_junction_resolved_iff body]
    intro name member
    obtain ⟨_, _, _, itself, offered⟩ := (gathered name).mp member
    exact (still itself).resolved_of_mem_offered offered levels
  · rw [unfold_junction body, Tree.settled_junction_iff, List.forall_mem_map]
      at settled
    rw [unfold_junction body]
    have whole {operand : Key} {node : Node} (member : operand ∈ operands)
        (itself : base.Clear operand node) :
        base.Unfolds operand (after.keyTree (levels + 1) operand) ∧
          (after.keyTree (levels + 1) operand).contributed connective =
            (node.offered connective).map (after.nameTree levels) := by
      obtain ⟨ends, contributes⟩ := (still itself).contributed_unfold
        fun name offered => settled name <|
          (gathered name).mpr ⟨operand, member, node, itself, offered⟩
      rw [keyTree_of_stored (still itself).stored]
      exact ⟨itself.unfolds_of_settled reachable.wellFormed
        added.wellFormed grown ends, contributes⟩
    refine ⟨operands.map (after.keyTree (levels + 1)), _, ?_, ?_, rfl⟩
    · rw [List.forall₂_map_right_iff, List.forall₂_same]
      intro operand member
      obtain ⟨_, itself⟩ := clear operand member
      exact (whole member itself).1
    · intro part
      simp only [List.mem_map, List.flatMap_map, List.mem_flatMap, gathered]
      constructor
      · rintro ⟨name, ⟨operand, member, _, itself, offered⟩, rfl⟩
        refine ⟨operand, member, ?_⟩
        rw [(whole member itself).2]
        exact List.mem_map_of_mem offered
      · rintro ⟨operand, member, contributes⟩
        obtain ⟨node, itself⟩ := clear operand member
        rw [(whole member itself).2] at contributes
        obtain ⟨name, offered, rfl⟩ := List.mem_map.mp contributes
        exact ⟨name, ⟨operand, member, node, itself, offered⟩, rfl⟩

/-! ### Formulas formed in several steps -/

theorem forms_negated_junction
    {connective : Connective} {operands : List Key}
    (clear : ∀ operand ∈ operands, ∃ node, base.Clear operand node)
    (later : base.LaterYields
      (do
        let joined ← junction connective operands
        negation joined) key after) :
    base.Forms after key fun tree =>
      ∃ trees parts, List.Forall₂ base.Unfolds operands trees ∧
        (∀ part, part ∈ parts ↔
          part ∈ trees.flatMap (Tree.contributed connective)) ∧
        tree = .negation (.junction connective parts) := by
  obtain ⟨before, beforeReachable, growth, run⟩ := later
  obtain ⟨joined, middle, first, second⟩ := yields_bind_iff.mp run
  have joins := forms_junction reachable clear
    ⟨before, beforeReachable, growth, first⟩
  obtain ⟨node, itself⟩ := joins.clear
  have negates := forms_negation joins.reachable itself
    (joins.reachable.laterYields second)
  refine negates.imp joins.growth ?_
  rintro _ ⟨part, unfolds, rfl⟩
  obtain ⟨trees, parts, operandsUnfold, gathered, rfl⟩ :=
    joins.shaped unfolds
  exact ⟨trees, parts, operandsUnfold, gathered, rfl⟩

omit reachable in
theorem exists_clear_of_forms
    {operands keys : List Key} {shape : Key → Tree → Prop}
    (forms : List.Forall₂
      (fun operand key => base.Forms after key (shape operand)) operands
      keys) :
    ∀ key ∈ keys, ∃ node, after.Clear key node := by
  induction forms with
  | nil => exact nofun
  | cons head _ inductionHypothesis =>
      exact List.forall_mem_cons.mpr ⟨head.clear, inductionHypothesis⟩

omit reachable in
theorem exists_negated_trees
    {operands negations : List Key} {negated : List Tree}
    (forms : List.Forall₂ (fun operand negation => base.Forms after negation
      fun tree => ∃ part, base.Unfolds operand part ∧
        tree = .negation part) operands negations)
    (unfolds : List.Forall₂ after.Unfolds negations negated) :
    ∃ trees, List.Forall₂ base.Unfolds operands trees ∧
      negated = trees.map Tree.negation := by
  induction forms generalizing negated with
  | nil =>
      cases unfolds
      exact ⟨[], .nil, rfl⟩
  | cons head _ inductionHypothesis =>
      obtain _ | ⟨headUnfolds, restUnfold⟩ := unfolds
      obtain ⟨tree, treeUnfolds, rfl⟩ := head.shaped headUnfolds
      obtain ⟨trees, rest, rfl⟩ := inductionHypothesis restUnfold
      exact ⟨tree :: trees, .cons treeUnfolds rest, rfl⟩

theorem forms_junction_of_negations
    {connective : Connective} {operands : List Key}
    (clear : ∀ operand ∈ operands, ∃ node, base.Clear operand node)
    (later : base.LaterYields
      (do
        let negations ← operands.mapM negation
        junction connective negations) key after) :
    base.Forms after key fun tree =>
      ∃ trees parts, List.Forall₂ base.Unfolds operands trees ∧
        (∀ part, part ∈ parts ↔ part ∈ trees.map Tree.negation) ∧
        tree = .junction connective parts := by
  obtain ⟨before, beforeReachable, growth, run⟩ := later
  obtain ⟨negations, middle, first, second⟩ := yields_bind_iff.mp run
  obtain ⟨middleReachable, extension, negates⟩ :=
    forms_negations reachable clear beforeReachable growth first
  have joins := forms_junction middleReachable (exists_clear_of_forms negates)
    (middleReachable.laterYields second)
  refine joins.imp (growth.trans extension) ?_
  rintro _ ⟨negated, parts, negatedUnfold, gathered, rfl⟩
  obtain ⟨trees, unfolds, rfl⟩ := exists_negated_trees negates negatedUnfold
  refine ⟨trees, parts, unfolds, fun part => ?_, rfl⟩
  rw [gathered, Tree.flatMap_contributed_of_not_joins]
  rw [List.forall_mem_map]
  exact fun _ _ => rfl

theorem forms_material_disjunction
    {antecedent consequent : Key} {premise conclusion : Node}
    (premiseClear : base.Clear antecedent premise)
    (conclusionClear : base.Clear consequent conclusion)
    (later : base.LaterYields
      (do
        let negated ← negation antecedent
        junction .disjunction [negated, consequent]) key after) :
    base.Forms after key fun tree =>
      ∃ left right parts, base.Unfolds antecedent left ∧
        base.Unfolds consequent right ∧
        (∀ part, part ∈ parts ↔
          part ∈ [Tree.negation left, right].flatMap
            (Tree.contributed .disjunction)) ∧
        tree = .junction .disjunction parts := by
  obtain ⟨before, beforeReachable, growth, run⟩ := later
  obtain ⟨negated, middle, first, second⟩ := yields_bind_iff.mp run
  have negates := forms_negation reachable premiseClear
    ⟨before, beforeReachable, growth, first⟩
  have middleWellFormed := negates.reachable.wellFormed
  have still := conclusionClear.of_extends reachable.wellFormed
    middleWellFormed negates.growth
  have bothClear : ∀ operand ∈ [negated, consequent],
      ∃ node, middle.Clear operand node := by
    simpa using ⟨negates.clear, _, still⟩
  have joins := forms_junction negates.reachable bothClear
    (negates.reachable.laterYields second)
  refine joins.imp negates.growth ?_
  rintro _ ⟨_, parts, negatedUnfolds | ⟨negatedUnfolds, _ | ⟨unfolds, ⟨⟩⟩⟩,
    gathered, rfl⟩
  obtain ⟨left, leftUnfolds, rfl⟩ := negates.shaped negatedUnfolds
  exact ⟨left, _, parts, leftUnfolds,
    (conclusionClear.unfolds_iff reachable.wellFormed middleWellFormed
      negates.growth).mp unfolds, gathered, rfl⟩

/-- A later simplification yields the simplification of the complete tree, which
does not reach beyond the levels there are. -/
theorem simplify_unfolds
    {node : Node} (clear : base.Clear key node) {result : Option Key}
    (later : base.LaterYields (simplify key) result after) :
    base.Unfolds key (base.unfold (base.levels 0 + 1) node) ∧
      Option.Rel after.Unfolds result
        (base.unfold (base.levels 0 + 1) node).simplify := by
  obtain ⟨before, beforeReachable, growth, run⟩ := later
  have wellFormed := beforeReachable.wellFormed
  have still := clear.of_extends reachable.wellFormed wellFormed growth
  obtain ⟨settled, outcome⟩ := run.simplify_unfolds wellFormed still.stored
    (still.resolved _)
  rw [growth.levels_eq 0, clear.unfold_eq reachable.wellFormed wellFormed
    growth] at settled outcome
  exact ⟨(unfolds_iff_of_stored clear.stored).mpr ⟨settled, _, rfl⟩, outcome⟩

end LaterYields

end Registry

end NamedLogic
