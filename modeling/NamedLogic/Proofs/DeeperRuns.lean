import NamedLogic.Proofs.DepthLimits
import NamedLogic.Proofs.NormalForms

/-!
# Simplification with a larger depth limit

Simplification asks structural equality whether operands repeat or cancel, and a
comparison that runs out of levels answers that they do not.  Still, a larger
limit makes no difference to a simplification that succeeds, provided that no
disjunctive normal form is met.  The operands it collects have normal trees with
no more tiers than there were levels when they were simplified, and so comparing
them never runs out of levels.  With a larger limit every run goes through the
same cases, and leaves the same registry behind but for the limit.
-/

namespace NamedLogic

namespace Registry

/-- A registry of which the tables are in step, in which the given number of
levels is less than a traversal is given at first, and of which the limit is not
above the given one. -/
structure Within (limit levels : Nat) (registry : Registry) : Prop where
  wellFormed : registry.WellFormed
  enough : levels < registry.levels 0
  lower : registry.levels 0 ≤ limit + 1

/-- What the first simplification yields, the second yields under the given
limit, and leaves the same registry behind but for the limit.  The formula is
bound to its own name, and nothing but elementary nodes is within reach. -/
def Carries
    (limit levels : Nat) (simplify deeper : Key → Update (Option Key)) :
    Prop :=
  ∀ ⦃before after : Registry⦄ ⦃key : Key⦄ ⦃result : Option Key⦄,
    Within limit levels before → before.Covers Node.Elementary .named key →
      before.Bound key → before.Yields (simplify key) result after →
        (before.withLimit limit).Yields (deeper key) result
          (after.withLimit limit)

section Within

variable {limit levels : Nat} {before after registry : Registry}

theorem Within.of_extends
    (within : Within limit levels before) (wellFormed : after.WellFormed)
    (extension : before.Extends after) : Within limit levels after where
  wellFormed := wellFormed
  enough := extension.levels_eq 0 ▸ within.enough
  lower := extension.levels_eq 0 ▸ within.lower

theorem Within.of_tracks
    {placement : Placement} {keys : List Key}
    (within : Within limit levels before)
    (tracks : before.Tracks Node.Elementary placement keys after) :
    Within limit levels after :=
  within.of_extends tracks.wellFormed tracks.annexes.extension

/-! ## Comparing operands -/

theorem binding_withLimit
    (registry : Registry) (limit : Nat) (name : Name) :
    (registry.withLimit limit).binding name = registry.binding name := rfl

theorem contribution_withLimit
    (registry : Registry) (limit : Nat) (connective : Connective)
    (operand : Key) :
    (registry.withLimit limit).contribution connective operand =
      registry.contribution connective operand := rfl

/-- Whatever presents a tree presents it under every limit. -/
theorem Presents.withLimit
    {placement : Placement} {key : Key} {tree : Tree}
    (presents : registry.Presents placement levels key tree) (limit : Nat) :
    (registry.withLimit limit).Presents placement levels key tree := by
  obtain ⟨⟨node, stored, shape⟩, bound⟩ := presents
  exact ⟨⟨node, stored, (unfold_withLimit levels node).trans shape⟩, bound⟩

theorem WellFormed.withLimit
    (wellFormed : registry.WellFormed) (limit : Nat) :
    (registry.withLimit limit).WellFormed :=
  wellFormed.configure _

/-- Operands with normal trees that do not reach below the levels are compared
alike under a larger limit. -/
theorem Within.reduce?_eq
    (within : Within limit levels registry) (connective : Connective)
    {operands : List Key} {trees : List Tree}
    (presents : List.Forall₂ (registry.Presents .named (levels + 1)) operands
      trees)
    (normal : ∀ tree ∈ trees, tree.Normal) :
    Pairing.reduce? connective (registry.withLimit limit).negates
        (registry.withLimit limit).alike operands =
      Pairing.reduce? connective registry.negates registry.alike
        operands := by
  have wellFormed := within.wellFormed
  have deep := wellFormed.withLimit limit
  have enough : levels + 1 ≤ (registry.withLimit limit).levels 0 :=
    Nat.le_trans within.enough within.lower
  have shows : ∀ operand ∈ operands,
      registry.Presents .named (levels + 1) operand
          (registry.keyTree (levels + 1) operand) ∧
        (registry.keyTree (levels + 1) operand).Normal := by
    intro operand member
    obtain ⟨shown, among⟩ := presents_of_mem presents member
    exact ⟨shown, normal _ among⟩
  refine Pairing.reduce?_congr connective ?_ ?_
  · intro left leftMember right rightMember
    obtain ⟨leftShown, leftNormal⟩ := shows left leftMember
    obtain ⟨rightShown, rightNormal⟩ := shows right rightMember
    rw [wellFormed.negates_eq leftShown rightShown leftNormal rightNormal
        within.enough,
      deep.negates_eq (leftShown.withLimit limit)
        (rightShown.withLimit limit) leftNormal rightNormal enough]
  · intro left leftMember right rightMember
    obtain ⟨leftShown, leftNormal⟩ := shows left leftMember
    obtain ⟨rightShown, rightNormal⟩ := shows right rightMember
    rw [wellFormed.alike_eq leftShown rightShown leftNormal rightNormal
        within.enough,
      deep.alike_eq (leftShown.withLimit limit) (rightShown.withLimit limit)
        leftNormal rightNormal enough]

end Within

/-! ## Runs -/

theorem DualRun.deeper
    {connective : Connective} {before after : Registry} {negated : List Key}
    {result : Option Key}
    (run : DualRun connective before negated result after) (limit : Nat) :
    DualRun connective (before.withLimit limit) negated result
      (after.withLimit limit) := by
  cases run with
  | empty => exact .empty _
  | single => exact .single _ _
  | several several run =>
      exact .several several ((indifferent_junction _ _).yields run limit)

section Runs

variable {limit levels deepLevels : Nat}
  (carries : Carries limit levels (simplifyWithin levels .named)
    (simplifyWithin deepLevels .named))

include carries

/-- Simplifying what a safe name is bound to. -/
theorem Carries.of_binding
    {before after : Registry} {name : Name} {operand : Key}
    {result : Option Key} (within : Within limit levels before)
    (safe : before.Safe Node.Elementary name)
    (bound : before.binding name = some operand)
    (run : before.Yields (simplifyWithin levels .named operand) result
      after) :
    before.Tracks Node.Elementary .named result.toList after ∧
      (before.withLimit limit).Yields
        (simplifyWithin deepLevels .named operand) result
        (after.withLimit limit) := by
  have wellFormed := within.wellFormed
  have covers := wellFormed.covers_of_binding safe bound .named
  have named := wellFormed.bound_of_binding bound
  exact ⟨(tracked_elementary before).tracks_of_yields within.enough wellFormed
    covers named run, carries within covers named run⟩

/-- Simplifying the negation of what a safe name is bound to. -/
theorem Carries.of_negation
    {before middle after : Registry} {name : Name} {operand negated : Key}
    {result : Option Key} (within : Within limit levels before)
    (safe : before.Safe Node.Elementary name)
    (bound : before.binding name = some operand)
    (negation : before.Yields (negation operand) negated middle)
    (run : middle.Yields (simplifyWithin levels .named negated) result
      after) :
    before.Tracks Node.Elementary .named result.toList after ∧
      (before.withLimit limit).Yields (Registry.negation operand) negated
        (middle.withLimit limit) ∧
      (middle.withLimit limit).Yields
        (simplifyWithin deepLevels .named negated) result
        (after.withLimit limit) := by
  obtain ⟨tracks, named⟩ := (tracked_elementary before).of_negation
    within.wellFormed (Extends.refl before)
    (within.wellFormed.covers_of_binding safe bound .named) negation
  have covers := tracks.covers negated (List.mem_singleton_self _)
  have later := within.of_tracks tracks
  refine ⟨tracks.followed ?_,
    (indifferent_negation operand).yields negation limit,
    carries later covers named run⟩
  exact (tracked_elementary middle).tracks_of_yields later.enough
    later.wellFormed covers named run

theorem OperandsRun.deeper
    {connective : Connective} {before after : Registry} {names : List Name}
    {result : List Key}
    (run : OperandsRun (simplifyWithin levels .named) connective before names
      result after)
    (within : Within limit levels before)
    (safe : ∀ name ∈ names, before.Safe Node.Elementary name) :
    OperandsRun (simplifyWithin deepLevels .named) connective
      (before.withLimit limit) names result (after.withLimit limit) := by
  induction run with
  | nil => exact .nil _
  | unbound unbound _ inductionHypothesis =>
      exact .unbound unbound (inductionHypothesis within fun other member =>
        safe other (List.mem_cons_of_mem _ member))
  | vanished bound run _ inductionHypothesis =>
      obtain ⟨tracks, carried⟩ :=
        carries.of_binding within (safe _ List.mem_cons_self) bound run
      exact .vanished bound carried
        (inductionHypothesis (within.of_tracks tracks) fun other member =>
          tracks.annexes.safe within.wellFormed
            (safe other (List.mem_cons_of_mem _ member)))
  | kept bound run _ inductionHypothesis =>
      obtain ⟨tracks, carried⟩ :=
        carries.of_binding within (safe _ List.mem_cons_self) bound run
      rw [← contribution_withLimit _ limit]
      exact .kept bound carried
        (inductionHypothesis (within.of_tracks tracks) fun other member =>
          tracks.annexes.safe within.wellFormed
            (safe other (List.mem_cons_of_mem _ member)))

theorem NegationsRun.deeper
    {before after : Registry} {names : List Name} {result : List Key}
    (run : NegationsRun (simplifyWithin levels .named) before names result
      after)
    (within : Within limit levels before)
    (safe : ∀ name ∈ names, before.Safe Node.Elementary name) :
    NegationsRun (simplifyWithin deepLevels .named) (before.withLimit limit)
      names result (after.withLimit limit) := by
  induction run with
  | nil => exact .nil _
  | unbound unbound _ inductionHypothesis =>
      exact .unbound unbound (inductionHypothesis within fun other member =>
        safe other (List.mem_cons_of_mem _ member))
  | negated bound negation run _ inductionHypothesis =>
      obtain ⟨tracks, negating, carried⟩ := carries.of_negation within
        (safe _ List.mem_cons_self) bound negation run
      exact .negated bound negating carried
        (inductionHypothesis (within.of_tracks tracks) fun other member =>
          tracks.annexes.safe within.wellFormed
            (safe other (List.mem_cons_of_mem _ member)))

theorem JunctionRun.deeper
    {placement : Placement} {key : Key} {connective : Connective}
    {before after : Registry} {names : List Name} {result : Option Key}
    (run : JunctionRun (simplifyWithin levels .named) placement key connective
      before names result after)
    (within : Within limit levels before)
    (safe : ∀ name ∈ names, before.Safe Node.Elementary name) :
    JunctionRun (simplifyWithin deepLevels .named) placement key connective
      (before.withLimit limit) names result (after.withLimit limit) := by
  have collects : ∀ {operands : List Key} {middle : Registry},
      OperandsRun (simplifyWithin levels .named) connective before names
        operands middle →
        Pairing.reduce? connective (middle.withLimit limit).negates
            (middle.withLimit limit).alike operands =
          Pairing.reduce? connective middle.negates middle.alike
            operands := by
    intro operands middle collected
    obtain ⟨wellFormed, annexes, trees, presents, flat⟩ :=
      collected.presents_collected within.wellFormed within.enough safe
    exact (within.of_extends wellFormed annexes.extension).reduce?_eq
      connective presents fun tree member => (flat tree member).1
  cases run with
  | decided collected decided =>
      exact .decided (collected.deeper carries within safe)
        ((collects collected).trans decided)
  | empty collected reduced =>
      exact .empty (collected.deeper carries within safe)
        ((collects collected).trans reduced)
  | single collected reduced =>
      exact .single (collected.deeper carries within safe)
        ((collects collected).trans reduced)
  | dropped collected reduced several missing =>
      exact .dropped (collected.deeper carries within safe)
        ((collects collected).trans reduced) several missing
  | rebuilt collected reduced several stored run =>
      exact .rebuilt (collected.deeper carries within safe)
        ((collects collected).trans reduced) several stored
        ((indifferent_rebuild _ _ _ _).yields run limit)

theorem NegationRun.deeper
    {key : Key} {operand : Name} {before after : Registry}
    {result : Option Key}
    (run : NegationRun (simplifyWithin levels .named) key before operand
      result after)
    (within : Within limit levels before)
    (safe : before.Safe Node.Elementary operand) :
    NegationRun (simplifyWithin deepLevels .named) key
      (before.withLimit limit) operand result (after.withLimit limit) := by
  have simplifies : ∀ {operandKey : Key} {node : Node}
      {simplified : Option Key} {middle : Registry},
      before.resolve operand = some (operandKey, node) →
      before.Yields (simplifyWithin levels .named operandKey) simplified
        middle →
        before.Tracks Node.Elementary .named simplified.toList middle ∧
          (before.withLimit limit).Yields
            (simplifyWithin deepLevels .named operandKey) simplified
            (middle.withLimit limit) :=
    fun resolved run => carries.of_binding within safe
      (resolve_eq_some_iff.mp resolved).1 run
  cases run with
  | unresolved unresolved => exact .unresolved unresolved
  | atom resolved isAtom => exact .atom resolved isAtom
  | vanished resolved compound run =>
      exact .vanished resolved compound (simplifies resolved run).2
  | dropped resolved compound run missing =>
      exact .dropped resolved compound (simplifies resolved run).2 missing
  | negation resolved compound run stored body =>
      rw [← binding_withLimit _ limit]
      exact .negation resolved compound (simplifies resolved run).2 stored
        body
  | junction resolved compound run stored body negations dual =>
      obtain ⟨tracks, carried⟩ := simplifies resolved run
      obtain ⟨throughout, _⟩ :=
        (tracks.covers _ (List.mem_singleton_self _)).of_stored stored
      have negating := negations.deeper carries (within.of_tracks tracks)
        fun name member =>
          throughout.safe (Node.mem_lookups_of_junction body member)
      exact .junction resolved compound carried stored body negating
        (dual.deeper limit)
  | other resolved compound run stored noNegation noJunction negation =>
      exact .other resolved compound (simplifies resolved run).2 stored
        noNegation noJunction
        ((indifferent_negation _).yields negation limit)

theorem ImplicationRun.deeper
    {antecedent consequent : Option Name} {before after : Registry}
    {result : Option Key}
    (run : ImplicationRun (simplifyWithin levels .named) before antecedent
      consequent result after)
    (within : Within limit levels before)
    (premiseSafe : ∀ name ∈ antecedent, before.Safe Node.Elementary name)
    (conclusionSafe :
      ∀ name ∈ consequent, before.Safe Node.Elementary name) :
    ImplicationRun (simplifyWithin deepLevels .named)
      (before.withLimit limit) antecedent consequent result
      (after.withLimit limit) := by
  -- The antecedent is negated and simplified wherever there is one.
  have premises : ∀ {premise negated : Key} {left : Option Key}
      {second third : Registry},
      antecedent.bind before.binding = some premise →
      before.Yields (negation premise) negated second →
      second.Yields (simplifyWithin levels .named negated) left third →
        before.Tracks Node.Elementary .named left.toList third ∧
          (before.withLimit limit).Yields (negation premise) negated
            (second.withLimit limit) ∧
          (second.withLimit limit).Yields
            (simplifyWithin deepLevels .named negated) left
            (third.withLimit limit) := by
    intro premise negated left second third bound negation run
    obtain ⟨name, named, bound⟩ := Option.bind_eq_some_iff.mp bound
    exact carries.of_negation within (premiseSafe name named) bound negation
      run
  -- The consequent is simplified after it, if both are there.
  have conclusions : ∀ {conclusion : Key} {left right : Option Key}
      {third fourth : Registry},
      before.Tracks Node.Elementary .named left.toList third →
      consequent.bind before.binding = some conclusion →
      third.Yields (simplifyWithin levels .named conclusion) right fourth →
        third.Tracks Node.Elementary .named right.toList fourth ∧
          (third.withLimit limit).Yields
            (simplifyWithin deepLevels .named conclusion) right
            (fourth.withLimit limit) := by
    intro conclusion left right third fourth tracks bound run
    obtain ⟨name, named, bound⟩ := Option.bind_eq_some_iff.mp bound
    exact carries.of_binding (within.of_tracks tracks)
      (tracks.annexes.safe within.wellFormed (conclusionSafe name named))
      (tracks.annexes.extension.bindings bound) run
  cases run with
  | neither noPremise noConclusion => exact .neither noPremise noConclusion
  | conclusion noPremise bound run =>
      obtain ⟨name, named, binding⟩ := Option.bind_eq_some_iff.mp bound
      exact .conclusion noPremise bound (carries.of_binding within
        (conclusionSafe name named) binding run).2
  | premise bound noConclusion negation run =>
      obtain ⟨_, negating, carried⟩ := premises bound negation run
      exact .premise bound noConclusion negating carried
  | oneSide premiseBound conclusionBound negation leftRun rightRun oneSide =>
      obtain ⟨tracks, negating, left⟩ :=
        premises premiseBound negation leftRun
      obtain ⟨_, right⟩ := conclusions tracks conclusionBound rightRun
      exact .oneSide premiseBound conclusionBound negating left right oneSide
  | bothSides premiseBound conclusionBound negation leftRun rightRun joined
      run =>
      obtain ⟨leftTracks, negating, left⟩ :=
        premises premiseBound negation leftRun
      obtain ⟨rightTracks, right⟩ :=
        conclusions leftTracks conclusionBound rightRun
      have tracks := leftTracks.append rightTracks
      obtain ⟨further, named⟩ := (tracked_elementary before).of_junction
        tracks.wellFormed tracks.annexes.extension tracks.covers joined
      exact .bothSides premiseBound conclusionBound negating left right
        ((indifferent_junction _ _).yields joined limit)
        (carries ((within.of_tracks tracks).of_tracks further)
          (further.covers _ (List.mem_singleton_self _)) named run)

theorem FormulaRun.deeper
    {placement : Placement} {key : Key} {before after : Registry}
    {result : Option Key}
    (run : FormulaRun (simplifyWithin levels .named) placement before key
      result after)
    (within : Within limit levels before)
    (covers : ∀ node, before.node? key = some node →
      before.Throughout Node.Elementary node) :
    FormulaRun (simplifyWithin deepLevels .named) placement
      (before.withLimit limit) key result (after.withLimit limit) := by
  cases run with
  | missing missing => exact .missing missing
  | atom stored body => exact .atom stored body
  | negation stored body run =>
      exact .negation stored body (run.deeper carries within
        ((covers _ stored).safe (Node.mem_lookups_of_negation body)))
  | junction stored body run =>
      exact .junction stored body (run.deeper carries within
        fun name member =>
          (covers _ stored).safe (Node.mem_lookups_of_junction body member))
  | implication stored body run =>
      obtain ⟨left, right⟩ := Node.mem_lookups_of_implication body
      exact .implication stored body (run.deeper carries within
        (fun name named => (covers _ stored).safe (left name named))
        fun name named => (covers _ stored).safe (right name named))
  | dnf stored body => exact .dnf stored body

end Runs

theorem carries_simplifyWithin
    {limit levels deepLevels : Nat} (more : levels ≤ deepLevels) :
    Carries limit levels (simplifyWithin levels .named)
      (simplifyWithin deepLevels .named) := by
  induction levels generalizing deepLevels with
  | zero =>
      intro before after key result _ _ _ run
      exact (not_yields_simplifyWithin_zero run).elim
  | succ levels inductionHypothesis =>
      intro before after key result within covers _ run
      cases deepLevels with
      | zero => exact (Nat.not_succ_le_zero _ more).elim
      | succ deepLevels =>
          have carries := inductionHypothesis (Nat.le_of_succ_le_succ more)
          have fewer : Within limit levels before :=
            ⟨within.wellFormed, Nat.lt_of_succ_lt within.enough,
              within.lower⟩
          exact ((formulaRun_of_yields run).deeper carries fewer
            fun node stored => (covers.of_stored stored).1).yields

/-! ## The limit is a guard -/

/-- What simplification yields it yields under a larger limit, and leaves the same
registry behind but for the limit. -/
theorem WellFormed.simplify_of_limit_le
    {registry final : Registry} (wellFormed : registry.WellFormed)
    {limit : Nat} (more : registry.settings.depthLimit.value ≤ limit)
    {key : Key} {result : Option Key}
    (plain : ∀ node part, registry.node? key = some node →
      registry.Meets node part →
        ∀ atoms rows generated, part.body ≠ .dnf atoms rows generated)
    (run : registry.Yields (simplify key) result final) :
    (registry.withLimit limit).Yields (simplify key) result
      (final.withLimit limit) := by
  have within : Within limit (registry.levels 1) registry :=
    ⟨wellFormed, Nat.lt_succ_self _, levels_le_of_limit_le more⟩
  have run : registry.Yields
      (simplifyWithin (registry.levels 1 + 1) .detached key) result final :=
    yields_get_bind_iff.mp run
  refine yields_get_bind_iff.mpr ?_
  exact ((formulaRun_of_yields run).deeper (carries_simplifyWithin more)
    within fun node stored =>
      throughout_elementary fun part => plain node part stored).yields

/-- The depth limit is only a guard.  Whatever the limit of a registry, raising it
changes no answer that was given: a value found by either logic under any
valuation is found again, formulas that are structurally equal still are, and a
simplification that succeeds without meeting a disjunctive normal form yields the
same, and leaves the same registry behind but for the limit. -/
theorem Reachable.limit_is_only_a_guard
    {registry : Registry} (reachable : registry.Reachable) {limit : Nat}
    (more : registry.settings.depthLimit.value ≤ limit) :
    (∀ key (valuation : Valuation Bool) outcome,
      registry.evaluate valuation key = .ok outcome →
        (registry.withLimit limit).evaluate valuation key = .ok outcome) ∧
      (∀ key (valuation : Valuation Four) outcome,
        registry.evaluate valuation key = .ok outcome →
          (registry.withLimit limit).evaluate valuation key =
            .ok outcome) ∧
      (∀ left right, registry.alike left right = true →
        (registry.withLimit limit).alike left right = true) ∧
      ∀ key,
        (∀ node part, registry.node? key = some node →
          registry.Meets node part → ∀ atoms rows generated,
            part.body ≠ .dnf atoms rows generated) →
        ∀ result final, registry.Yields (simplify key) result final →
          (registry.withLimit limit).Yields (simplify key) result
            (final.withLimit limit) :=
  ⟨fun _ _ _ => evaluate_of_limit_le more,
    fun _ _ _ => evaluate_of_limit_le more,
    fun _ _ => alike_of_limit_le more,
    fun _ plain _ _ =>
      reachable.wellFormed.simplify_of_limit_le more plain⟩

/-- With a limit of two, a conjunction is simplified of which one operand is the
double negation of another.  The traversals reach the limit, and the operands
recur under any larger limit as well. -/
theorem limit_is_only_a_guard_at_double_negation :
    let settings : Settings := {}
    let registry := replay
      [.configure
          { settings with
            depthLimit := { settings.depthLimit with value := 2 } },
        .atom "p", .atom "q", .negation ⟨2⟩, .negation ⟨3⟩,
        .junction .conjunction [⟨1⟩, ⟨4⟩, ⟨2⟩]]
    let final := registry.after (simplify ⟨5⟩)
    registry.settings.depthLimit.value ≤ 1024 ∧
      registry.Yields (simplify ⟨5⟩) (some ⟨6⟩) final ∧
      final.node? ⟨6⟩ =
        some { name := 4, body := .junction .conjunction [0, 1] } ∧
      (registry.withLimit 1024).Yields (simplify ⟨5⟩) (some ⟨6⟩)
        (final.withLimit 1024) := by
  intro settings registry final
  have reachable : registry.Reachable := reachable_replay _
  have more : registry.settings.depthLimit.value ≤ 1024 := by decide +kernel
  have run : registry.Yields (simplify ⟨5⟩) (some ⟨6⟩) final :=
    yields_after (by decide +kernel)
  have closed : ∀ node ∈ registry.stock,
      registry.successors node ⊆ registry.stock := by decide +kernel
  obtain ⟨_, _, _, simplifies⟩ := reachable.limit_is_only_a_guard more
  refine ⟨more, run, by decide +kernel, simplifies ⟨5⟩ ?_ _ final run⟩
  exact fun node part stored => plain_of_closed closed (by decide +kernel)
    (mem_stock_iff.mpr ⟨_, stored⟩) part

end Registry

end NamedLogic
