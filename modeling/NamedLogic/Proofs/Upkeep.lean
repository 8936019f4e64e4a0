import NamedLogic.Proofs.Coverage
import NamedLogic.Proofs.Outcomes

/-!
# What simplification upholds

Simplification does few things.  It makes negations and junctions, rebuilds
junctions from the operands that remain of them, and yields formulas that it
finds.  A condition on registries that the former keep, and a statement about
results that all of these bear out, hold in every course of simplification that
comes upon nodes that fit.  Nothing but the depth limit ends it early, and the
condition is kept in that case as well.
-/

namespace NamedLogic

namespace Registry

section Statement

variable (base : Registry) (fits : Node → Prop) (keeps : Registry → Prop)
  (tells : Registry → List Key → Registry → Prop)

/-- The second registry only adds nodes that fit, satisfies the condition, and
bears out the statement for the keys, unless they are detached. -/
structure Upholds
    (before : Registry) (placement : Placement) (keys : List Key)
    (after : Registry) : Prop where
  tracks : before.Tracks fits placement keys after
  kept : keeps after
  told : placement = .named → tells before keys after

/-- A condition on registries and a statement about results which are upheld by
each thing that simplification does. -/
structure Upheld : Prop where
  negation : ∀ {registry : Registry} {operand : Key},
    keeps registry → registry.Bound operand →
      keeps (registry.after (negation operand))
  nil : ∀ registry : Registry, tells registry [] registry
  sublist : ∀ {before after : Registry} {keys fewer : List Key},
    tells before keys after → fewer.Sublist keys → tells before fewer after
  earlier : ∀ {before middle after : Registry} {keys : List Key},
    before.Extends middle → tells middle keys after → tells before keys after
  append : ∀ {before middle after : Registry} {keys more : List Key},
    Upholds fits keeps tells before .named keys middle →
      Upholds fits keeps tells middle .named more after →
        tells before (keys ++ more) after
  atom : ∀ {registry : Registry} {key : Key} {node : Node},
    base.Extends registry → registry.Bound key →
      registry.node? key = some node → node.body = .atom →
        tells registry [key] registry
  literal : ∀ {registry : Registry} {key operandKey : Key}
    {node operandNode : Node} {operand : Name},
    base.Extends registry → 2 ≤ base.levels 0 → registry.Bound key →
      registry.node? key = some node → node.body = .negation operand →
        registry.resolve operand = some (operandKey, operandNode) →
          operandNode.isAtom → tells registry [key] registry
  generated : ∀ {registry : Registry} {node : Node} {atoms : List Name}
    {rows : UInt64} {formula : Key},
    registry.WellFormed → base.Extends registry → fits node →
      node.body = .dnf atoms rows (some formula) →
        tells registry [formula] registry
  contribution : ∀ {before after : Registry} {key : Key}
    (connective : Connective),
    Upholds fits keeps tells before .named [key] after →
      tells before (after.contribution connective key) after
  inner : ∀ {before after : Registry} {key operandKey : Key} {node : Node}
    {operand : Name},
    Upholds fits keeps tells before .named [key] after →
      after.node? key = some node → node.body = .negation operand →
        after.binding operand = some operandKey →
          tells before [operandKey] after
  negated : ∀ {before middle after : Registry} {operand key : Key},
    Upholds fits keeps tells before .named [operand] middle →
      middle.Yields (Registry.negation operand) key after →
        keeps after ∧ tells before [key] after
  joined : ∀ {before middle after : Registry} {connective : Connective}
    {operands : List Key} {key : Key},
    Upholds fits keeps tells before .named operands middle →
      middle.Yields (Registry.junction connective operands) key after →
        keeps after ∧ tells before [key] after
  rebuilt : ∀ {before middle after : Registry} {connective : Connective}
    {operands remaining : List Key} {node : Node} {key : Key},
    Upholds fits keeps tells before .named operands middle →
      Pairing.reduce? connective middle.negates middle.alike operands =
        some remaining →
        middle.Yields (rebuild .named node connective remaining) key after →
          keeps after ∧ tells before [key] after

/-- A registry in the course of a simplification. -/
structure Underway (registry : Registry) : Prop where
  wellFormed : registry.WellFormed
  since : base.Extends registry
  kept : keeps registry

/-- Only the depth limit ends a simplification early, and the condition is kept
in that case as well. -/
def Abandons (cause : LogicError) (registry : Registry) : Prop :=
  cause = .depthExceeded ∧ keeps registry

/-- Condition and statement are upheld when formulas that are bound to their
names are simplified. -/
def UpheldBy (simplify : Key → Update (Option Key)) : Prop :=
  ∀ ⦃registry : Registry⦄ ⦃key : Key⦄, Underway base keeps registry →
    registry.Covers fits .named key → registry.Bound key →
      registry.Ensures (simplify key)
        (fun result => Upholds fits keeps tells registry .named result.toList)
        (Abandons keeps)

end Statement

section Upkeep

variable {base : Registry} {fits : Node → Prop} {keeps : Registry → Prop}
  {tells : Registry → List Key → Registry → Prop}

/-! ## Sequences -/

theorem Underway.upholds
    {before after : Registry} {placement : Placement} {keys : List Key}
    (underway : Underway base keeps before)
    (upholds : Upholds fits keeps tells before placement keys after) :
    Underway base keeps after :=
  ⟨upholds.tracks.wellFormed,
    underway.since.trans upholds.tracks.annexes.extension, upholds.kept⟩

variable (upheld : Upheld base fits keeps tells)

theorem Upholds.of_named
    {before after : Registry} {keys : List Key}
    (upholds : Upholds fits keeps tells before .named keys after)
    (placement : Placement) :
    Upholds fits keeps tells before placement keys after :=
  ⟨upholds.tracks.of_named placement, upholds.kept,
    fun _ => upholds.told rfl⟩

include upheld

theorem Upheld.nothing
    {registry : Registry} (underway : Underway base keeps registry)
    (placement : Placement) :
    Upholds fits keeps tells registry placement [] registry :=
  ⟨Tracks.nil underway.wellFormed, underway.kept,
    fun _ => upheld.nil registry⟩

theorem Upheld.fewer
    {before after : Registry} {placement : Placement}
    {keys fewer : List Key}
    (upholds : Upholds fits keeps tells before placement keys after)
    (sublist : fewer.Sublist keys) :
    Upholds fits keeps tells before placement fewer after where
  tracks := ⟨upholds.tracks.wellFormed, upholds.tracks.annexes,
    fun key member => upholds.tracks.covers key (sublist.subset member)⟩
  kept := upholds.kept
  told named := upheld.sublist (upholds.told named) sublist

theorem Upheld.followed
    {before middle after : Registry} {placement other : Placement}
    {keys more : List Key}
    (first : Upholds fits keeps tells before other keys middle)
    (second : Upholds fits keeps tells middle placement more after) :
    Upholds fits keeps tells before placement more after where
  tracks := first.tracks.followed second.tracks
  kept := second.kept
  told named :=
    upheld.earlier first.tracks.annexes.extension (second.told named)

theorem Upheld.appended
    {before middle after : Registry} {keys more : List Key}
    (first : Upholds fits keeps tells before .named keys middle)
    (second : Upholds fits keeps tells middle .named more after) :
    Upholds fits keeps tells before .named (keys ++ more) after where
  tracks := first.tracks.append second.tracks
  kept := second.kept
  told _ := upheld.append first second

/-! ## Constructors -/

section Constructors

variable (tracked : base.Tracked fits) {before registry : Registry}
  (underway : Underway base keeps registry)

include tracked underway

/-- The negation of what is within reach may be simplified in turn. -/
theorem Upheld.negate
    {operand : Key} (covers : registry.Covers fits .named operand)
    (named : registry.Bound operand) :
    ∃ key after, registry.Yields (Registry.negation operand) key after ∧
      Upholds fits keeps tells registry .named [] after ∧
      after.Covers fits .named key ∧ after.Bound key := by
  obtain ⟨key, after, run, tracks, bound⟩ :=
    tracked.negation underway.wellFormed underway.since covers
  refine ⟨key, after, run, ⟨?_, ?_, fun _ => ?_⟩,
    tracks.covers key (List.mem_singleton_self key), bound⟩
  · exact ⟨tracks.wellFormed, tracks.annexes, by simp⟩
  · exact run.after_eq ▸ upheld.negation underway.kept named
  · exact upheld.earlier tracks.annexes.extension (upheld.nil after)

theorem Upheld.negateResult
    {operand : Key}
    (upholds : Upholds fits keeps tells before .named [operand] registry) :
    ∃ key after, registry.Yields (Registry.negation operand) key after ∧
      Upholds fits keeps tells before .named [key] after := by
  obtain ⟨key, after, run, tracks, _⟩ :=
    tracked.negation underway.wellFormed underway.since
      (upholds.tracks.covers operand (List.mem_singleton_self operand))
  obtain ⟨kept, told⟩ := upheld.negated upholds run
  exact ⟨key, after, run, upholds.tracks.followed tracks, kept,
    fun _ => told⟩

theorem Upheld.joinResults
    (connective : Connective) {operands : List Key}
    (upholds : Upholds fits keeps tells before .named operands registry) :
    ∃ key after,
      registry.Yields (Registry.junction connective operands) key after ∧
        Upholds fits keeps tells before .named [key] after ∧
        after.Bound key := by
  obtain ⟨key, after, run, tracks, bound⟩ :=
    tracked.junction underway.wellFormed underway.since connective
      upholds.tracks.covers
  obtain ⟨kept, told⟩ := upheld.joined upholds run
  exact ⟨key, after, run,
    ⟨upholds.tracks.followed tracks, kept, fun _ => told⟩, bound⟩

/-- Negated operands are joined if there are several. -/
theorem Upheld.joinNegated
    (connective : Connective) {negated : List Key}
    (upholds : Upholds fits keeps tells before .named negated registry) :
    registry.Ensures
      (match negated with
      | [] => pure none
      | [single] => pure (some single)
      | negated => do
          let dual ← Registry.junction connective.dual negated
          pure (some dual))
      (fun result => Upholds fits keeps tells before .named result.toList)
      (Abandons keeps) := by
  split
  · exact ensures_pure upholds
  · exact ensures_pure upholds
  · obtain ⟨dual, after, run, joined, _⟩ :=
      upheld.joinResults tracked underway connective.dual upholds
    exact run.ensures_bind (ensures_pure joined)

end Constructors

/-! ## The parts of simplification -/

section Parts

variable (tracked : base.Tracked fits)
  {simplify : Key → Update (Option Key)}
  (simplifyUpholds : UpheldBy base fits keeps tells simplify)
  {registry : Registry} (underway : Underway base keeps registry)

include simplifyUpholds underway

theorem Upheld.simplifyOperands
    (connective : Connective) {names : List Name}
    (safe : ∀ name ∈ names, registry.Safe fits name) :
    registry.Ensures (simplifyOperands simplify connective names)
      (Upholds fits keeps tells registry .named) (Abandons keeps) := by
  induction names generalizing registry with
  | nil => exact ensures_pure (upheld.nothing underway .named)
  | cons name names inductionHypothesis =>
      have later : ∀ {middle : Registry} {keys : List Key},
          Upholds fits keeps tells registry .named keys middle →
            middle.Ensures
              (Registry.simplifyOperands simplify connective names)
              (Upholds fits keeps tells middle .named) (Abandons keeps) :=
        fun upholds => inductionHypothesis (underway.upholds upholds)
          fun other member => upholds.tracks.annexes.safe
            underway.wellFormed (safe other (List.mem_cons_of_mem _ member))
      refine ensures_get_bind ?_
      cases bound : registry.binding name with
      | none => exact later (upheld.nothing underway .named)
      | some operand =>
          have covers := underway.wellFormed.covers_of_binding
            (safe name List.mem_cons_self) bound .named
          refine (simplifyUpholds underway covers
            (underway.wellFormed.bound_of_binding bound)).bind ?_
          intro result middle _ upholds
          cases result with
          | none => exact (later upholds).mono (upheld.followed upholds) id
          | some simplified =>
              refine ensures_get_bind ?_
              have tracks := upholds.tracks
              have front : Upholds fits keeps tells registry .named
                  (middle.contribution connective simplified) middle :=
                ⟨⟨tracks.wellFormed, tracks.annexes,
                  tracks.wellFormed.covers_contribution connective
                    (tracks.covers simplified
                      (List.mem_singleton_self _))⟩,
                  upholds.kept,
                  fun _ => upheld.contribution connective upholds⟩
              exact (later upholds).bind_pure (upheld.appended front)

include tracked

theorem Upheld.simplifyNegations
    {names : List Name} (safe : ∀ name ∈ names, registry.Safe fits name) :
    registry.Ensures (simplifyNegations simplify names)
      (Upholds fits keeps tells registry .named) (Abandons keeps) := by
  induction names generalizing registry with
  | nil => exact ensures_pure (upheld.nothing underway .named)
  | cons name names inductionHypothesis =>
      have later : ∀ {middle : Registry} {keys : List Key},
          Upholds fits keeps tells registry .named keys middle →
            middle.Ensures (Registry.simplifyNegations simplify names)
              (Upholds fits keeps tells middle .named) (Abandons keeps) :=
        fun upholds => inductionHypothesis (underway.upholds upholds)
          fun other member => upholds.tracks.annexes.safe
            underway.wellFormed (safe other (List.mem_cons_of_mem _ member))
      refine ensures_get_bind ?_
      cases bound : registry.binding name with
      | none => exact later (upheld.nothing underway .named)
      | some operand =>
          obtain ⟨negated, middle, negating, upholds, covers, named⟩ :=
            upheld.negate tracked underway
              (underway.wellFormed.covers_of_binding
                (safe name List.mem_cons_self) bound .named)
              (underway.wellFormed.bound_of_binding bound)
          refine negating.ensures_bind ?_
          refine (simplifyUpholds (underway.upholds upholds) covers
            named).bind ?_
          intro front next _ further
          have upTo := upheld.followed upholds further
          exact (later upTo).bind_pure (upheld.appended upTo)

/-- What is upheld where the junction is rebuilt is upheld altogether. -/
theorem Upheld.simplifyJunction
    (placement : Placement) {key : Key} {node : Node}
    (stored : registry.node? key = some node)
    (throughout : registry.Throughout fits node)
    {connective : Connective} {names : List Name}
    (body : node.body = .junction connective names)
    (rebuilds : ∀ {operands remaining : List Key} {middle after : Registry}
      {rebuilt : Key},
      registry.Yields
          (Registry.simplifyOperands simplify connective names) operands
          middle →
        Upholds fits keeps tells registry .named operands middle →
        Pairing.reduce? connective middle.negates middle.alike operands =
          some remaining →
        middle.Yields (rebuild placement node connective remaining) rebuilt
          after →
          keeps after ∧ (placement = .named → tells registry [rebuilt] after)) :
    registry.Ensures
      (simplifyJunction simplify placement key connective names)
      (fun result => Upholds fits keeps tells registry placement result.toList)
      (Abandons keeps) := by
  have safe : ∀ name ∈ names, registry.Safe fits name := by
    intro name member
    exact throughout.safe (by simpa [Node.lookups, body, Body.references])
  refine (upheld.simplifyOperands simplifyUpholds underway connective
    safe).bind ?_
  intro operands middle run upholds
  have nothing := upheld.followed upholds
    (upheld.nothing (underway.upholds upholds) placement)
  refine ensures_get_bind ?_
  split
  · exact ensures_pure nothing
  · exact ensures_pure nothing
  · rename_i single reduced
    have member : single ∈ operands :=
      Pairing.subset_of_reduce? reduced (List.mem_singleton_self single)
    exact ensures_pure ((upheld.fewer upholds
      (List.singleton_sublist.mpr member)).of_named placement)
  · rename_i remaining _ _ reduced
    have tracks := upholds.tracks
    rw [tracks.annexes.extension.node? stored]
    obtain ⟨rebuilt, after, rebuilding, further⟩ :=
      tracked.rebuild tracks.wellFormed
        (underway.since.trans tracks.annexes.extension)
        (tracks.annexes.extension.node? stored) throughout.self placement
        connective fun operand member =>
          tracks.covers operand (Pairing.subset_of_reduce? reduced member)
    obtain ⟨kept, told⟩ := rebuilds run upholds reduced rebuilding
    exact rebuilding.ensures_bind
      (ensures_pure ⟨tracks.followed further, kept, told⟩)

theorem Upheld.simplifyNegation
    (placement : Placement)
    (deep : placement = .named → 2 ≤ base.levels 0) {key : Key} {node : Node}
    (covers : registry.Covers fits placement key)
    (named : placement = .named → registry.Bound key)
    (stored : registry.node? key = some node) {operand : Name}
    (body : node.body = .negation operand) :
    registry.Ensures (simplifyNegation simplify key operand)
      (fun result => Upholds fits keeps tells registry placement result.toList)
      (Abandons keeps) := by
  have safe : registry.Safe fits operand :=
    (covers.of_stored stored).1.safe (Node.mem_lookups_of_negation body)
  refine ensures_get_bind ?_
  split
  · exact ensures_pure (upheld.nothing underway placement)
  · rename_i operandKey operandNode resolution
    split
    · rename_i isAtom
      exact ensures_pure ⟨Tracks.single underway.wellFormed covers,
        underway.kept, fun isNamed => upheld.literal underway.since
          (deep isNamed) (named isNamed) stored body resolution isAtom⟩
    · obtain ⟨bound, _⟩ := resolve_eq_some_iff.mp resolution
      refine (simplifyUpholds underway
        (underway.wellFormed.covers_of_binding safe bound .named)
        (underway.wellFormed.bound_of_binding bound)).bind ?_
      intro result middle _ upholds
      cases result with
      | none => exact ensures_pure (upholds.of_named placement)
      | some simplified =>
          have middleUnderway := underway.upholds upholds
          have tracks := upholds.tracks
          obtain ⟨simple, simpleStored, simpleThroughout, _⟩ :=
            tracks.covers simplified (List.mem_singleton_self _)
          refine ensures_get_bind ?_
          rw [simpleStored, Option.map_some]
          cases simpleBody : simple.body with
          | negation inner =>
              have innerSafe : middle.Safe fits inner :=
                simpleThroughout.safe
                  (by simp [Node.lookups, simpleBody, Body.references])
              refine ensures_pure ?_
              cases innerBound : middle.binding inner with
              | none =>
                  exact upheld.followed upholds
                    (upheld.nothing middleUnderway placement)
              | some innerKey =>
                  refine ⟨⟨tracks.wellFormed, tracks.annexes, ?_⟩,
                    upholds.kept, fun _ => upheld.inner upholds
                      simpleStored simpleBody innerBound⟩
                  intro other member
                  obtain rfl := List.mem_singleton.mp member
                  exact tracks.wellFormed.covers_of_binding innerSafe
                    innerBound placement
          | junction connective names =>
              have namesSafe : ∀ name ∈ names, middle.Safe fits name := by
                intro name member
                exact simpleThroughout.safe
                  (by simpa [Node.lookups, simpleBody, Body.references])
              refine (upheld.simplifyNegations tracked simplifyUpholds
                middleUnderway namesSafe).bind ?_
              intro negated next _ further
              refine (upheld.joinNegated tracked
                (middleUnderway.upholds further) connective further).mono
                  ?_ id
              exact fun last =>
                (upheld.followed upholds last).of_named placement
          | atom | implication antecedent consequent
          | dnf atoms rows generated =>
              obtain ⟨negated, after, run, further⟩ :=
                upheld.negateResult tracked middleUnderway upholds
              exact run.ensures_bind
                (ensures_pure (further.of_named placement))

theorem Upheld.simplifyImplication
    {node : Node} (throughout : registry.Throughout fits node)
    {antecedent consequent : Option Name}
    (body : node.body = .implication antecedent consequent) :
    registry.Ensures
      (simplifyImplication simplify antecedent consequent)
      (fun result => Upholds fits keeps tells registry .named result.toList)
      (Abandons keeps) := by
  have side : ∀ {side : Option Name} {key : Key},
      (∀ name ∈ side, name ∈ node.lookups) →
      side.bind registry.binding = some key →
        registry.Covers fits .named key ∧ registry.Bound key := by
    intro side key among bound
    obtain ⟨name, named, bound⟩ := Option.bind_eq_some_iff.mp bound
    exact ⟨underway.wellFormed.covers_of_binding
        (throughout.safe (among name named)) bound .named,
      underway.wellFormed.bound_of_binding bound⟩
  obtain ⟨antecedentAmong, consequentAmong⟩ :=
    Node.mem_lookups_of_implication body
  -- The negation of the antecedent is simplified wherever there is one.
  have negated : ∀ {premise : Key},
      antecedent.bind registry.binding = some premise →
        ∃ negated middle,
          registry.Yields (Registry.negation premise) negated middle ∧
            middle.Ensures (simplify negated)
              (fun result =>
                Upholds fits keeps tells registry .named result.toList)
              (Abandons keeps) := by
    intro premise bound
    obtain ⟨premiseCovers, premiseNamed⟩ := side antecedentAmong bound
    obtain ⟨negated, middle, negating, upholds, covers, named⟩ :=
      upheld.negate tracked underway premiseCovers premiseNamed
    exact ⟨negated, middle, negating,
      (simplifyUpholds (underway.upholds upholds) covers named).mono
        (upheld.followed upholds) id⟩
  refine ensures_get_bind ?_
  split
  · exact ensures_pure (upheld.nothing underway .named)
  · rename_i conclusion _ conclusionBound
    obtain ⟨covers, named⟩ := side consequentAmong conclusionBound
    exact simplifyUpholds underway covers named
  · rename_i premise premiseBound _
    obtain ⟨_, _, negating, ensured⟩ := negated premiseBound
    exact negating.ensures_bind ensured
  · rename_i premise conclusion premiseBound conclusionBound
    obtain ⟨_, _, negating, ensured⟩ := negated premiseBound
    obtain ⟨conclusionCovers, conclusionNamed⟩ :=
      side consequentAmong conclusionBound
    refine negating.ensures_bind ?_
    refine ensured.bind ?_
    intro left third _ upToLeft
    refine (simplifyUpholds (underway.upholds upToLeft)
      (upToLeft.tracks.annexes.covers underway.wellFormed conclusionCovers)
      (conclusionNamed.of_extends upToLeft.tracks.annexes.extension)).bind ?_
    intro right fourth _ fromRight
    have upToBoth := upheld.appended upToLeft fromRight
    cases left with
    | none => cases right <;> exact ensures_pure upToBoth
    | some left =>
        cases right with
        | none => exact ensures_pure upToBoth
        | some right =>
            have both : Upholds fits keeps tells registry .named
                [left, right] fourth := upToBoth
            obtain ⟨disjunction, fifth, joining, joined, named⟩ :=
              upheld.joinResults tracked (underway.upholds both)
                .disjunction both
            refine joining.ensures_bind ?_
            exact (simplifyUpholds (underway.upholds joined)
              (joined.tracks.covers disjunction (List.mem_singleton_self _))
              named).mono (upheld.followed joined) id

end Parts

/-! ## Simplification -/

section Simplification

variable (tracked : base.Tracked fits)

include tracked

/-- What is upheld with one level less is upheld, provided it is where the
formula is a junction that is rebuilt. -/
theorem Upheld.simplifyWithin_succ
    {levels : Nat}
    (simplifyUpholds :
      UpheldBy base fits keeps tells (simplifyWithin levels .named))
    (placement : Placement)
    (deep : placement = .named → 2 ≤ base.levels 0)
    {registry : Registry} (underway : Underway base keeps registry)
    {key : Key} (covers : registry.Covers fits placement key)
    (named : placement = .named → registry.Bound key)
    (rebuilds : ∀ {node : Node} {connective : Connective}
      {names : List Name} {operands remaining : List Key}
      {middle after : Registry} {rebuilt : Key},
      registry.node? key = some node →
        node.body = .junction connective names →
        registry.Yields
          (Registry.simplifyOperands (simplifyWithin levels .named)
            connective names) operands middle →
        Upholds fits keeps tells registry .named operands middle →
        Pairing.reduce? connective middle.negates middle.alike operands =
          some remaining →
        middle.Yields (rebuild placement node connective remaining) rebuilt
          after →
          keeps after ∧
            (placement = .named → tells registry [rebuilt] after)) :
    registry.Ensures (simplifyWithin (levels + 1) placement key)
      (fun result =>
        Upholds fits keeps tells registry placement result.toList)
      (Abandons keeps) := by
  obtain ⟨node, stored, throughout, _⟩ := id covers
  refine ensures_get_bind ?_
  rw [stored, Option.map_some]
  cases body : node.body with
  | atom =>
      exact ensures_pure ⟨Tracks.single underway.wellFormed covers,
        underway.kept, fun isNamed =>
          upheld.atom underway.since (named isNamed) stored body⟩
  | negation operand =>
      exact upheld.simplifyNegation tracked simplifyUpholds underway
        placement deep covers named stored body
  | junction connective names =>
      exact upheld.simplifyJunction tracked simplifyUpholds underway
        placement stored throughout body (rebuilds stored body)
  | implication antecedent consequent =>
      exact (upheld.simplifyImplication tracked simplifyUpholds underway
        throughout body).mono (·.of_named placement) id
  | dnf atoms rows generated =>
      refine ensures_pure ?_
      cases generated with
      | none => exact upheld.nothing underway placement
      | some formula =>
          refine ⟨⟨underway.wellFormed, Annexes.refl registry, ?_⟩,
            underway.kept, fun _ => upheld.generated underway.wellFormed
              underway.since throughout.self body⟩
          intro other member
          obtain rfl := List.mem_singleton.mp member
          obtain ⟨recorded, present⟩ :=
            tracked.recorded throughout.self body
          exact throughout.covers_generated body
            (underway.since.node? present) placement

/-- What is upheld by each thing that simplification does is upheld by
simplification. -/
theorem Upheld.simplifyWithin_named
    {levels : Nat} (fewer : levels < base.levels 0) :
    UpheldBy base fits keeps tells (simplifyWithin levels .named) := by
  induction levels with
  | zero =>
      intro registry key underway _ _
      exact ensures_throw ⟨rfl, underway.kept⟩
  | succ levels inductionHypothesis =>
      intro registry key underway covers named
      refine upheld.simplifyWithin_succ tracked
        (inductionHypothesis (Nat.lt_of_succ_lt fewer)) .named
        (fun _ => by omega) underway covers (fun _ => named) ?_
      intro _ _ _ _ _ _ _ _ _ _ _ upholds reduced rebuilding
      obtain ⟨kept, told⟩ := upheld.rebuilt upholds reduced rebuilding
      exact ⟨kept, fun _ => told⟩

/-- The formula that is simplified in the first place need not be bound to its
name, which its rebuilding keeps. -/
theorem Upheld.simplify
    (underway : Underway base keeps base) {key : Key}
    (covers : base.Covers fits .detached key)
    (rebuilds : ∀ {node : Node} {connective : Connective}
      {names : List Name} {operands remaining : List Key}
      {middle after : Registry} {rebuilt : Key},
      base.node? key = some node →
        node.body = .junction connective names →
        base.Yields
          (Registry.simplifyOperands (simplifyWithin (base.levels 1) .named)
            connective names) operands middle →
        Upholds fits keeps tells base .named operands middle →
        Pairing.reduce? connective middle.negates middle.alike operands =
          some remaining →
        middle.Yields (rebuild .detached node connective remaining) rebuilt
          after →
          keeps after) :
    base.Ensures (Registry.simplify key)
      (fun result => Upholds fits keeps tells base .detached result.toList)
      (Abandons keeps) := by
  refine ensures_get_bind ?_
  have levels : base.levels 0 = base.levels 1 + 1 := rfl
  rw [levels]
  refine upheld.simplifyWithin_succ tracked
    (upheld.simplifyWithin_named tracked (Nat.lt_succ_self _)) .detached
    (fun impossible => by cases impossible) underway covers
    (fun impossible => by cases impossible) ?_
  intro _ _ _ _ _ _ _ _ stored body run upholds reduced rebuilding
  exact ⟨rebuilds stored body run upholds reduced rebuilding,
    fun impossible => by cases impossible⟩

end Simplification

end Upkeep

/-! ## Nothing more -/

/-- Saying nothing is upheld. -/
theorem upheld_trivial (base : Registry) (fits : Node → Prop) :
    Upheld base fits (fun _ => True) fun _ _ _ => True where
  negation _ _ := trivial
  nil _ := trivial
  sublist _ _ := trivial
  earlier _ _ := trivial
  append _ _ := trivial
  atom _ _ _ _ := trivial
  literal _ _ _ _ _ _ _ := trivial
  generated _ _ _ _ := trivial
  contribution _ _ := trivial
  inner _ _ _ _ := trivial
  negated _ _ := ⟨trivial, trivial⟩
  joined _ _ := ⟨trivial, trivial⟩
  rebuilt _ _ _ := ⟨trivial, trivial⟩

/-- Simplification of a covered formula only adds nodes that fit, and covers
what it yields. -/
theorem Tracked.tracks_of_yields
    {base after : Registry} {fits : Node → Prop}
    (tracked : base.Tracked fits) {levels : Nat}
    (fewer : levels < base.levels 0) {key : Key} {result : Option Key}
    (wellFormed : base.WellFormed) (covers : base.Covers fits .named key)
    (named : base.Bound key)
    (run : base.Yields (simplifyWithin levels .named key) result after) :
    base.Tracks fits .named result.toList after :=
  (((upheld_trivial base fits).simplifyWithin_named tracked fewer
    ⟨wellFormed, Extends.refl base, trivial⟩ covers named).yields run).tracks

/-- A key that leads nowhere simplifies to nothing. -/
theorem yields_simplify_of_missing
    {registry : Registry} {key : Key}
    (missing : registry.node? key = none) :
    registry.Yields (simplify key) none registry := by
  obtain ⟨levels, enough⟩ : ∃ levels, registry.levels 0 = levels + 1 :=
    ⟨_, rfl⟩
  refine Yields.bind (yields_get_iff.mpr ⟨rfl, rfl⟩) ?_
  rw [enough]
  refine Yields.bind (yields_get_iff.mpr ⟨rfl, rfl⟩) ?_
  rw [missing]
  exact yields_pure_iff.mpr ⟨rfl, rfl⟩

end Registry

end NamedLogic
