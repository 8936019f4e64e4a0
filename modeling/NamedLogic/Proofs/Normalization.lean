import NamedLogic.Proofs.Simulation
import NamedLogic.Proofs.Tiers
import NamedLogic.Proofs.Upkeep

/-!
# What simplification yields is normal

A formula from which no disjunctive normal form is met need not have a resolved
tree: names may stand for nothing, sides may be absent, and a name that stands
for nothing may come to stand for something in the course of simplification.
Still, whatever simplification yields presents a normal tree, and one with no
more tiers than there were levels.
-/

namespace NamedLogic

/-- No formula was generated for the node. -/
def Node.Elementary (node : Node) : Prop :=
  node.body.generated? = none

namespace Registry

/-- A formula with a normal tree is stored under the key, and bound to its own
name unless it is detached. -/
def PresentsNormal
    (registry : Registry) (placement : Placement) (levels : Nat)
    (key : Key) : Prop :=
  ∃ tree : Tree, tree.Normal ∧ registry.Presents placement levels key tree

section PresentsNormal

variable {before after registry : Registry} {placement : Placement}
  {levels : Nat} {key : Key}

theorem PresentsNormal.more
    (presents : registry.PresentsNormal placement levels key) {large : Nat}
    (enough : levels ≤ large) :
    registry.PresentsNormal placement large key := by
  obtain ⟨tree, normal, shown⟩ := presents
  exact ⟨tree, normal, shown.more normal.settled enough⟩

theorem PresentsNormal.of_extends
    (presents : before.PresentsNormal placement levels key)
    (beforeWellFormed : before.WellFormed)
    (afterWellFormed : after.WellFormed)
    (extension : before.Extends after) :
    after.PresentsNormal placement levels key := by
  obtain ⟨tree, normal, shown⟩ := presents
  exact ⟨tree, normal, shown.of_extends beforeWellFormed afterWellFormed
    extension normal.resolved⟩

end PresentsNormal

/-- A formula with a normal tree of no more than the given number of tiers is
stored under the key, and bound to its own name unless it is detached. -/
def PresentsWithin
    (registry : Registry) (placement : Placement) (levels : Nat)
    (key : Key) : Prop :=
  ∃ tree : Tree, tree.Normal ∧ tree.tiers ≤ levels ∧
    registry.Presents placement (levels + 1) key tree

section PresentsWithin

variable {before after registry : Registry} {placement : Placement}
  {levels : Nat} {key : Key}

theorem PresentsWithin.normal
    (presents : registry.PresentsWithin placement levels key) :
    registry.PresentsNormal placement (levels + 1) key := by
  obtain ⟨tree, normal, _, shown⟩ := presents
  exact ⟨tree, normal, shown⟩

theorem PresentsWithin.of_named
    (presents : registry.PresentsWithin .named levels key)
    (placement : Placement) :
    registry.PresentsWithin placement levels key := by
  obtain ⟨tree, normal, shallow, shown⟩ := presents
  exact ⟨tree, normal, shallow, shown.of_named placement⟩

theorem PresentsWithin.succ
    (presents : registry.PresentsWithin placement levels key) :
    registry.PresentsWithin placement (levels + 1) key := by
  obtain ⟨tree, normal, shallow, shown⟩ := presents
  exact ⟨tree, normal, Nat.le_succ_of_le shallow,
    shown.more normal.settled (Nat.le_succ _)⟩

theorem PresentsWithin.of_extends
    (presents : before.PresentsWithin placement levels key)
    (beforeWellFormed : before.WellFormed)
    (afterWellFormed : after.WellFormed)
    (extension : before.Extends after) :
    after.PresentsWithin placement levels key := by
  obtain ⟨tree, normal, shallow, shown⟩ := presents
  exact ⟨tree, normal, shallow, shown.of_extends beforeWellFormed
    afterWellFormed extension normal.resolved⟩

/-- The dual of a normal tree is presented if anything is. -/
theorem presentsWithin_of_dual
    {result : Option Key} {tree : Tree} (normal : tree.Normal)
    (shallow : tree.tiers ≤ levels)
    (outcome : Option.Rel (registry.Presents placement (levels + 1)) result
      (some tree.dual)) :
    ∀ key ∈ result, registry.PresentsWithin placement levels key := by
  intro key member
  cases outcome with
  | some shown =>
      obtain rfl := Option.some.inj member
      exact ⟨_, normal.dual, tree.tiers_dual.trans_le shallow, shown⟩

end PresentsWithin

/-- Nodes for which no formula was generated are tracked in every registry. -/
theorem tracked_elementary (base : Registry) :
    base.Tracked Node.Elementary where
  recorded plain body := by simp [Node.Elementary, body, Body.generated?] at plain
  fresh plain _ := plain
  renamed plain _ _ := plain

/-- Whenever the simplification of a formula succeeds from which nothing but
elementary nodes is within reach, the result presents a normal tree with no more
tiers than there are levels. -/
def NormalizesWithin
    (placement : Placement) (levels : Nat)
    (simplify : Key → Update (Option Key)) : Prop :=
  ∀ ⦃before after : Registry⦄ ⦃key result : Key⦄,
    before.WellFormed → levels ≤ before.levels 0 →
      before.Covers Node.Elementary placement key →
        (placement = .named → before.Bound key) →
          before.Yields (simplify key) (some result) after →
            after.PresentsWithin placement levels result

/-- Whenever the simplification of a formula succeeds from which nothing but
elementary nodes is within reach, the result presents a normal tree. -/
def Normalizes
    (placement : Placement) (levels : Nat)
    (simplify : Key → Update (Option Key)) : Prop :=
  ∀ ⦃before after : Registry⦄ ⦃key result : Key⦄,
    before.WellFormed → levels ≤ before.levels 0 →
      before.Covers Node.Elementary placement key →
        (placement = .named → before.Bound key) →
          before.Yields (simplify key) (some result) after →
            after.PresentsNormal placement (levels + 1) result

section Runs

variable {simplify : Key → Update (Option Key)} {levels : Nat}
  (simplifyGrows : ∀ key registry,
    Grows registry (registry.after (simplify key)))
  (simplifyTracks : ∀ {before after : Registry} {key : Key}
    {result : Option Key}, levels < before.levels 0 → before.WellFormed →
      before.Covers Node.Elementary .named key → before.Bound key →
        before.Yields (simplify key) result after →
          before.Tracks Node.Elementary .named result.toList after)
  (simulates : Simulates .named levels simplify)
  (normalizes : NormalizesWithin .named levels simplify)

/-! ## Operands and junctions -/

include simplifyTracks normalizes in
/-- The operands collected present normal trees of few enough tiers, none of
which is a junction of the connective. -/
theorem OperandsRun.presents_normal
    {connective : Connective} {before after : Registry}
    {names : List Name} {result : List Key}
    (run : OperandsRun simplify connective before names result after)
    (wellFormed : before.WellFormed) (enough : levels < before.levels 0)
    (safe : ∀ name ∈ names, before.Safe Node.Elementary name) :
    after.WellFormed ∧ before.Annexes Node.Elementary after ∧
      ∃ trees, List.Forall₂ (after.Presents .named (levels + 1)) result
          trees ∧
        ∀ tree ∈ trees, tree.Normal ∧ tree.joins connective = false ∧
          tree.tiers ≤ levels := by
  induction run with
  | nil registry =>
      exact ⟨wellFormed, Annexes.refl registry, [], .nil, by simp⟩
  | unbound _ _ inductionHypothesis =>
      exact inductionHypothesis wellFormed enough fun other member =>
        safe other (List.mem_cons_of_mem _ member)
  | vanished bound run _ inductionHypothesis =>
      have covers := wellFormed.covers_of_binding
        (safe _ List.mem_cons_self) bound .named
      have named := wellFormed.bound_of_binding bound
      have tracks := simplifyTracks enough wellFormed covers named run
      obtain ⟨afterWellFormed, annexes, rest⟩ := inductionHypothesis
        tracks.wellFormed (tracks.annexes.extension.levels_eq 0 ▸ enough)
        fun other member => tracks.annexes.safe wellFormed
          (safe other (List.mem_cons_of_mem _ member))
      exact ⟨afterWellFormed, tracks.annexes.trans annexes, rest⟩
  | kept bound run _ inductionHypothesis =>
      have covers := wellFormed.covers_of_binding
        (safe _ List.mem_cons_self) bound .named
      have named := wellFormed.bound_of_binding bound
      have tracks := simplifyTracks enough wellFormed covers named run
      obtain ⟨tree, normal, shallow, shown⟩ := normalizes wellFormed
        enough.le covers (fun _ => named) run
      obtain ⟨afterWellFormed, annexes, trees, presents, flat⟩ :=
        inductionHypothesis tracks.wellFormed
          (tracks.annexes.extension.levels_eq 0 ▸ enough)
          fun other member => tracks.annexes.safe wellFormed
            (safe other (List.mem_cons_of_mem _ member))
      have front := forall₂_of_extends tracks.wellFormed afterWellFormed
        annexes.extension
        (tracks.wellFormed.forall₂_contribution shown normal connective)
        fun _ among => (normal.contributed among).1.resolved
      refine ⟨afterWellFormed, tracks.annexes.trans annexes, _,
        List.rel_append front presents, ?_⟩
      intro other among
      rcases List.mem_append.mp among with early | late
      · obtain ⟨partNormal, apart⟩ := normal.contributed early
        exact ⟨partNormal, apart,
          (Tree.tiers_le_of_mem_contributed early).trans shallow⟩
      · exact flat other late

include simplifyTracks normalizes in
theorem JunctionRun.presents_normal
    {placement : Placement} {key : Key} {connective : Connective}
    {before after : Registry} {names : List Name} {result : Key}
    (run : JunctionRun simplify placement key connective before names
      (some result) after)
    (wellFormed : before.WellFormed)
    (enough : levels + 1 ≤ before.levels 0)
    (safe : ∀ name ∈ names, before.Safe Node.Elementary name) :
    after.PresentsWithin placement (levels + 1) result := by
  cases run with
  | single collected reduced =>
      obtain ⟨_, _, trees, presents, flat⟩ := collected.presents_normal
        simplifyTracks normalizes wellFormed enough safe
      obtain ⟨shown, among⟩ := presents_of_mem presents
        (Pairing.subset_of_reduce? reduced List.mem_cons_self)
      obtain ⟨normal, _, shallow⟩ := flat _ among
      have presented : after.PresentsWithin .named levels result :=
        ⟨_, normal, shallow, shown⟩
      exact presented.succ.of_named placement
  | rebuilt collected reduced several stored rebuilding =>
      rename_i middle operands remaining node
      obtain ⟨middleWellFormed, annexes, trees, presents, flat⟩ :=
        collected.presents_normal simplifyTracks normalizes wellFormed
          enough safe
      have normal : ∀ tree ∈ trees, tree.Normal :=
        fun tree among => (flat tree among).1
      have subset := Pairing.subset_of_reduce? reduced
      have collects : Tree.collect connective trees =
          some (.junction connective
            (remaining.map (middle.keyTree (levels + 1)))) := by
        rw [Tree.collect, Tree.flatMap_contributed_of_not_joins
            fun tree among => (flat tree among).2.1,
          middleWellFormed.reduce?_eq presents normal
            (annexes.extension.levels_eq 0 ▸ enough), reduced,
          Option.map_some,
          Tree.settle_of_several connective (by simpa using several)]
      refine ⟨_, Tree.normal_of_collect normal collects, ?_, ?_⟩
      · rw [Tree.tiers_junction_le_iff, List.forall_mem_map]
        exact fun operand among =>
          (flat _ (presents_of_mem presents (subset among)).2).2.2
      · refine presents_of_rebuild rebuilding middleWellFormed stored
          (forall₂_keyTree presents subset) ?_
        intro tree member
        obtain ⟨operand, among, rfl⟩ := List.mem_map.mp member
        exact (normal _
          (presents_of_mem presents (subset among)).2).resolved

/-! ## Negations -/

include simplifyGrows simplifyTracks simulates normalizes in
theorem NegationRun.presents_normal
    {placement : Placement} {key : Key} {operand : Name} {node : Node}
    {before after : Registry} {result : Option Key}
    (run : NegationRun simplify key before operand result after)
    (wellFormed : before.WellFormed)
    (enough : levels + 1 ≤ before.levels 0)
    (stored : before.node? key = some node)
    (body : node.body = .negation operand)
    (safe : before.Safe Node.Elementary operand)
    (bound : placement = .named → before.Bound key) :
    ∀ formula ∈ result,
      after.PresentsWithin placement (levels + 1) formula := by
  have shallow := Nat.le_of_succ_le enough
  -- All but the first two cases begin by simplifying the operand.
  have simplifies : ∀ {operandKey : Key} {operandNode outcome : Node}
      {simplified : Key} {middle : Registry},
      before.resolve operand = some (operandKey, operandNode) →
      before.Yields (simplify operandKey) (some simplified) middle →
      middle.node? simplified = some outcome →
        middle.WellFormed ∧ before.Extends middle ∧
          (middle.unfold (levels + 1) outcome).Normal ∧
          (middle.unfold (levels + 1) outcome).tiers ≤ levels + 1 ∧
          middle.Presents .named (levels + 1) simplified
            (middle.unfold (levels + 1) outcome) := by
    intro operandKey operandNode outcome simplified middle resolution run
      found
    obtain ⟨operandBound, _⟩ := resolve_eq_some_iff.mp resolution
    have covers := wellFormed.covers_of_binding safe operandBound .named
    have named := wellFormed.bound_of_binding operandBound
    have tracks := simplifyTracks enough wellFormed covers named run
    obtain ⟨tree, normal, low, shown⟩ := normalizes wellFormed shallow covers
      (fun _ => named) run
    obtain rfl := shown.unfold_eq found
    exact ⟨tracks.wellFormed, tracks.annexes.extension, normal,
      Nat.le_succ_of_le low, shown⟩
  intro formula member
  cases run with
  | unresolved | vanished | dropped => cases member
  | @atom _ _ atom resolution isAtom =>
      obtain rfl := Option.some.inj member
      have shape : before.nameTree (levels + 1) operand =
          before.unfold (levels + 1) atom :=
        (wellFormed.presents_of_resolve resolution).2.1
      rw [unfold_atom (Node.body_eq_atom_of_isAtom isAtom)] at shape
      refine ⟨_, .negative (before.string atom.name),
        Nat.succ_le_succ (Nat.zero_le _), ⟨node, stored, ?_⟩, bound⟩
      rw [unfold_negation body, shape]
  | negation resolution _ run found simpleBody =>
      obtain ⟨middleWellFormed, _, normal, low, _⟩ :=
        simplifies resolution run found
      exact presentsWithin_of_dual normal low
        (dual_presents_of_negation middleWellFormed placement simpleBody
          normal) formula member
  | junction resolution _ run found simpleBody negations dual =>
      obtain ⟨middleWellFormed, extension, normal, low, _⟩ :=
        simplifies resolution run found
      exact presentsWithin_of_dual normal low
        (dual_presents_of_junction simplifyGrows simulates negations dual
          middleWellFormed (extension.levels_eq 0 ▸ shallow) placement
          simpleBody normal) formula member
  | other resolution _ run found noNegation noJunction negation =>
      obtain ⟨middleWellFormed, _, normal, low, shown⟩ :=
        simplifies resolution run found
      obtain rfl := Option.some.inj member
      exact ⟨_, normal.dual, (Tree.tiers_dual _).trans_le low,
        dual_presents_of_other negation
        middleWellFormed placement shown normal noNegation noJunction⟩

/-! ## Implications and formulas -/

include simplifyTracks normalizes in
/-- Negating what a safe name is bound to and simplifying the negation. -/
theorem presents_normal_of_negation
    {before middle after : Registry} {name : Name}
    {operand negated : Key} {result : Option Key}
    (wellFormed : before.WellFormed) (enough : levels < before.levels 0)
    (safe : before.Safe Node.Elementary name)
    (bound : before.binding name = some operand)
    (negates : before.Yields (negation operand) negated middle)
    (run : middle.Yields (simplify negated) result after) :
    before.Tracks Node.Elementary .named result.toList after ∧
      ∀ formula ∈ result,
        after.PresentsWithin .named levels formula := by
  obtain ⟨tracks, named⟩ := (tracked_elementary before).of_negation wellFormed
    (Extends.refl before) (wellFormed.covers_of_binding safe bound .named)
    negates
  have covers := tracks.covers negated (List.mem_singleton_self _)
  have still : levels < middle.levels 0 :=
    tracks.annexes.extension.levels_eq 0 ▸ enough
  have further := simplifyTracks still tracks.wellFormed covers named run
  refine ⟨tracks.followed further, ?_⟩
  rintro formula rfl
  exact normalizes tracks.wellFormed still.le covers (fun _ => named) run

include simplifyTracks normalizes in
theorem ImplicationRun.presents_normal
    {antecedent consequent : Option Name} {before after : Registry}
    {result : Option Key}
    (run : ImplicationRun simplify before antecedent consequent result after)
    (wellFormed : before.WellFormed) (enough : levels < before.levels 0)
    (premiseSafe : ∀ name ∈ antecedent, before.Safe Node.Elementary name)
    (conclusionSafe :
      ∀ name ∈ consequent, before.Safe Node.Elementary name) :
    ∀ formula ∈ result,
      after.PresentsWithin .named levels formula := by
  -- What is said of the sides wherever both of them are simplified.
  have sides : ∀ {second third fourth : Registry}
      {premise conclusion negated : Key} {left right : Option Key},
      antecedent.bind before.binding = some premise →
      consequent.bind before.binding = some conclusion →
      before.Yields (negation premise) negated second →
      second.Yields (simplify negated) left third →
      third.Yields (simplify conclusion) right fourth →
        before.Tracks Node.Elementary .named
            (left.toList ++ right.toList) fourth ∧
          (∀ formula ∈ left,
            fourth.PresentsWithin .named levels formula) ∧
          ∀ formula ∈ right,
            fourth.PresentsWithin .named levels formula := by
    intro second third fourth premise conclusion negated left right
      premiseBound conclusionBound negates leftRun rightRun
    obtain ⟨name, named, premiseBound⟩ :=
      Option.bind_eq_some_iff.mp premiseBound
    obtain ⟨other, otherNamed, conclusionBound⟩ :=
      Option.bind_eq_some_iff.mp conclusionBound
    obtain ⟨leftTracks, leftPresents⟩ := presents_normal_of_negation
      simplifyTracks normalizes wellFormed enough (premiseSafe name named)
      premiseBound negates leftRun
    have extension := leftTracks.annexes.extension
    have still : levels < third.levels 0 := extension.levels_eq 0 ▸ enough
    have covers := leftTracks.annexes.covers wellFormed
      (wellFormed.covers_of_binding (conclusionSafe other otherNamed)
        conclusionBound .named)
    have bound := leftTracks.wellFormed.bound_of_binding
      (extension.bindings conclusionBound)
    have rightTracks :=
      simplifyTracks still leftTracks.wellFormed covers bound rightRun
    refine ⟨leftTracks.append rightTracks, fun formula among => ?_, ?_⟩
    · exact (leftPresents formula among).of_extends leftTracks.wellFormed
        rightTracks.wellFormed rightTracks.annexes.extension
    · rintro formula rfl
      exact normalizes leftTracks.wellFormed still.le covers (fun _ => bound)
        rightRun
  intro formula member
  cases run with
  | neither => cases member
  | conclusion _ bound run =>
      obtain rfl : _ = some formula := member
      obtain ⟨name, named, bound⟩ := Option.bind_eq_some_iff.mp bound
      exact normalizes wellFormed enough.le
        (wellFormed.covers_of_binding (conclusionSafe name named) bound
          .named)
        (fun _ => wellFormed.bound_of_binding bound) run
  | premise bound _ negates run =>
      obtain ⟨name, named, bound⟩ := Option.bind_eq_some_iff.mp bound
      exact (presents_normal_of_negation simplifyTracks normalizes wellFormed
        enough (premiseSafe name named) bound negates run).2 formula member
  | oneSide premiseBound conclusionBound negates leftRun rightRun oneSide =>
      obtain ⟨_, leftPresents, rightPresents⟩ :=
        sides premiseBound conclusionBound negates leftRun rightRun
      rcases oneSide with rfl | rfl
      · rw [Option.none_or] at member
        exact rightPresents formula member
      · rw [Option.or_none] at member
        exact leftPresents formula member
  | bothSides premiseBound conclusionBound negates leftRun rightRun joins
      run =>
      obtain rfl : _ = some formula := member
      obtain ⟨tracks, _, _⟩ :=
        sides premiseBound conclusionBound negates leftRun rightRun
      have extension := tracks.annexes.extension
      obtain ⟨further, bound⟩ := (tracked_elementary before).of_junction
        tracks.wellFormed extension tracks.covers joins
      exact normalizes further.wellFormed
        ((extension.trans further.annexes.extension).levels_eq 0 ▸ enough.le)
        (further.covers _ (List.mem_singleton_self _))
        (fun _ => bound) run

include simplifyGrows simplifyTracks simulates normalizes in
theorem FormulaRun.presents_normal
    {placement : Placement} {key result : Key} {before after : Registry}
    (run : FormulaRun simplify placement before key (some result) after)
    (wellFormed : before.WellFormed)
    (enough : levels + 1 ≤ before.levels 0)
    (covers : before.Covers Node.Elementary placement key)
    (bound : placement = .named → before.Bound key) :
    after.PresentsWithin placement (levels + 1) result := by
  have safe : ∀ {node : Node}, before.node? key = some node →
      ∀ {name : Name}, name ∈ node.lookups →
        before.Safe Node.Elementary name :=
    fun stored => (covers.of_stored stored).1.safe
  cases run with
  | atom stored body =>
      exact ⟨_, .positive _, Nat.succ_le_succ (Nat.zero_le _),
        ⟨_, stored, unfold_atom body _⟩, bound⟩
  | negation stored body run =>
      exact run.presents_normal simplifyGrows simplifyTracks simulates
        normalizes wellFormed enough stored body
        (safe stored (Node.mem_lookups_of_negation body)) bound result rfl
  | junction stored body run =>
      exact run.presents_normal simplifyTracks normalizes wellFormed enough
        fun name member =>
          safe stored (Node.mem_lookups_of_junction body member)
  | implication stored body run =>
      obtain ⟨left, right⟩ := Node.mem_lookups_of_implication body
      have presents := run.presents_normal simplifyTracks normalizes
        wellFormed enough (fun name named => safe stored (left name named))
        (fun name named => safe stored (right name named)) result rfl
      exact presents.succ.of_named placement
  | dnf stored body =>
      have plain := (covers.of_stored stored).1.self
      simp [Node.Elementary, body, Body.generated?] at plain

end Runs

/-- What simplification yields presents a normal tree with no more tiers than
there are levels, whatever their number. -/
theorem normalizesWithin_simplifyWithin (placement : Placement) (levels : Nat) :
    NormalizesWithin placement levels (simplifyWithin levels placement) := by
  induction levels generalizing placement with
  | zero =>
      intro before after key result _ _ _ _ run
      exact (not_yields_simplifyWithin_zero run).elim
  | succ levels inductionHypothesis =>
      intro before after key result wellFormed enough covers bound run
      exact (formulaRun_of_yields run).presents_normal
        (grows_simplifyWithin levels .named)
        (fun {registry _ _ _} fewer =>
          (tracked_elementary registry).tracks_of_yields fewer)
        (simulates_simplifyWithin .named levels)
        (inductionHypothesis .named) wellFormed enough covers bound

theorem normalizes_simplifyWithin (placement : Placement) (levels : Nat) :
    Normalizes placement levels (simplifyWithin levels placement) :=
  fun _ _ _ _ wellFormed enough covers bound run =>
    (normalizesWithin_simplifyWithin placement levels wellFormed enough covers
      bound run).normal

/-- The operands collected when a junction is simplified present normal trees of
no more tiers than there are levels, none of which is a junction of the same
connective. -/
theorem OperandsRun.presents_collected
    {levels : Nat} {connective : Connective} {before after : Registry}
    {names : List Name} {result : List Key}
    (run : OperandsRun (simplifyWithin levels .named) connective before names
      result after)
    (wellFormed : before.WellFormed) (enough : levels < before.levels 0)
    (safe : ∀ name ∈ names, before.Safe Node.Elementary name) :
    after.WellFormed ∧ before.Annexes Node.Elementary after ∧
      ∃ trees, List.Forall₂ (after.Presents .named (levels + 1)) result
          trees ∧
        ∀ tree ∈ trees, tree.Normal ∧ tree.joins connective = false ∧
          tree.tiers ≤ levels :=
  run.presents_normal
    (fun {registry _ _ _} fewer =>
      (tracked_elementary registry).tracks_of_yields fewer)
    (normalizesWithin_simplifyWithin .named levels) wellFormed enough safe

end Registry

end NamedLogic
