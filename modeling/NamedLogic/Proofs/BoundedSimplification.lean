import NamedLogic.Proofs.BoundedDescent
import NamedLogic.Proofs.Coverage
import NamedLogic.Proofs.Outcomes

/-!
# Levels that simplification needs

Simplification stores nodes on its way, and these may be met later on.  All
registries it passes are part of the one it ends in, and so the chains of steps
are measured there.  Every part of simplification yields formulas that are no
higher than the one it is given, if an implication, which is replaced by a
disjunction of new nodes, is counted as three levels.  So the depth limit is
never exceeded if it leaves room for the height of the formula.
-/

namespace NamedLogic

/-- How many levels lie between a node and what its names stand for.  Between an
implication and its antecedent there are a disjunction and a negation. -/
def Node.span (node : Node) : Nat :=
  match node.body with
  | .implication _ _ => 3
  | _ => 1

theorem Node.span_pos (node : Node) : 1 ≤ node.span := by
  unfold span
  split <;> decide

theorem Node.span_le (node : Node) : node.span ≤ 3 := by
  unfold span
  split <;> decide

namespace Registry

/-! ## Heights -/

/-- Simplification passes through at most the given number of levels below the
node, the level of the node included. -/
inductive Low (registry : Registry) : (height : Nat) → Node → Prop where
  | intro
      {height lower : Nat} {node : Node}
      (room : lower + node.span ≤ height)
      (next : ∀ next, registry.Leads node next → Low registry lower next) :
      Low registry height node

/-- Whatever the name stands for is low. -/
def LowNamed (registry : Registry) (height : Nat) (name : Name) : Prop :=
  ∀ bearer, registry.referent? name = some bearer →
    registry.Low height bearer

/-- What is stored under the key is low, and so is what its name stands for,
unless the formula is detached. -/
def LowKey
    (registry : Registry) (placement : Placement) (height : Nat) (key : Key) :
    Prop :=
  ∀ node, registry.node? key = some node → registry.Low height node ∧
    (placement = .named → registry.LowNamed height node.name)

section Heights

variable {registry final : Registry} {node : Node} {name : Name} {key : Key}
  {placement : Placement} {height taller : Nat}

theorem Low.mono
    (low : registry.Low height node) (more : height ≤ taller) :
    registry.Low taller node := by
  cases low with
  | intro room next => exact .intro (room.trans more) next

theorem LowNamed.mono
    (low : registry.LowNamed height name) (more : height ≤ taller) :
    registry.LowNamed taller name :=
  fun bearer stands => (low bearer stands).mono more

theorem LowKey.mono
    (low : registry.LowKey placement height key) (more : height ≤ taller) :
    registry.LowKey placement taller key := by
  intro node stored
  have ⟨lowNode, lowName⟩ := low node stored
  exact ⟨lowNode.mono more, fun named => (lowName named).mono more⟩

theorem LowKey.of_named
    (low : registry.LowKey .named height key) (placement : Placement) :
    registry.LowKey placement height key := by
  intro node stored
  have ⟨lowNode, lowName⟩ := low node stored
  exact ⟨lowNode, fun _ => lowName rfl⟩

theorem Low.span_le (low : registry.Low height node) : node.span ≤ height := by
  cases low with
  | intro room _ => omega

theorem Low.next
    (low : registry.Low height node) {next : Node}
    (leads : registry.Leads node next) :
    registry.Low (height - node.span) next := by
  cases low with
  | intro room below => exact (below next leads).mono (by omega)

theorem Low.named
    (low : registry.Low height node) (looked : name ∈ node.lookups) :
    registry.LowNamed (height - node.span) name :=
  fun _ stands => low.next (.descends (.operand looked stands))

/-- What a low node refers to lies below it by its span. -/
theorem LowKey.below
    (low : registry.LowKey placement height key)
    (stored : registry.node? key = some node)
    {span : Nat} (spans : node.span = span) :
    span ≤ height ∧
      ∀ name ∈ node.lookups, registry.LowNamed (height - span) name := by
  have ⟨lowNode, _⟩ := low node stored
  subst spans
  exact ⟨lowNode.span_le, fun _ looked => lowNode.named looked⟩

/-- What a node that is bound to its name is made of decides its height. -/
theorem low_of_lookups
    (room : height + node.span ≤ taller)
    (plain : node.body.generated? = none)
    (names : ∀ name ∈ node.lookups, registry.LowNamed height name) :
    registry.Low taller node := by
  refine .intro room fun next leads => ?_
  cases leads with
  | descends step =>
      cases step with
      | operand looked stands => exact names _ looked next stands
      | generated body _ => simp [body, Body.generated?] at plain
  | namesake body _ _ => simp [body, Body.generated?] at plain

theorem lowNamed_of_bound
    (stored : registry.node? key = some node)
    (bound : registry.binding node.name = some key)
    (low : registry.Low height node) :
    registry.LowNamed height node.name := by
  intro bearer stands
  rw [referent?, bound, Option.bind_some, stored] at stands
  exact Option.some.inj stands ▸ low

theorem lowKey_of_bound
    (stored : registry.node? key = some node)
    (bound : registry.binding node.name = some key)
    (low : registry.Low height node) :
    registry.LowKey placement height key := by
  intro other otherStored
  rw [stored] at otherStored
  obtain rfl := Option.some.inj otherStored
  exact ⟨low, fun _ => lowNamed_of_bound stored bound low⟩

/-- Chains of steps that grow no longer while the registry grows bound the
height.  Every step is counted as if it left an implication. -/
theorem low_of_chainsWithin
    {bound : Nat} (within : ChainsWithin registry.Leads bound node)
    (same : ∀ part next, registry.ComesTo node part →
      final.Leads part next → registry.Leads part next) :
    final.Low (3 * bound) node := by
  induction bound generalizing node with
  | zero => exact within.elim
  | succ bound inductionHypothesis =>
      have room : 3 * bound + node.span ≤ 3 * (bound + 1) := by
        have most := node.span_le
        omega
      refine .intro room fun next leads => ?_
      have step : registry.Leads node next := same node next .refl leads
      exact inductionHypothesis (within next step)
        fun part later comes => same part later (.head step comes)

end Heights

/-! ## Registries on the way to a larger one -/

section Toward

variable {α β : Type}

/-- Whatever the update comes to, the registry only grows.  In every registry
that includes the one left behind, and of which the first condition holds, the
second holds of the value yielded, and no refusal is for the depth limit. -/
def Toward
    (before : Registry) (given : Registry → Prop) (update : Update α)
    (found : α → Registry → Prop) : Prop :=
  before.Ensures update
    (fun value after => after.WellFormed ∧ before.Extends after ∧
      ∀ final, after.Extends final → given final → found value final)
    (fun cause after => after.WellFormed ∧ before.Extends after ∧
      ∀ final, after.Extends final → given final → cause ≠ .depthExceeded)

variable {before middle : Registry} {given : Registry → Prop}
  {update : Update α} {next : α → Update β} {found : α → Registry → Prop}
  {last : β → Registry → Prop}

theorem toward_pure
    {value : α} (wellFormed : before.WellFormed)
    (holds : ∀ final, before.Extends final → given final →
      found value final) :
    before.Toward given (pure value) found :=
  ensures_pure ⟨wellFormed, Extends.refl before, holds⟩

theorem Toward.mono
    {stronger : Registry → Prop} {weaker : α → Registry → Prop}
    (toward : before.Toward given update found)
    (assumes : ∀ final, before.Extends final → stronger final → given final)
    (concludes : ∀ value final, before.Extends final → stronger final →
      found value final → weaker value final) :
    before.Toward stronger update weaker := by
  refine Ensures.mono toward ?_ ?_
  · rintro value after ⟨wellFormed, extension, holds⟩
    refine ⟨wellFormed, extension, fun final later strong => ?_⟩
    have included := extension.trans later
    exact concludes value final included strong
      (holds final later (assumes final included strong))
  · rintro cause after ⟨wellFormed, extension, holds⟩
    refine ⟨wellFormed, extension, fun final later strong => ?_⟩
    exact holds final later (assumes final (extension.trans later) strong)

theorem Toward.assuming
    {stronger : Registry → Prop}
    (toward : before.Toward given update found)
    (assumes : ∀ final, before.Extends final → stronger final →
      given final) :
    before.Toward stronger update found :=
  toward.mono assumes fun _ _ _ _ => id

/-- In the second part of a sequence, what the first part found is given. -/
theorem Toward.bind
    (first : before.Toward given update found)
    (rest : ∀ {value middle}, before.Yields update value middle →
      middle.WellFormed → before.Extends middle →
        middle.Toward (fun final => given final ∧ found value final)
          (next value) last) :
    before.Toward given (update >>= next) last := by
  constructor
  · intro value after run
    have ⟨between, middle, firstRun, restRun⟩ := yields_bind_iff.mp run
    have ⟨middleWellFormed, extension, holds⟩ := first.yields firstRun
    have ⟨afterWellFormed, further, concludes⟩ :=
      (rest firstRun middleWellFormed extension).yields restRun
    refine ⟨afterWellFormed, extension.trans further, ?_⟩
    intro final later assumed
    exact concludes final later
      ⟨assumed, holds final (further.trans later) assumed⟩
  · intro cause after refusal
    rcases refuses_bind_iff.mp refusal with early | ⟨value, middle, run, late⟩
    · exact first.refuses early
    · have ⟨middleWellFormed, extension, holds⟩ := first.yields run
      have ⟨afterWellFormed, further, concludes⟩ :=
        (rest run middleWellFormed extension).refuses late
      refine ⟨afterWellFormed, extension.trans further, ?_⟩
      intro final later assumed
      exact concludes final later
        ⟨assumed, holds final (further.trans later) assumed⟩

/-- A sequence whose first part is known to yield. -/
theorem Yields.toward_bind
    {value : α} (run : before.Yields update value middle)
    (extension : before.Extends middle)
    (rest : middle.Toward given (next value) last) :
    before.Toward given (update >>= next) last := by
  refine run.ensures_bind (Ensures.mono rest ?_ ?_)
  · rintro value after ⟨wellFormed, further, holds⟩
    exact ⟨wellFormed, extension.trans further, holds⟩
  · rintro cause after ⟨wellFormed, further, holds⟩
    exact ⟨wellFormed, extension.trans further, holds⟩

theorem toward_get_bind
    {next : Registry → Update β}
    (rest : before.Toward given (next before) last) :
    before.Toward given (get >>= next) last :=
  ensures_get_bind rest

/-- A sequence that only changes the value. -/
theorem Toward.bind_pure
    {stronger : Registry → Prop} {result : α → β}
    (first : before.Toward given update found)
    (assumes : ∀ final, before.Extends final → stronger final → given final)
    (concludes : ∀ value final, before.Extends final → stronger final →
      found value final → last (result value) final) :
    before.Toward stronger (do pure (result (← update))) last :=
  (first.assuming assumes).bind fun _ wellFormed extension =>
    toward_pure wellFormed fun final later held =>
      concludes _ final (extension.trans later) held.1 held.2

end Toward

/-! ## Constructors -/

section Constructors

variable {before final : Registry} {height : Nat} {placement : Placement}

/-- What a low name is bound to is low. -/
theorem WellFormed.lowKey_of_binding
    (wellFormed : before.WellFormed) (extension : before.Extends final)
    {name : Name} (low : final.LowNamed height name) {key : Key}
    (bound : before.binding name = some key) :
    final.LowKey placement height key := by
  have ⟨node, stored, named, _, stands⟩ := wellFormed.resolve_eq bound
  subst named
  exact lowKey_of_bound (extension.node? stored) (extension.bindings bound)
    (low node (extension.referent? stands))

/-- What a low formula contributes to a junction is low. -/
theorem WellFormed.lowKey_contribution
    (wellFormed : before.WellFormed) (extension : before.Extends final)
    {simplified : Key} (low : final.LowKey .named height simplified)
    (connective : Connective) :
    ∀ operand ∈ before.contribution connective simplified,
      final.LowKey .named height operand := by
  intro operand member
  rw [contribution] at member
  split at member
  · rename_i names flattened
    have ⟨node, stored, under⟩ := Option.bind_eq_some_iff.mp flattened
    have body := operandsUnder?_eq_some_iff.mp under
    have ⟨name, among, bound⟩ := List.mem_filterMap.mp member
    have ⟨lowNode, _⟩ := low node (extension.node? stored)
    have lowName := lowNode.named (Node.mem_lookups_of_junction body among)
    exact wellFormed.lowKey_of_binding extension
      (lowName.mono (Nat.sub_le _ _)) bound
  · obtain rfl := List.mem_singleton.mp member
    exact low

theorem lowKey_of_adds
    {after : Registry} {key : Key} {node : Node}
    (added : before.Adds after key node) (extension : after.Extends final)
    (plain : node.body.generated? = none) (short : node.span = 1)
    (names : ∀ name ∈ node.lookups, final.LowNamed height name) :
    final.LowKey placement (height + 1) key :=
  lowKey_of_bound (extension.node? added.stored)
    (extension.bindings added.bound)
    (low_of_lookups (by rw [short]) plain names)

/-- The negation of a low formula is one level higher. -/
theorem WellFormed.exists_low_negation
    (wellFormed : before.WellFormed) {operand : Key} {node : Node}
    (stored : before.node? operand = some node) (height : Nat) :
    ∃ key made after, before.Yields (negation operand) key after ∧
      after.WellFormed ∧ before.Extends after ∧ after.node? key = some made ∧
      ∀ final, after.Extends final → final.LowKey .named height operand →
        final.LowKey .named (height + 1) key := by
  have ⟨key, name, after, run, added⟩ := yields_negation wellFormed stored
  refine ⟨key, _, after, run, added.wellFormed, added.extension, added.stored,
    fun final later low => ?_⟩
  have ⟨_, lowName⟩ := low node
    ((added.extension.trans later).node? stored)
  refine lowKey_of_adds added later rfl rfl fun other member => ?_
  obtain rfl : other = node.name := by
    simpa [Node.lookups, Body.references] using member
  exact lowName rfl

/-- The junction of low formulas is one level higher. -/
theorem toward_junction
    (wellFormed : before.WellFormed) (connective : Connective)
    (operands : List Key) (height : Nat) :
    before.Toward
      (fun final => ∀ operand ∈ operands, final.LowKey .named height operand)
      (junction connective operands)
      (fun key final => final.LowKey .named (height + 1) key) := by
  by_cases complete : ∀ operand ∈ operands, before.node? operand ≠ none
  · have ⟨additions, stored⟩ := exists_additions complete
    have ⟨key, name, after, run, added⟩ :=
      yields_junction wellFormed connective stored
    refine run.ensures ⟨added.wellFormed, added.extension, ?_⟩
    intro final later low
    refine lowKey_of_adds added later rfl rfl fun other member => ?_
    rcases mem_gatherOperands member with absurd | ⟨node, among, taken⟩
    · cases absurd
    · have listed : some node ∈ operands.map before.node? :=
        stored ▸ List.mem_map_of_mem among
      have ⟨operand, operandMember, there⟩ := List.mem_map.mp listed
      have ⟨lowNode, lowName⟩ := low operand operandMember node
        ((added.extension.trans later).node? there)
      rcases taken with rfl | inner
      · exact lowName rfl
      · exact (lowNode.named inner).mono (Nat.sub_le _ _)
  · push Not at complete
    have ⟨missing, member, absent⟩ := complete
    refine (refuses_junction connective member absent).ensures ?_
    exact ⟨wellFormed, Extends.refl before, fun _ _ _ => nofun⟩

/-- So is the junction rebuilt from low formulas. -/
theorem toward_rebuild
    (wellFormed : before.WellFormed) {key : Key} {node : Node}
    (stored : before.node? key = some node) (placement : Placement)
    (connective : Connective) (operands : List Key) (height : Nat) :
    before.Toward
      (fun final => ∀ operand ∈ operands, final.LowKey .named height operand)
      (rebuild placement node connective operands)
      (fun key final => final.LowKey placement (height + 1) key) := by
  have ⟨rebuilt, name, after, run, rebuilds⟩ :=
    yields_rebuild wellFormed stored placement connective operands
  refine run.ensures ⟨rebuilds.wellFormed, rebuilds.extension, ?_⟩
  intro final later low
  have lowNames : ∀ name ∈ before.operandNames operands,
      final.LowNamed height name := by
    intro name member
    have ⟨operand, among, found⟩ := List.mem_filterMap.mp member
    obtain ⟨other, otherStored, rfl⟩ := Option.map_eq_some_iff.mp found
    have ⟨_, lowName⟩ := low operand among other
      ((rebuilds.extension.trans later).node? otherStored)
    exact lowName rfl
  intro other otherStored
  rw [later.node? rebuilds.stored] at otherStored
  obtain rfl := Option.some.inj otherStored
  have lowNode : final.Low (height + 1)
      { name, owner := node.owner,
        body := .junction connective (before.operandNames operands) } :=
    low_of_lookups le_rfl rfl lowNames
  refine ⟨lowNode, fun named => ?_⟩
  exact lowNamed_of_bound (later.node? rebuilds.stored)
    (later.bindings (rebuilds.bound named)) lowNode

/-- Negated operands are joined if there are several. -/
theorem toward_dual
    (wellFormed : before.WellFormed) (connective : Connective)
    (negated : List Key) (height : Nat) :
    before.Toward
      (fun final => ∀ operand ∈ negated, final.LowKey .named height operand)
      (match negated with
      | [] => pure none
      | [single] => pure (some single)
      | negated => do
          let dual ← junction connective.dual negated
          pure (some dual))
      (fun result final =>
        ∀ formula ∈ result, final.LowKey .named (height + 1) formula) := by
  split
  · exact toward_pure wellFormed fun _ _ _ => nofun
  · rename_i single
    refine toward_pure wellFormed fun final _ low formula member => ?_
    obtain rfl := Option.some.inj member
    exact (low single (List.mem_singleton_self single)).mono (Nat.le_succ _)
  · refine (toward_junction wellFormed connective.dual negated height).bind_pure
      (fun _ _ => id) fun dual final _ _ low formula member => ?_
    obtain rfl := Option.some.inj member
    exact low

end Constructors

/-! ## The parts of simplification -/

section Parts

/-- With the given number of levels, the update does not exceed them on formulas
that are no higher, and what it yields is no higher either. -/
def Descending (levels : Nat) (simplify : Key → Update (Option Key)) : Prop :=
  ∀ ⦃before : Registry⦄ ⦃key : Key⦄ ⦃node : Node⦄, before.WellFormed →
    before.node? key = some node → ∀ height,
      before.Toward
        (fun final => height ≤ levels ∧ final.LowKey .named height key)
        (simplify key)
        (fun result final =>
          ∀ formula ∈ result, final.LowKey .named height formula)

variable {levels : Nat} {simplify : Key → Update (Option Key)}
  (descending : Descending levels simplify) {before : Registry}
  (wellFormed : before.WellFormed)

include descending wellFormed

/-- What a low name is bound to may be simplified. -/
theorem Descending.bound
    {name : Name} {operand : Key} (bound : before.binding name = some operand)
    (height : Nat) :
    before.Toward
      (fun final => height ≤ levels ∧ final.LowNamed height name)
      (simplify operand)
      (fun result final =>
        ∀ formula ∈ result, final.LowKey .named height formula) := by
  have ⟨node, stored, _⟩ := wellFormed.bound bound
  refine (descending wellFormed stored height).assuming ?_
  rintro final extension ⟨room, low⟩
  exact ⟨room, wellFormed.lowKey_of_binding extension low bound⟩

/-- The negation of what a low name is bound to may be simplified. -/
theorem Descending.negated
    {name : Name} {operand : Key} (bound : before.binding name = some operand)
    (height : Nat) :
    ∃ negated middle, before.Yields (negation operand) negated middle ∧
      before.Extends middle ∧
      middle.Toward
        (fun final => height + 1 ≤ levels ∧ final.LowNamed height name)
        (simplify negated)
        (fun result final =>
          ∀ formula ∈ result, final.LowKey .named (height + 1) formula) := by
  have ⟨node, stored, _⟩ := wellFormed.bound bound
  have ⟨negated, made, middle, run, middleWellFormed, extension, madeStored,
    low⟩ := wellFormed.exists_low_negation stored height
  refine ⟨negated, middle, run, extension, ?_⟩
  refine (descending middleWellFormed madeStored (height + 1)).assuming ?_
  intro final later given
  have lowOperand : final.LowKey .named height operand :=
    wellFormed.lowKey_of_binding (extension.trans later) given.2 bound
  exact ⟨given.1, low final later lowOperand⟩

/-- The disjunction of low formulas may be simplified. -/
theorem Descending.joined (left right : Key) (height : Nat) :
    before.Toward
      (fun final => height + 1 ≤ levels ∧
        final.LowKey .named height left ∧ final.LowKey .named height right)
      (do
        let disjunction ← junction .disjunction [left, right]
        simplify disjunction)
      (fun result final =>
        ∀ formula ∈ result, final.LowKey .named (height + 1) formula) := by
  have joining := toward_junction wellFormed .disjunction [left, right] height
  refine (joining.assuming fun final _ given => ?_).bind ?_
  · simpa using given.2
  intro disjunction middle run middleWellFormed _
  have ⟨additions, stored⟩ := additions_of_yields run
  have ⟨_, _, _, again, added⟩ :=
    yields_junction wellFormed .disjunction stored
  obtain ⟨rfl, rfl⟩ := again.unique run
  refine (descending middleWellFormed added.stored (height + 1)).assuming ?_
  exact fun final _ given => ⟨given.1.1, given.2⟩

/-- So may the disjunction of what was found for two sides, if anything was. -/
theorem Descending.sides (left right : Option Key) (height : Nat) :
    before.Toward
      (fun final => height + 1 ≤ levels ∧
        (∀ formula ∈ left, final.LowKey .named height formula) ∧
          ∀ formula ∈ right, final.LowKey .named height formula)
      (match left, right with
      | some left, some right => do
          let disjunction ← junction .disjunction [left, right]
          simplify disjunction
      | left, none => pure left
      | none, right => pure right)
      (fun result final =>
        ∀ formula ∈ result, final.LowKey .named (height + 1) formula) := by
  split
  · rename_i left right
    refine (descending.joined wellFormed left right height).assuming ?_
    intro final _ given
    exact ⟨given.1, given.2.1 left rfl, given.2.2 right rfl⟩
  · refine toward_pure wellFormed fun final _ given formula member => ?_
    exact (given.2.1 formula member).mono (Nat.le_succ _)
  · refine toward_pure wellFormed fun final _ given formula member => ?_
    exact (given.2.2 formula member).mono (Nat.le_succ _)

theorem Descending.simplifyOperands
    (connective : Connective) (names : List Name) (height : Nat) :
    before.Toward
      (fun final => height ≤ levels ∧
        ∀ name ∈ names, final.LowNamed height name)
      (simplifyOperands simplify connective names)
      (fun operands final =>
        ∀ operand ∈ operands, final.LowKey .named height operand) := by
  induction names generalizing before with
  | nil => exact toward_pure wellFormed fun _ _ _ => by simp
  | cons name names inductionHypothesis =>
      have later : ∀ {middle : Registry}, middle.WellFormed →
          middle.Toward
            (fun final => height ≤ levels ∧
              ∀ other ∈ name :: names, final.LowNamed height other)
            (Registry.simplifyOperands simplify connective names)
            (fun operands final =>
              ∀ operand ∈ operands, final.LowKey .named height operand) := by
        intro middle middleWellFormed
        refine (inductionHypothesis middleWellFormed).assuming ?_
        rintro final _ ⟨room, low⟩
        exact ⟨room, fun other member =>
          low other (List.mem_cons_of_mem _ member)⟩
      refine toward_get_bind ?_
      cases bound : before.binding name with
      | none => exact later wellFormed
      | some operand =>
          have first := descending.bound wellFormed bound height
          refine (first.assuming fun final _ given => ?_).bind ?_
          · exact ⟨given.1, given.2 name List.mem_cons_self⟩
          intro result middle _ middleWellFormed _
          cases result with
          | none => exact (later middleWellFormed).assuming fun _ _ => And.left
          | some simplified =>
              refine toward_get_bind ?_
              refine (later middleWellFormed).bind_pure
                (fun _ _ => And.left) ?_
              intro back final extension held backLow formula member
              rcases List.mem_append.mp member with front | behind
              · have low := held.2 simplified rfl
                exact middleWellFormed.lowKey_contribution extension low
                  connective formula front
              · exact backLow formula behind

theorem Descending.simplifyNegations (names : List Name) (height : Nat) :
    before.Toward
      (fun final => height + 1 ≤ levels ∧
        ∀ name ∈ names, final.LowNamed height name)
      (simplifyNegations simplify names)
      (fun operands final =>
        ∀ operand ∈ operands, final.LowKey .named (height + 1) operand) := by
  induction names generalizing before with
  | nil => exact toward_pure wellFormed fun _ _ _ => by simp
  | cons name names inductionHypothesis =>
      have later : ∀ {middle : Registry}, middle.WellFormed →
          middle.Toward
            (fun final => height + 1 ≤ levels ∧
              ∀ other ∈ name :: names, final.LowNamed height other)
            (Registry.simplifyNegations simplify names)
            (fun operands final => ∀ operand ∈ operands,
              final.LowKey .named (height + 1) operand) := by
        intro middle middleWellFormed
        refine (inductionHypothesis middleWellFormed).assuming ?_
        rintro final _ ⟨room, low⟩
        exact ⟨room, fun other member =>
          low other (List.mem_cons_of_mem _ member)⟩
      refine toward_get_bind ?_
      cases bound : before.binding name with
      | none => exact later wellFormed
      | some operand =>
          have ⟨negated, middle, run, extension, simplifying⟩ :=
            descending.negated wellFormed bound height
          refine run.toward_bind extension ?_
          refine (simplifying.assuming fun final _ given => ?_).bind ?_
          · exact ⟨given.1, given.2 name List.mem_cons_self⟩
          intro front next _ nextWellFormed _
          refine (later nextWellFormed).bind_pure (fun _ _ => And.left) ?_
          intro back final _ held backLow formula member
          rcases List.mem_append.mp member with ahead | behind
          · exact held.2 formula (Option.mem_toList.mp ahead)
          · exact backLow formula behind

theorem Descending.simplifyJunction
    (placement : Placement) {key : Key} {node : Node}
    (stored : before.node? key = some node) {connective : Connective}
    {names : List Name} (body : node.body = .junction connective names)
    (height : Nat) :
    before.Toward
      (fun final => height ≤ levels + 1 ∧ final.LowKey placement height key)
      (simplifyJunction simplify placement key connective names)
      (fun result final =>
        ∀ formula ∈ result, final.LowKey placement height formula) := by
  have short : node.span = 1 := by rw [Node.span, body]
  have operandsLow := descending.simplifyOperands wellFormed connective names
    (height - 1)
  refine (operandsLow.assuming fun final extension given => ?_).bind ?_
  · have ⟨room, low⟩ := given
    have ⟨_, names⟩ := low.below (extension.node? stored) short
    refine ⟨by omega, fun name member => ?_⟩
    exact names name (Node.mem_lookups_of_junction body member)
  intro operands middle _ middleWellFormed extension
  refine toward_get_bind ?_
  split
  · exact toward_pure middleWellFormed fun _ _ _ => nofun
  · exact toward_pure middleWellFormed fun _ _ _ => nofun
  · rename_i single reduced
    refine toward_pure middleWellFormed ?_
    intro final later held formula member
    obtain rfl := Option.some.inj member
    have low := held.2 single
      (Pairing.subset_of_reduce? reduced (List.mem_singleton_self single))
    exact (low.of_named placement).mono (Nat.sub_le _ _)
  · rename_i remaining _ _ reduced
    rw [extension.node? stored]
    have rebuilding := toward_rebuild middleWellFormed
      (extension.node? stored) placement connective remaining (height - 1)
    refine rebuilding.bind_pure (fun final later held operand member => ?_) ?_
    · exact held.2 operand (Pairing.subset_of_reduce? reduced member)
    · intro rebuilt final later held low formula member
      obtain rfl := Option.some.inj member
      have ⟨_, lowKey⟩ := held.1
      have ⟨positive, _⟩ :=
        lowKey.below ((extension.trans later).node? stored) short
      exact low.mono (by omega)

/-- The junction of negations is a level higher than they are. -/
theorem Descending.dual
    (connective : Connective) (names : List Name) (height : Nat) :
    before.Toward
      (fun final => height + 1 ≤ levels ∧
        ∀ name ∈ names, final.LowNamed height name)
      (do
        match ← Registry.simplifyNegations simplify names with
        | [] => pure none
        | [single] => pure (some single)
        | negated => do
            let dual ← junction connective.dual negated
            pure (some dual))
      (fun result final =>
        ∀ formula ∈ result, final.LowKey .named (height + 2) formula) := by
  refine (descending.simplifyNegations wellFormed names height).bind ?_
  intro negated middle _ middleWellFormed _
  exact (toward_dual middleWellFormed connective negated (height + 1)).assuming
    fun _ _ => And.right

theorem Descending.simplifyNegation
    (placement : Placement) {key : Key} {node : Node}
    (stored : before.node? key = some node) {operand : Name}
    (body : node.body = .negation operand) (height : Nat) :
    before.Toward
      (fun final => height ≤ levels + 1 ∧ final.LowKey placement height key)
      (simplifyNegation simplify key operand)
      (fun result final =>
        ∀ formula ∈ result, final.LowKey placement height formula) := by
  have short : node.span = 1 := by rw [Node.span, body]
  refine toward_get_bind ?_
  split
  · exact toward_pure wellFormed fun _ _ _ => nofun
  rename_i operandKey operandNode resolution
  split
  · refine toward_pure wellFormed fun final _ given formula member => ?_
    obtain rfl := Option.some.inj member
    exact given.2
  have ⟨bound, _⟩ := resolve_eq_some_iff.mp resolution
  have first := descending.bound wellFormed bound (height - 1)
  refine (first.assuming fun final extension given => ?_).bind ?_
  · have ⟨room, low⟩ := given
    have ⟨_, names⟩ := low.below (extension.node? stored) short
    exact ⟨by omega, names operand (Node.mem_lookups_of_negation body)⟩
  intro result middle _ middleWellFormed extension
  cases result with
  | none => exact toward_pure middleWellFormed fun _ _ _ => nofun
  | some simplified =>
      refine toward_get_bind ?_
      cases simpleStored : middle.node? simplified with
      | none => exact toward_pure middleWellFormed fun _ _ _ => nofun
      | some simple =>
          rw [Option.map_some]
          cases simpleBody : simple.body with
          | negation inner =>
              have shorter : simple.span = 1 := by rw [Node.span, simpleBody]
              refine toward_pure middleWellFormed ?_
              intro final later held formula member
              have ⟨_, names⟩ := (held.2 simplified rfl).below
                (later.node? simpleStored) shorter
              have low :=
                names inner (Node.mem_lookups_of_negation simpleBody)
              exact middleWellFormed.lowKey_of_binding later
                (low.mono (by omega)) member
          | junction connective others =>
              have shorter : simple.span = 1 := by rw [Node.span, simpleBody]
              have below : ∀ final, middle.Extends final →
                  (∀ formula ∈ some simplified,
                    final.LowKey .named (height - 1) formula) →
                  1 ≤ height - 1 ∧
                    ∀ name ∈ others, final.LowNamed (height - 2) name := by
                intro final later found
                have ⟨positive, names⟩ := (found simplified rfl).below
                  (later.node? simpleStored) shorter
                refine ⟨positive, fun name member => names name ?_⟩
                exact Node.mem_lookups_of_junction simpleBody member
              have dual := descending.dual middleWellFormed connective others
                (height - 2)
              refine dual.mono (fun final later held => ?_) ?_
              · have ⟨positive, names⟩ := below final later held.2
                exact ⟨by omega, names⟩
              · intro result final later held found formula member
                have ⟨positive, _⟩ := below final later held.2
                have low := (found formula member).of_named placement
                exact low.mono (by omega)
          | atom | implication antecedent consequent
          | dnf atoms rows generated =>
              have ⟨negated, _, next, run, nextWellFormed, nextExtension, _,
                low⟩ := middleWellFormed.exists_low_negation simpleStored
                  (height - 1)
              refine run.toward_bind nextExtension ?_
              refine toward_pure nextWellFormed ?_
              intro final later held formula member
              obtain rfl := Option.some.inj member
              have ⟨positive, _⟩ := held.1.2.below
                ((extension.trans (nextExtension.trans later)).node? stored)
                short
              have lowNegated :=
                (low final later (held.2 simplified rfl)).of_named placement
              exact lowNegated.mono (by omega)

/-- The sides of an implication lie three levels below it, one of which the
negation of the antecedent takes and one the disjunction. -/
theorem Descending.simplifyImplication
    (placement : Placement) {key : Key} {node : Node}
    (stored : before.node? key = some node)
    {antecedent consequent : Option Name}
    (body : node.body = .implication antecedent consequent) (height : Nat) :
    before.Toward
      (fun final => height ≤ levels + 1 ∧ final.LowKey placement height key)
      (simplifyImplication simplify antecedent consequent)
      (fun result final =>
        ∀ formula ∈ result, final.LowKey placement height formula) := by
  have long : node.span = 3 := by rw [Node.span, body]
  have ⟨premiseNamed, conclusionNamed⟩ := Node.mem_lookups_of_implication body
  have lowSides : ∀ final, before.Extends final →
      height ≤ levels + 1 ∧ final.LowKey placement height key →
        height - 3 + 2 ≤ levels ∧ height - 3 + 2 + 1 ≤ height ∧
          ∀ name ∈ node.lookups, final.LowNamed (height - 3) name := by
    rintro final extension ⟨room, low⟩
    have ⟨positive, names⟩ := low.below (extension.node? stored) long
    exact ⟨by omega, by omega, names⟩
  -- What is found is put in the place of the implication.
  have raised : ∀ {found : Nat} {formula : Key} (final : Registry),
      before.Extends final →
      height ≤ levels + 1 ∧ final.LowKey placement height key →
        found ≤ height - 3 + 3 → final.LowKey .named found formula →
          final.LowKey placement height formula := by
    intro found formula final extension given most low
    have ⟨_, room, _⟩ := lowSides final extension given
    exact (low.of_named placement).mono (by omega)
  refine toward_get_bind ?_
  split
  · exact toward_pure wellFormed fun _ _ _ => nofun
  · rename_i conclusion _ found
    obtain ⟨name, rfl, bound⟩ := Option.bind_eq_some_iff.mp found
    have simplifying := descending.bound wellFormed bound (height - 3)
    refine simplifying.mono (fun final extension given => ?_) ?_
    · have ⟨room, _, low⟩ := lowSides final extension given
      exact ⟨by omega, low name (conclusionNamed name rfl)⟩
    · intro result final extension given low formula member
      exact raised final extension given (by omega) (low formula member)
  · rename_i premise found _
    obtain ⟨name, rfl, bound⟩ := Option.bind_eq_some_iff.mp found
    have ⟨negated, middle, run, extension, simplifying⟩ :=
      descending.negated wellFormed bound (height - 3)
    refine run.toward_bind extension ?_
    refine simplifying.mono (fun final later given => ?_) ?_
    · have ⟨room, _, low⟩ := lowSides final (extension.trans later) given
      exact ⟨by omega, low name (premiseNamed name rfl)⟩
    · intro result final later given low formula member
      exact raised final (extension.trans later) given (by omega)
        (low formula member)
  · rename_i premise conclusion premiseFound conclusionFound
    obtain ⟨premiseName, rfl, premiseBound⟩ :=
      Option.bind_eq_some_iff.mp premiseFound
    obtain ⟨conclusionName, rfl, conclusionBound⟩ :=
      Option.bind_eq_some_iff.mp conclusionFound
    have ⟨negated, second, run, secondExtension, simplifying⟩ :=
      descending.negated wellFormed premiseBound (height - 3)
    refine run.toward_bind secondExtension ?_
    refine (simplifying.assuming fun final later given => ?_).bind ?_
    · have ⟨room, _, low⟩ := lowSides final (secondExtension.trans later) given
      exact ⟨by omega, low premiseName (premiseNamed premiseName rfl)⟩
    intro left third _ thirdWellFormed thirdExtension
    have extension := secondExtension.trans thirdExtension
    have concluding := descending.bound thirdWellFormed
      (extension.bindings conclusionBound) (height - 3)
    refine (concluding.assuming fun final later given => ?_).bind ?_
    · have ⟨room, _, low⟩ := lowSides final (extension.trans later) given.1
      exact ⟨by omega, low conclusionName (conclusionNamed conclusionName rfl)⟩
    intro right fourth _ fourthWellFormed fourthExtension
    have further := extension.trans fourthExtension
    have joining := descending.sides fourthWellFormed left right
      (height - 3 + 1)
    refine joining.mono (fun final later held => ?_) ?_
    · have ⟨room, _⟩ := lowSides final (further.trans later) held.1.1
      refine ⟨by omega, held.1.2, fun formula member => ?_⟩
      exact (held.2 formula member).mono (Nat.le_succ _)
    · intro result final later held low formula member
      exact raised final (further.trans later) held.1.1 (by omega)
        (low formula member)

end Parts

/-! ## Simplification -/

/-- With enough levels for the height of a formula, its simplification is not
refused for the depth limit.  The induction is on the levels. -/
theorem toward_simplifyWithin
    (levels : Nat) (placement : Placement) {before : Registry}
    (wellFormed : before.WellFormed) {key : Key} {node : Node}
    (stored : before.node? key = some node) (height : Nat) :
    before.Toward
      (fun final => height ≤ levels ∧ final.LowKey placement height key)
      (simplifyWithin levels placement key)
      (fun result final =>
        ∀ formula ∈ result, final.LowKey placement height formula) := by
  induction levels generalizing placement before key node height with
  | zero =>
      refine ensures_throw ⟨wellFormed, Extends.refl before, ?_⟩
      rintro final extension ⟨none, low⟩
      have ⟨lowNode, _⟩ := low node (extension.node? stored)
      have positive := node.span_pos.trans lowNode.span_le
      omega
  | succ levels inductionHypothesis =>
      have descending : Descending levels (simplifyWithin levels .named) :=
        fun _ _ _ wellFormed stored height =>
          inductionHypothesis .named wellFormed stored height
      refine toward_get_bind ?_
      rw [stored, Option.map_some]
      cases body : node.body with
      | atom =>
          refine toward_pure wellFormed fun final _ given formula member => ?_
          obtain rfl := Option.some.inj member
          exact given.2
      | negation operand =>
          exact descending.simplifyNegation wellFormed placement stored body
            height
      | junction connective names =>
          exact descending.simplifyJunction wellFormed placement stored body
            height
      | implication antecedent consequent =>
          exact descending.simplifyImplication wellFormed placement stored body
            height
      | dnf atoms rows generated =>
          refine toward_pure wellFormed ?_
          rintro final extension ⟨_, low⟩ recorded rfl formula present
          have ⟨lowNode, _⟩ := low node (extension.node? stored)
          have below : height - node.span ≤ height := Nat.sub_le _ _
          have step := Descends.generated body present
          refine ⟨(lowNode.next (.descends step)).mono below, ?_⟩
          intro _ bearer stands
          exact (lowNode.next (.namesake body present stands)).mono below

/-- A simplification is not refused for the depth limit if, in the registry it
leaves behind, the formula is no higher than there are levels. -/
theorem WellFormed.not_depthExceeded_of_low
    {registry final : Registry} (wellFormed : registry.WellFormed)
    {key : Key} {node : Node} (stored : registry.node? key = some node)
    {height : Nat} (low : final.Low height node)
    (enough : height ≤ registry.levels 0) :
    ¬ registry.Refuses (simplify key) .depthExceeded final := by
  intro refusal
  have toward : registry.Toward
      (fun final => height ≤ registry.levels 0 ∧
        final.LowKey .detached height key)
      (simplify key) (fun _ _ => True) :=
    toward_get_bind <|
      (toward_simplifyWithin _ .detached wellFormed stored height).mono
        (fun _ _ => id) fun _ _ _ _ _ => trivial
  have ⟨_, extension, harmless⟩ := toward.refuses refusal
  refine harmless final (Extends.refl final) ⟨enough, ?_⟩ rfl
  intro other otherStored
  rw [extension.node? stored] at otherStored
  obtain rfl := Option.some.inj otherStored
  exact ⟨low, nofun⟩

end Registry

end NamedLogic
