import NamedLogic.Proofs.DnfGrowth
import NamedLogic.Proofs.OrderedSimplification
import NamedLogic.Proofs.Representation

/-!
# Histories that keep junctions in order

Nothing but simplification writes down a list of operands without looking at
it, and a disjunctive normal form simplifies the formula generated for it.  So
junctions are in order throughout a history in which whatever is simplified
lends itself to that.
-/

namespace NamedLogic

namespace Registry

/-! ## Building a disjunctive normal form -/

section Minterms

variable (registry : Registry)

theorem keepsOrder_addMinterms
    (disjunction : Key) (atoms : List Key) (rows : List Nat) :
    registry.KeepsOrder
      (registry.after (addMinterms disjunction atoms rows)) :=
  formative_keepsOrder.addMinterms
    (fun current operand => current.keepsOrder_addOperand disjunction operand)
    atoms rows registry

end Minterms

/-- Since the first registry nothing was added but nodes that fit, among them the
disjunction of minterms under the key. -/
structure Gathering
    (start : Registry) (fits : Node → Prop) (disjunction : Key)
    (registry : Registry) : Prop where
  annexes : start.Annexes fits registry
  filling : ∃ name, start.Filling disjunction name .disjunction registry

section Gathering

variable {start registry after : Registry} {fits : Node → Prop}
  {disjunction : Key}

theorem Gathering.wellFormed
    (gathering : start.Gathering fits disjunction registry) :
    registry.WellFormed := by
  obtain ⟨_, _, added⟩ := gathering.filling
  exact added.wellFormed

theorem Gathering.tracks
    {placement : Placement} {keys : List Key}
    (gathering : start.Gathering fits disjunction registry)
    (tracks : registry.Tracks fits placement keys after) :
    start.Gathering fits disjunction after := by
  obtain ⟨name, filling⟩ := gathering.filling
  exact ⟨gathering.annexes.trans tracks.annexes, name,
    filling.of_grows fun _ => ⟨tracks.wellFormed, tracks.annexes.extension⟩⟩

theorem Gathering.after_addOperand
    (tracked : start.Tracked fits)
    (gathering : start.Gathering fits disjunction registry) {operand : Key}
    (covers : registry.Covers fits .named operand) :
    start.Gathering fits disjunction
      (registry.after (addOperand disjunction operand)) := by
  obtain ⟨own, operands, added⟩ := gathering.filling
  obtain ⟨addition, found, throughout, safe⟩ := covers
  have annexes := gathering.annexes
  let extended : Node :=
    { name := own, body := .junction .disjunction
        (extendOperands own .disjunction operands addition).2 }
  have replaced : start.Adds (registry.replace disjunction extended)
      disjunction extended :=
    added.replace extended rfl
      (added.wellFormed.admits_extendOperands found
        (added.wellFormed.admits added.stored))
  rw [(yields_addOperand added.stored rfl found).after_eq]
  refine ⟨⟨replaced.extension, ?_, annexes.bindings⟩, own, _, replaced⟩
  intro other node late stored
  rw [node?_replace added.stored] at stored
  split at stored
  · obtain rfl := Option.some.inj stored
    refine ⟨rfl, tracked.fresh rfl added.unbound, fun name member => ?_⟩
    obtain ⟨_, _, earlierSafe⟩ := annexes.new added.new added.stored
    have gathered : name ∈ gatherOperands own .disjunction operands
        [addition] := member
    rcases mem_gatherOperands gathered with early | ⟨same, among, taken⟩
    · exact earlierSafe name early
    · obtain rfl := List.mem_singleton.mp among
      rcases taken with rfl | inner
      · exact (safe rfl).of_larger annexes.extension
      · exact (throughout.safe inner).of_larger annexes.extension
  · exact annexes.new late stored

/-- The disjunction may be simplified. -/
theorem Gathering.covers
    (gathering : start.Gathering fits disjunction registry)
    (wellFormed : start.WellFormed) :
    registry.Covers fits .named disjunction ∧ registry.Bound disjunction := by
  obtain ⟨own, operands, added⟩ := gathering.filling
  have throughout :=
    gathering.annexes.throughout_new wellFormed added.new added.stored
  refine ⟨⟨_, added.stored, throughout, fun _ bearer stands => ?_⟩,
    added.bound_key⟩
  obtain ⟨key, bound, stored⟩ := (referent?_eq_some_iff _ bearer).mp stands
  rw [added.bound] at bound
  obtain rfl := Option.some.inj bound
  rw [added.stored] at stored
  exact Option.some.inj stored ▸ throughout

section Rounds

variable (tracked : start.Tracked fits)

include tracked

/-- The literals of a row are covered, as the atoms are. -/
theorem Tracked.ensures_rowLiterals
    (wellFormed : registry.WellFormed) (since : start.Extends registry)
    (row : Nat) {atoms : List (Key × Nat)}
    (covers : ∀ placed ∈ atoms, registry.Covers fits .named placed.1) :
    registry.Ensures (rowLiterals row atoms)
      (registry.Tracks fits .named) fun _ _ => True := by
  induction atoms generalizing registry with
  | nil => exact ensures_pure (Tracks.nil wellFormed)
  | cons placed atoms inductionHypothesis =>
      obtain ⟨atom, position⟩ := placed
      have atomCovers := covers (atom, position) List.mem_cons_self
      have literal : registry.Ensures
          (if row.testBit position then pure atom else Registry.negation atom)
          (fun literal => registry.Tracks fits .named [literal])
          (fun _ _ => True) := by
        split
        · exact ensures_pure (Tracks.single wellFormed atomCovers)
        · obtain ⟨key, after, run, tracks, _⟩ :=
            tracked.negation wellFormed since atomCovers
          exact run.ensures tracks
      rw [rowLiterals_cons]
      refine literal.bind fun _ tracks => ?_
      exact (inductionHypothesis tracks.wellFormed
        (since.trans tracks.annexes.extension) fun other member =>
          tracks.annexes.covers wellFormed
            (covers other (List.mem_cons_of_mem _ member))).bind_pure
        tracks.append

theorem Gathering.ensures_addMinterm
    (wellFormed : start.WellFormed)
    (gathering : start.Gathering fits disjunction registry)
    {atoms : List Key}
    (covers : ∀ atom ∈ atoms, start.Covers fits .named atom) (row : Nat) :
    registry.Ensures (addMinterm disjunction atoms row)
      (fun _ => start.Gathering fits disjunction) fun _ _ => True := by
  have placedCovers : ∀ placed ∈ atoms.zipIdx,
      registry.Covers fits .named placed.1 :=
    fun placed member => gathering.annexes.covers wellFormed
      (covers placed.1 (List.fst_mem_of_mem_zipIdx member))
  refine (tracked.ensures_rowLiterals gathering.wellFormed
    gathering.annexes.extension row placedCovers).bind
      fun _ literalTracks => ?_
  have gathered := gathering.tracks literalTracks
  obtain ⟨minterm, last, joining, tracks, _⟩ := tracked.junction
    gathered.wellFormed gathered.annexes.extension .conjunction
    literalTracks.covers
  refine joining.ensures_bind ?_
  have added := (gathered.tracks tracks).after_addOperand tracked
    (tracks.covers minterm (List.mem_singleton_self _))
  exact ((ensures_of_after added).mono id fun _ => trivial).bind
    fun _ gathers => ensures_pure gathers

end Rounds

end Gathering

/-- From an atom simplification comes to nothing else. -/
theorem throughout_of_isAtom
    {registry : Registry} {fits : Node → Prop} {node : Node}
    (isAtom : node.isAtom) (fitting : fits node) :
    registry.Throughout fits node := by
  have body := Node.body_eq_atom_of_isAtom isAtom
  intro part comes
  cases comes using Relation.ReflTransGen.head_induction_on with
  | refl => exact fitting
  | head leads _ =>
      cases leads with
      | descends step =>
          cases step with
          | operand named =>
              simp [Node.lookups, body, Body.references] at named
          | generated generatedBody =>
              rw [body] at generatedBody
              cases generatedBody
      | namesake generatedBody =>
          rw [body] at generatedBody
          cases generatedBody

section Dnf

variable {registry : Registry} (wellFormed : registry.WellFormed)
  {atoms : List Key}

include wellFormed

theorem keepsOrder_minterms
    (covers : ∀ atom ∈ atoms,
      registry.Covers registry.KeepsComparable .named atom)
    (rows : List Nat) :
    registry.KeepsOrder (registry.after (minterms atoms rows)) := by
  have tracked := registry.tracked_keepsComparable
  obtain ⟨disjunction, name, middle, run, added⟩ :=
    exists_filling wellFormed
  have noneCovers : ∀ operand ∈ ([] : List Key),
      registry.Covers registry.KeepsComparable .named operand := by simp
  obtain ⟨_, _, again, tracks, _⟩ := tracked.junction wellFormed
    (Extends.refl registry) .disjunction noneCovers
  obtain ⟨rfl, rfl⟩ := run.unique again
  have gathering : registry.Gathering registry.KeepsComparable disjunction
      middle := ⟨tracks.annexes, name, [], added⟩
  rw [minterms_eq]
  refine keepsOrder_bind (registry.keepsOrder_junction .disjunction []) ?_
  intro made _ making
  obtain ⟨rfl, rfl⟩ := run.unique making
  refine keepsOrder_bind
    (middle.keepsOrder_addMinterms disjunction atoms rows) ?_
  intro _ filled loop
  rw [after_get_bind]
  intro inOrder
  have gathered := (ensures_forM (fun row _ current gathers =>
    gathers.ensures_addMinterm tracked wellFormed covers row)
      gathering).yields loop
  have extension := gathered.annexes.extension
  obtain ⟨disjunctionCovers, bound⟩ := gathered.covers wellFormed
  have upheld := upheld_separates wellFormed
    fun node => (id : registry.KeepsComparable node → _)
  have fewer : filled.levels 1 < registry.levels 0 := by
    rw [extension.levels_eq 1]
    exact Nat.lt_succ_self _
  exact Ensures.after ((upheld.simplifyWithin_named tracked fewer
    ⟨gathered.wellFormed, extension, inOrder⟩ disjunctionCovers
    bound).mono Upholds.kept And.right)

/-- What has to be known of the atoms of a disjunctive normal form: from what
their names stand for, simplification comes upon no disjunctive normal form
whose generated formula was tampered with. -/
def GeneratesInOrder (registry : Registry) (atoms : List Key) : Prop :=
  ∀ atom ∈ atoms, ∀ node, registry.node? atom = some node → node.isAtom →
    registry.Safe registry.KeepsComparable node.name

theorem keepsOrder_dnf
    (generates : registry.GeneratesInOrder atoms) (rows : UInt64) :
    registry.KeepsOrder (registry.after (dnf atoms rows)) := by
  refine keepsOrder_bind ?_ fun names middle naming => ?_
  · rw [after_atomNames]
    exact KeepsOrder.refl registry
  · obtain ⟨rfl, _⟩ := within_of_atomNames naming wellFormed
    have covers : ∀ atom ∈ atoms,
        registry.Covers registry.KeepsComparable .named atom := by
      intro atom member
      obtain ⟨node, stored, isAtom⟩ := atoms_of_atomNames naming atom member
      refine ⟨node, stored, throughout_of_isAtom isAtom ?_,
        fun _ => generates atom member node stored isAtom⟩
      simp [KeepsComparable, Node.body_eq_atom_of_isAtom isAtom,
        Body.generated?]
    refine keepsOrder_bind (keepsOrder_minterms wellFormed covers _) ?_
    intro generated last _
    exact last.keepsOrder_insertFresh .compound none fun _ =>
      Node.inOrder_of_not_junction (by simp)

end Dnf

end Registry

/-! ## Histories -/

namespace Operation

/-- Whatever is simplified by the operation lends itself to it. -/
def Careful (registry : Registry) : Operation → Prop
  | simplify key => registry.SimplifiesInOrder key
  | dnf atoms _ => registry.GeneratesInOrder atoms
  | _ => True

/-- A careful operation keeps junctions in order, whether refused or not. -/
theorem keepsOrder
    (operation : Operation) {registry : Registry}
    (wellFormed : registry.WellFormed)
    (careful : operation.Careful registry) :
    registry.KeepsOrder (operation.apply registry) := by
  cases operation with
  | configure => exact registry.keepsOrder_of_nodes fun _ _ stored => stored
  | intern string => exact Registry.keepsOrder_intern string
  | atom string => exact registry.keepsOrder_atom string
  | freshAtom => exact registry.keepsOrder_freshAtom
  | negation operand => exact registry.keepsOrder_negation operand
  | junction connective operands =>
      exact registry.keepsOrder_junction connective operands
  | implication antecedent consequent =>
      exact registry.keepsOrder_implication antecedent consequent
  | setAntecedent target antecedent =>
      exact registry.keepsOrder_setAntecedent target antecedent
  | setConsequent target consequent =>
      exact registry.keepsOrder_setConsequent target consequent
  | addOperand target operand =>
      exact registry.keepsOrder_addOperand target operand
  | register key => exact registry.keepsOrder_register key
  | remove string => exact registry.keepsOrder_remove string
  | removeKey key => exact registry.keepsOrder_removeKey key
  | rename key string => exact registry.keepsOrder_rename key string
  | setOwner key owner => exact registry.keepsOrder_setOwner key owner
  | dnf atoms rows => exact Registry.keepsOrder_dnf wellFormed careful rows
  | simplify key => exact Registry.keepsOrder_simplify wellFormed careful
  | describe valuation => exact registry.keepsOrder_toFormula valuation
  | describeFour valuation => exact registry.keepsOrder_toFormula valuation
  | clear =>
      intro _ key node stored
      change registry.clear.node? key = some node at stored
      simp at stored

end Operation

namespace Registry

/-- The states a registry comes to be in by careful operations. -/
inductive CarefullyReached : Registry → Prop where
  | empty (settings : Settings) : CarefullyReached { settings }
  | step
      {registry : Registry} (earlier : CarefullyReached registry)
      (operation : Operation) (careful : operation.Careful registry) :
      CarefullyReached (operation.apply registry)

theorem CarefullyReached.reachable
    {registry : Registry} (reached : registry.CarefullyReached) :
    registry.Reachable := by
  induction reached with
  | empty settings => exact .empty settings
  | step _ operation _ inductionHypothesis =>
      exact .step inductionHypothesis operation

/-- In a state reached by careful operations, refused ones included, every stored
junction refers to no name twice and not to its own. -/
theorem CarefullyReached.junctions_in_order
    {registry : Registry} (reached : registry.CarefullyReached) :
    ∀ key node connective operands, registry.node? key = some node →
      node.body = .junction connective operands →
        operands.Nodup ∧ node.name ∉ operands := by
  have inOrder : registry.JunctionsInOrder := by
    induction reached with
    | empty settings =>
        intro key node stored
        simp at stored
    | step earlier operation careful inductionHypothesis =>
        exact operation.keepsOrder earlier.reachable.wellFormed careful
          inductionHypothesis
  exact fun key node connective operands stored =>
    inOrder key node stored connective operands

/-- An operand is appended once, however often it is offered, and a junction is
not appended to itself. -/
example :
    (replay
      [.junction .conjunction [], .atom "a", .addOperand ⟨1⟩ ⟨2⟩,
        .addOperand ⟨1⟩ ⟨2⟩, .addOperand ⟨1⟩ ⟨1⟩]).node? ⟨1⟩ =
      some { name := 0, body := .junction .conjunction [1] } := by
  decide +kernel

/-- A conjunction of an atom, a disjunctive normal form, and an implication with
the form for its consequent.  The generated formula is collected twice, and the
simplified conjunction refers to it once. -/
theorem junctions_in_order_of_recurring_form :
    let registry := replay
      [.atom "a", .atom "b", .dnf [⟨1⟩] 1, .implication none (some ⟨6⟩),
        .junction .conjunction [⟨2⟩, ⟨6⟩, ⟨7⟩], .simplify ⟨8⟩]
    registry.node? ⟨9⟩ =
        some { name := 7, body := .junction .conjunction [1, 3] } ∧
      [1, 3].Nodup ∧ 7 ∉ [1, 3] := by
  intro registry
  let atoms := replay [.atom "a", .atom "b"]
  let earlier := replay
    [.atom "a", .atom "b", .dnf [⟨1⟩] 1, .implication none (some ⟨6⟩),
      .junction .conjunction [⟨2⟩, ⟨6⟩, ⟨7⟩]]
  have generates : atoms.GeneratesInOrder [⟨1⟩] := by
    have listed : ∀ node ∈ atoms.node? ⟨1⟩,
        ∀ bearer ∈ atoms.referent? node.name, bearer.isAtom := by
      decide +kernel
    intro atom member node stored _ bearer stands
    obtain rfl := List.mem_singleton.mp member
    have isAtom := listed node stored bearer stands
    refine throughout_of_isAtom isAtom ?_
    simp [KeepsComparable, Node.body_eq_atom_of_isAtom isAtom,
      Body.generated?]
  have simplifies : earlier.SimplifiesInOrder ⟨8⟩ := by
    let nodes : List Node := earlier.nodes.toList.reduceOption
    have closed : ∀ node ∈ nodes, earlier.successors node ⊆ nodes := by
      decide +kernel
    have generated : ∀ node ∈ nodes, ∀ key ∈ node.body.generated?,
        key = ⟨4⟩ := by decide +kernel
    have comparable : earlier.Comparable ⟨4⟩ := by
      let atom : Node := { name := 0, body := .atom }
      let negation : Node := { name := 3, body := .negation 0 }
      have stored : earlier.node? ⟨4⟩ = some negation := by decide +kernel
      have bound : earlier.binding 3 = some ⟨4⟩ := by decide +kernel
      have resolution : earlier.resolve 0 = some (⟨1⟩, atom) := by
        decide +kernel
      exact comparable_of_negated_atom (by decide +kernel)
        ⟨negation, stored, bound⟩ stored rfl resolution rfl
    have listed : ∀ node ∈ earlier.node? ⟨8⟩, node ∈ nodes ∧
        earlier.referent? node.name = some node := by decide +kernel
    intro node stored
    obtain ⟨member, stands⟩ := listed node stored
    refine ⟨fun part comes key made => ?_, fun _ _ _ =>
      ⟨node, stands, fun _ => rfl⟩⟩
    exact generated part (comes.mem_of_closed closed member) key made ▸
      comparable
  have reached : registry.CarefullyReached :=
    .step (.step (.step (.step (.step (.step (.empty {}) (.atom "a") trivial)
      (.atom "b") trivial) (.dnf [⟨1⟩] 1) generates)
      (.implication none (some ⟨6⟩)) trivial)
      (.junction .conjunction [⟨2⟩, ⟨6⟩, ⟨7⟩]) trivial)
      (.simplify ⟨8⟩) simplifies
  have shape : registry.node? ⟨9⟩ =
      some { name := 7, body := .junction .conjunction [1, 3] } := by
    decide +kernel
  exact ⟨shape, reached.junctions_in_order ⟨9⟩ _ _ _ shape rfl⟩

/-- An atom takes over the name of a conjunction, and is added to the conjunction
by way of an implication.  The simplified conjunction carries the name still and
has it among its operands. -/
theorem own_name_after_simplify :
    let registry := replay
      [.junction .conjunction [], .atom "F1", .atom "b",
        .implication none (some ⟨2⟩), .addOperand ⟨1⟩ ⟨4⟩,
        .addOperand ⟨1⟩ ⟨3⟩, .simplify ⟨1⟩]
    registry.Reachable ∧
      registry.node? ⟨5⟩ =
        some { name := 0, body := .junction .conjunction [0, 1] } ∧
      ¬ registry.JunctionsInOrder := by
  intro registry
  have shape : registry.node? ⟨5⟩ =
      some { name := 0, body := .junction .conjunction [0, 1] } := by
    decide +kernel
  refine ⟨reachable_replay _, shape, fun inOrder => ?_⟩
  obtain ⟨_, apart⟩ := inOrder ⟨5⟩ _ shape _ _ rfl
  exact apart List.mem_cons_self

end Registry

end NamedLogic
