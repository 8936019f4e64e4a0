import NamedLogic.Proofs.GroundedConstruction
import NamedLogic.Proofs.Outcomes
import NamedLogic.Proofs.Representation

/-!
# Construction neither breaks references nor closes cycles

The disjunction of minterms is bound to its name before its operands are known.
Until it is complete, that name is secluded: no stored node refers to it, and
literals and minterms have other names.  So the operands added lead back to
nothing, and the normal form keeps a registry grounded as the other
constructors do, and with them every history made of them.
-/

namespace NamedLogic

namespace Registry

/-! ## A junction that is being filled -/

/-- A grounded registry in which the name bound to a key is referred to by no
stored node. -/
structure Secluded (registry : Registry) (key : Key) (name : Name) : Prop where
  grounded : registry.Grounded
  bound : registry.binding name = some key
  unreferred : registry.Unreferred name

/-- A node is stored under the key, and has another name. -/
def Elsewhere (registry : Registry) (name : Name) (key : Key) : Prop :=
  ∃ node, registry.node? key = some node ∧ node.name ≠ name

section Secluded

variable {before after registry : Registry} {key made : Key} {name : Name}
  {node : Node}

theorem Elsewhere.of_extends
    (elsewhere : before.Elsewhere name key)
    (extension : before.Extends after) : after.Elsewhere name key := by
  obtain ⟨node, stored, different⟩ := elsewhere
  exact ⟨node, extension.node? stored, different⟩

/-- A new node with other references keeps the name secluded, and has another
name. -/
theorem Secluded.of_adds
    (secluded : before.Secluded key name)
    (added : before.Adds after made node) (solely : before.Solely after made)
    (references : ∀ reference ∈ node.references,
      (before.referent? reference).isSome ∧ reference ≠ name) :
    before.Extends after ∧ after.Secluded key name ∧
      after.Elsewhere name made := by
  refine ⟨added.extension, ?_, node, added.stored, ?_⟩
  · exact {
      grounded := secluded.grounded.of_adds added solely fun reference member =>
        (references reference member).1
      bound := added.extension.bindings secluded.bound
      unreferred := secluded.unreferred.of_solely solely added.stored
        fun member => (references name member).2 rfl }
  · rintro rfl
    have unbound := added.unbound
    rw [secluded.bound] at unbound
    cases unbound

theorem Secluded.ensures_negation
    {refused : LogicError → Registry → Prop}
    (secluded : before.Secluded key name) {operand : Key}
    (elsewhere : before.Elsewhere name operand) :
    before.Ensures (negation operand)
      (fun made after => before.Extends after ∧ after.Secluded key name ∧
        after.Elsewhere name made) refused := by
  obtain ⟨addition, found, different⟩ := elsewhere
  have wellFormed := secluded.grounded.wellFormed
  obtain ⟨_, _, _, run, added⟩ := yields_negation wellFormed found
  refine run.ensures (secluded.of_adds added (wellFormed.solely_negation run) ?_)
  intro reference member
  obtain rfl : reference = addition.name := by
    simpa [Node.references, Body.references] using member
  exact ⟨secluded.grounded.supported.named found, different⟩

theorem Secluded.ensures_junction
    {refused : LogicError → Registry → Prop}
    (secluded : before.Secluded key name) (connective : Connective)
    {operands : List Key}
    (elsewhere : ∀ operand ∈ operands, before.Elsewhere name operand) :
    before.Ensures (junction connective operands)
      (fun made after => before.Extends after ∧ after.Secluded key name ∧
        after.Elsewhere name made) refused := by
  have wellFormed := secluded.grounded.wellFormed
  obtain ⟨additions, stored⟩ := exists_additions fun operand member absent => by
    obtain ⟨_, found, _⟩ := elsewhere operand member
    rw [absent] at found
    cases found
  obtain ⟨_, _, _, run, added⟩ := yields_junction wellFormed connective stored
  refine run.ensures (secluded.of_adds added (wellFormed.solely_junction run) ?_)
  intro reference member
  obtain ⟨operand, listed, addition, found, held⟩ :=
    exists_held_of_gathered stored member
  refine ⟨secluded.grounded.supported operand addition found reference held, ?_⟩
  rintro rfl
  rcases List.mem_cons.mp held with rfl | referred
  · obtain ⟨_, again, different⟩ := elsewhere operand listed
    rw [found] at again
    exact different (congrArg Node.name (Option.some.inj again).symm)
  · exact secluded.unreferred operand addition found referred

/-- The induction is on the atoms, which go on to be stored under other names
while negations are added. -/
theorem Secluded.ensures_rowLiterals
    {refused : LogicError → Registry → Prop}
    (secluded : before.Secluded key name) (row : Nat)
    {atoms : List (Key × Nat)}
    (elsewhere : ∀ placed ∈ atoms, before.Elsewhere name placed.1) :
    before.Ensures (rowLiterals row atoms)
      (fun literals after => before.Extends after ∧ after.Secluded key name ∧
        ∀ literal ∈ literals, after.Elsewhere name literal) refused := by
  induction atoms generalizing before with
  | nil => exact ensures_pure ⟨Extends.refl before, secluded, by simp⟩
  | cons placed atoms inductionHypothesis =>
      obtain ⟨atom, position⟩ := placed
      have atomElsewhere := elsewhere (atom, position) List.mem_cons_self
      have first : before.Ensures
          (if row.testBit position then pure atom else negation atom)
          (fun made after => before.Extends after ∧ after.Secluded key name ∧
            after.Elsewhere name made) refused := by
        split
        · exact ensures_pure ⟨Extends.refl before, secluded, atomElsewhere⟩
        · exact secluded.ensures_negation atomElsewhere
      rw [rowLiterals_cons]
      refine first.bind ?_
      rintro _ middle - ⟨extension, middleSecluded, literalElsewhere⟩
      refine (inductionHypothesis middleSecluded fun other member =>
        (elsewhere other (List.mem_cons_of_mem _ member)).of_extends
          extension).bind_pure ?_
      rintro literals last ⟨later, lastSecluded, othersElsewhere⟩
      exact ⟨extension.trans later, lastSecluded, List.forall_mem_cons.mpr
        ⟨literalElsewhere.of_extends later, othersElsewhere⟩⟩

/-- The node that bears a secluded name may come to refer to other names that
stand. -/
theorem Secluded.of_solely
    (secluded : before.Secluded key name) (wellFormed : after.WellFormed)
    (solely : before.Solely after key) (stored : after.node? key = some node)
    (named : node.name = name)
    (bindings : ∀ other, after.binding other = before.binding other)
    (references : ∀ reference ∈ node.references,
      (before.referent? reference).isSome ∧ reference ≠ name) :
    after.Secluded key name := by
  subst named
  have bound : after.binding node.name = some key :=
    (bindings _).trans secluded.bound
  have standing : ∀ other, (before.referent? other).isSome →
      (after.referent? other).isSome := by
    intro other stands
    obtain ⟨bearer, was⟩ := secluded.grounded.wellFormed.stands_iff.mp stands
    exact wellFormed.stands_iff.mpr ⟨bearer, (bindings other).trans was⟩
  have unreferred := secluded.unreferred.of_solely solely stored
    fun member => (references _ member).2 rfl
  refine ⟨?_, bound, unreferred⟩
  refine secluded.grounded.of_solely wellFormed solely stored standing ?_
    fun _ _ => unreferred
  intro other held
  rcases List.mem_cons.mp held with rfl | referred
  · exact wellFormed.stands_iff.mpr ⟨key, bound⟩
  · exact standing other (references other referred).1

/-- Adding an operand of another name to the node that bears a secluded name
keeps the name secluded. -/
theorem Secluded.after_addOperand
    (secluded : registry.Secluded key name) {operand : Key}
    (elsewhere : registry.Elsewhere name operand) :
    (registry.after (addOperand key operand)).Secluded key name ∧
      ∀ other, registry.Elsewhere name other →
        (registry.after (addOperand key operand)).Elsewhere name other := by
  obtain ⟨wellFormed, supported, _⟩ := secluded.grounded
  obtain ⟨addition, found, different⟩ := elsewhere
  obtain ⟨target, stored, rfl⟩ := wellFormed.bound secluded.bound
  have solely := solely_addOperand key operand registry
  constructor
  · cases body : target.body with
    | junction connective operands =>
        have admits : registry.Admits (.junction connective
            (extendOperands target.name connective operands addition).2) :=
          wellFormed.admits_extendOperands found
            (body ▸ wellFormed.admits stored)
        have inTable : target.name < registry.strings.size :=
          wellFormed.named stored
        have bearing : ∀ name, registry.binding name = some key →
            target.name = name :=
          fun _ bound => wellFormed.named_of_binding bound stored
        rw [(yields_addOperand stored body found).after_eq] at solely ⊢
        refine secluded.of_solely
          (wellFormed.replace stored inTable admits bearing) solely
          ((node?_replace stored _ key).trans (if_pos rfl)) rfl
          (fun _ => rfl) fun reference member => ?_
        rcases mem_extendOperands member with earlier | rfl | inner
        · have referred : reference ∈ target.references := by
            simpa [Node.references, body, Body.references] using earlier
          exact ⟨supported.referred stored referred, fun same =>
            secluded.unreferred key target stored (same ▸ referred)⟩
        · exact ⟨supported.named found, different⟩
        · exact ⟨supported.referred found inner, fun same =>
            secluded.unreferred operand addition found (same ▸ inner)⟩
    | _ =>
        rw [addOperand, (yields_stored_iff.mpr ⟨found, rfl⟩).after_bind,
          (yields_stored_iff.mpr ⟨stored, rfl⟩).after_bind, body]
        exact secluded
  · rintro other ⟨node, there, apart⟩
    refine ⟨node, (solely.nodes ?_).trans there, apart⟩
    rintro rfl
    rw [stored] at there
    exact apart (congrArg Node.name (Option.some.inj there).symm)

/-! ## The loop over the minterms -/

/-- A round of the loop keeps the name of the disjunction secluded and that of
the atoms apart from it. -/
theorem Secluded.ensures_addMinterms
    (secluded : before.Secluded key name) {atoms : List Key}
    (elsewhere : ∀ atom ∈ atoms, before.Elsewhere name atom)
    (rows : List Nat) :
    before.Ensures (addMinterms key atoms rows)
      (fun _ after => after.Secluded key name ∧
        ∀ atom ∈ atoms, after.Elsewhere name atom)
      fun _ => Grounded := by
  refine ensures_forM ?_ ⟨secluded, elsewhere⟩
  rintro row - current ⟨held, apart⟩
  have placedApart : ∀ placed ∈ atoms.zipIdx,
      current.Elsewhere name placed.1 :=
    fun placed member => apart placed.1 (List.fst_mem_of_mem_zipIdx member)
  refine (held.ensures_rowLiterals row placedApart).bind ?_
  rintro literals middle - ⟨first, middleHeld, literalsApart⟩
  refine (middleHeld.ensures_junction .conjunction literalsApart).bind ?_
  rintro minterm last - ⟨second, lastHeld, mintermApart⟩
  obtain ⟨filled, stillApart⟩ := lastHeld.after_addOperand mintermApart
  have round : last.Ensures (addOperand key minterm)
      (fun _ after => after.Secluded key name ∧
        ∀ atom ∈ atoms, after.Elsewhere name atom) fun _ => Grounded := by
    refine (ensures_of_after ⟨filled, fun atom member => ?_⟩).mono id
      fun holds => holds.1.grounded
    exact stillApart atom
      ((apart atom member).of_extends (first.trans second))
  exact round.bind fun _ holds => ensures_pure holds

end Secluded

/-! ## Disjunctive normal forms -/

/-- The disjunction is bound to a name that nothing held, and none of the atoms
bears. -/
theorem Grounded.after_minterms
    {registry : Registry} (grounded : registry.Grounded) {atoms : List Key}
    (stored : ∀ atom ∈ atoms, ∃ node, registry.node? atom = some node)
    (rows : List Nat) :
    (registry.after (minterms atoms rows)).Grounded := by
  obtain ⟨disjunction, name, middle, run, added⟩ :=
    exists_filling grounded.wellFormed
  have solely := grounded.wellFormed.solely_junction run
  have secluded : middle.Secluded disjunction name := {
    grounded := grounded.of_adds added solely
      (by simp [Node.references, Body.references])
    bound := added.bound
    unreferred := (grounded.founded.unreferred added.unbound).of_solely
      solely added.stored (by simp [Node.references, Body.references]) }
  have elsewhere : ∀ atom ∈ atoms, middle.Elsewhere name atom := by
    intro atom member
    obtain ⟨node, found⟩ := stored atom member
    refine ⟨node, added.extension.node? found, fun same => ?_⟩
    have stands := grounded.supported.named found
    rw [same] at stands
    exact not_stands_of_unbound added.unbound stands
  rw [minterms_eq, run.after_bind]
  refine Ensures.after <|
    (secluded.ensures_addMinterms elsewhere rows).bind ?_
  rintro _ last - ⟨filled, -⟩
  exact ensures_get_bind <| ensures_of_after <|
    sustained_keepsGrounded.simplifyWithin _ .named disjunction last
      filled.grounded

theorem keepsGrounded_dnf
    (registry : Registry) (atoms : List Key) (rows : UInt64) :
    registry.KeepsGrounded (registry.after (dnf atoms rows)) := by
  intro grounded
  refine keepsGrounded_bind
    (by rw [after_atomNames]; exact KeepsGrounded.refl registry) ?_ grounded
  intro names middle naming
  obtain ⟨rfl, named⟩ := stored_of_atomNames naming
  have atomsStored : ∀ atom ∈ atoms,
      ∃ node, registry.node? atom = some node := fun atom member =>
    (atoms_of_atomNames naming atom member).imp fun _ found => found.1
  refine keepsGrounded_bind (fun _ => grounded.after_minterms atomsStored _) ?_
  intro generated last generation lastGrounded
  obtain ⟨_, extension⟩ :=
    generation.related (grows_minterms atoms _ registry) grounded.wellFormed
  refine lastGrounded.after_insertFresh .compound none ?_
    (admits_dnf grounded.wellFormed naming generation rows).generated
  intro name member
  obtain ⟨_, _, found, rfl⟩ := named name member
  exact extension.stands (grounded.supported.named found)

end Registry

/-! ## Histories -/

/-- The operations that construct formulas, from stored ones, for given names or
for given values. -/
def Operation.constructs : Operation → Bool
  | atom _ | describe _ | describeFour _ => true
  | operation => operation.forms

theorem Operation.keepsGrounded
    {operation : Operation} (constructs : operation.constructs)
    (registry : Registry) :
    registry.KeepsGrounded (operation.apply registry) := by
  cases operation with
  | atom string => exact Registry.keepsGrounded_atom registry string
  | freshAtom => exact Registry.keepsGrounded_freshAtom registry
  | negation operand => exact Registry.keepsGrounded_negation registry operand
  | junction connective operands =>
      exact Registry.keepsGrounded_junction registry connective operands
  | implication antecedent consequent =>
      exact Registry.keepsGrounded_implication registry antecedent consequent
  | dnf atoms rows => exact Registry.keepsGrounded_dnf registry atoms rows
  | simplify key =>
      exact Registry.sustained_keepsGrounded.simplify key registry
  | describe valuation =>
      exact Registry.keepsGrounded_toFormula registry valuation
  | describeFour valuation =>
      exact Registry.keepsGrounded_toFormula registry valuation
  | configure | intern | setAntecedent | setConsequent | addOperand
  | register | remove | removeKey | rename | setOwner | clear =>
      cases constructs

namespace Registry

theorem Grounded.foldl
    {registry : Registry} (grounded : registry.Grounded)
    {history : List Operation}
    (constructs : ∀ operation ∈ history, operation.constructs) :
    (history.foldl (fun registry operation => operation.apply registry)
      registry).Grounded := by
  induction history generalizing registry with
  | nil => exact grounded
  | cons operation history inductionHypothesis =>
      obtain ⟨first, rest⟩ := List.forall_mem_cons.mp constructs
      exact inductionHypothesis (Operation.keepsGrounded first registry grounded)
        rest

/-- If no name is listed as cyclic, and every name held by a stored node, bound
or not, stands for a stored node, then both go on to hold whatever formulas are
constructed, whether or not some of the operations are refused. -/
theorem Reachable.construction_leaves_grounded
    {registry : Registry} (reachable : registry.Reachable)
    (acyclic : registry.cyclicNames = []) (supported : registry.Supported)
    {history : List Operation}
    (constructs : ∀ operation ∈ history, operation.constructs) :
    let final := history.foldl
      (fun registry operation => operation.apply registry) registry
    final.cyclicNames = [] ∧ final.Supported := by
  intro final
  have grounded : registry.Grounded :=
    ⟨reachable.wellFormed, supported, cyclicNames_eq_nil_iff.mp acyclic⟩
  obtain ⟨_, finalSupported, finalAcyclic⟩ := grounded.foldl constructs
  exact ⟨cyclicNames_eq_nil_iff.mpr finalAcyclic, finalSupported⟩

/-- Names of compound formulas are taken over by atoms, a normal form and a
simplification draw names for new nodes, and two operations are refused. -/
theorem construction_leaves_grounded_of_takeovers :
    let registry := replay
      [.atom "p", .atom "q", .junction .conjunction [⟨1⟩, ⟨2⟩],
        .negation ⟨3⟩, .implication (some ⟨4⟩) (some ⟨1⟩)]
    let history : List Operation :=
      [.atom "F1", .dnf [⟨1⟩, ⟨2⟩] 6, .simplify ⟨5⟩, .negation ⟨99⟩,
        .describe (Valuation.ofList [("F2", true), ("q", false)]), .atom ""]
    let final := history.foldl
      (fun registry operation => operation.apply registry) registry
    registry.cyclicNames = [] ∧ registry.Supported ∧
      final.cyclicNames = [] ∧ final.Supported := by
  intro registry history final
  have acyclic : registry.cyclicNames = [] := by decide +kernel
  have supported : registry.Supported := by decide +kernel
  have constructs : ∀ operation ∈ history, operation.constructs := by
    decide +kernel
  have reachable : registry.Reachable := reachable_replay _
  exact ⟨acyclic, supported,
    reachable.construction_leaves_grounded acyclic supported constructs⟩

end Registry

end NamedLogic
