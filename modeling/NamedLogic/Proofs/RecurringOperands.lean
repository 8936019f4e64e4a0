import NamedLogic.Proofs.JunctionOrder
import NamedLogic.Proofs.NormalForms

/-!
# Operands that recur

The operands that simplification collects for a junction may recur.  Comparing
them finds this out of formulas with normal trees, which are like themselves.
Any other result was made in the course of the simplification that yielded it,
and does not come of another one.  So the junctions that simplification rebuilds
are in order, provided it comes upon no disjunctive normal form but those whose
generated formulas still have normal trees.
-/

namespace NamedLogic

namespace Registry

/-! ## Formulas that comparing finds -/

/-- A formula with a normal tree is bound to its own name under the key. -/
def Comparable (registry : Registry) (key : Key) : Prop :=
  registry.PresentsNormal .named (registry.levels 0) key

section Comparable

variable {before after registry : Registry} {key : Key}

theorem Comparable.bound
    (comparable : registry.Comparable key) : registry.Bound key := by
  obtain ⟨_, _, presents⟩ := comparable
  exact presents.bound rfl

theorem Comparable.of_extends
    (comparable : before.Comparable key)
    (beforeWellFormed : before.WellFormed)
    (afterWellFormed : after.WellFormed)
    (extension : before.Extends after) :
    after.Comparable key := by
  unfold Comparable
  rw [extension.levels_eq 0]
  exact PresentsNormal.of_extends comparable beforeWellFormed
    afterWellFormed extension

/-- Comparing finds the formula like itself. -/
theorem Comparable.alike_self
    (comparable : registry.Comparable key)
    (wellFormed : registry.WellFormed) :
    registry.alike key key = true := by
  obtain ⟨tree, normal, presents⟩ := comparable
  rw [wellFormed.alike_eq presents presents normal normal le_rfl]
  exact normal.alike_refl

/-- The names that such a formula looks up are bound to such formulas. -/
theorem Comparable.exists_operand
    (comparable : registry.Comparable key)
    (wellFormed : registry.WellFormed) {node : Node}
    (stored : registry.node? key = some node) {name : Name}
    (named : name ∈ node.lookups) :
    ∃ operand, registry.binding name = some operand ∧
      registry.Comparable operand := by
  obtain ⟨tree, normal, presents⟩ := comparable
  obtain rfl := presents.unfold_eq stored
  have levels : registry.levels 0 = registry.levels 1 + 1 := rfl
  rw [levels] at normal
  obtain ⟨operandNormal, _⟩ := normal_of_mem_lookups normal named
  obtain ⟨operand, bound, shown⟩ :=
    wellFormed.exists_presents operandNormal.resolved
  have presented : registry.PresentsNormal .named (registry.levels 1)
      operand := ⟨_, operandNormal, shown⟩
  exact ⟨operand, bound, presented.more (Nat.le_succ _)⟩

theorem comparable_of_atom
    {node : Node} (bound : registry.Bound key)
    (stored : registry.node? key = some node) (body : node.body = .atom) :
    registry.Comparable key :=
  ⟨_, .positive _, ⟨node, stored, unfold_atom body (registry.levels 1)⟩,
    fun _ => bound⟩

theorem comparable_of_negated_atom
    {node atom : Node} {operand : Name} {atomKey : Key}
    (deep : 2 ≤ registry.levels 0) (bound : registry.Bound key)
    (stored : registry.node? key = some node)
    (body : node.body = .negation operand)
    (resolution : registry.resolve operand = some (atomKey, atom))
    (isAtom : atom.isAtom) :
    registry.Comparable key := by
  obtain ⟨levels, enough⟩ := Nat.exists_eq_add_of_le' deep
  obtain ⟨atomBound, atomStored⟩ := resolve_eq_some_iff.mp resolution
  have stands : registry.referent? operand = some atom :=
    (referent?_eq_some_iff operand atom).mpr ⟨atomKey, atomBound, atomStored⟩
  have shape : registry.unfold (levels + 2) node =
      .negation (.atom (registry.string atom.name)) := by
    rw [unfold_negation body, nameTree_of_referent stands,
      unfold_atom (Node.body_eq_atom_of_isAtom isAtom)]
  unfold Comparable
  rw [enough]
  exact ⟨_, .negative _, ⟨node, stored, shape⟩, fun _ => bound⟩

end Comparable

/-! ## Formulas accounted for -/

/-- A formula that comparing finds, or one that was made since a number of keys
was issued and looks up names of such formulas only. -/
inductive Accounted (registry : Registry) (since : Nat) : Key → Prop where
  | comparable {key : Key} (comparable : registry.Comparable key) :
      Accounted registry since key
  | made
      {key : Key} {node : Node} {operand : Name → Key}
      (late : since ≤ key.id) (stored : registry.node? key = some node)
      (bound : registry.binding node.name = some key)
      (operands : ∀ name ∈ node.lookups,
        registry.binding name = some (operand name))
      (accounted : ∀ name ∈ node.lookups,
        Accounted registry since (operand name)) :
      Accounted registry since key

section Accounted

variable {before after registry : Registry} {since : Nat} {key : Key}

theorem accounted_of_made
    {node : Node} (late : since ≤ key.id)
    (stored : registry.node? key = some node)
    (bound : registry.binding node.name = some key)
    (operands : ∀ name ∈ node.lookups, ∃ operand,
      registry.binding name = some operand ∧
        registry.Accounted since operand) :
    registry.Accounted since key := by
  let operandOf : Name → Key := fun name => (registry.binding name).getD key
  have assigned : ∀ name ∈ node.lookups,
      registry.binding name = some (operandOf name) := by
    intro name named
    obtain ⟨operand, operandBound, _⟩ := operands name named
    simp [operandOf, operandBound]
  refine .made late stored bound assigned fun name named => ?_
  obtain ⟨operand, operandBound, accounted⟩ := operands name named
  rw [assigned name named] at operandBound
  exact Option.some.inj operandBound ▸ accounted

theorem Accounted.bound
    (accounted : registry.Accounted since key) : registry.Bound key := by
  cases accounted with
  | comparable comparable => exact comparable.bound
  | made _ stored bound => exact ⟨_, stored, bound⟩

theorem Accounted.of_extends
    (accounted : before.Accounted since key)
    (beforeWellFormed : before.WellFormed)
    (afterWellFormed : after.WellFormed)
    (extension : before.Extends after) :
    after.Accounted since key := by
  induction accounted with
  | comparable comparable =>
      exact .comparable (comparable.of_extends beforeWellFormed
        afterWellFormed extension)
  | made late stored bound operands _ inductionHypothesis =>
      exact .made late (extension.node? stored) (extension.bindings bound)
        (fun name named => extension.bindings (operands name named))
        inductionHypothesis

theorem Accounted.earlier
    (accounted : registry.Accounted since key) {earlier : Nat}
    (before : earlier ≤ since) :
    registry.Accounted earlier key := by
  induction accounted with
  | comparable comparable => exact .comparable comparable
  | made late stored bound operands _ inductionHypothesis =>
      exact .made (Nat.le_trans before late) stored bound operands
        inductionHypothesis

/-- What was not made since is found by comparing. -/
theorem Accounted.comparable_of_lt
    (accounted : registry.Accounted since key) (early : key.id < since) :
    registry.Comparable key := by
  cases accounted with
  | comparable comparable => exact comparable
  | made late => exact (Nat.not_lt.mpr late early).elim

theorem Accounted.exists_operand
    (accounted : registry.Accounted since key)
    (wellFormed : registry.WellFormed) {node : Node}
    (stored : registry.node? key = some node) {name : Name}
    (named : name ∈ node.lookups) :
    ∃ operand, registry.binding name = some operand ∧
      registry.Accounted since operand := by
  cases accounted with
  | comparable comparable =>
      obtain ⟨operand, bound, found⟩ :=
        comparable.exists_operand wellFormed stored named
      exact ⟨operand, bound, .comparable found⟩
  | made _ storedAgain _ operands accounted =>
      rw [stored] at storedAgain
      obtain rfl := Option.some.inj storedAgain
      exact ⟨_, operands name named, accounted name named⟩

/-- The name of an operand that is accounted for is bound to it. -/
theorem Accounted.binding_name
    (accounted : registry.Accounted since key) {node : Node}
    (stored : registry.node? key = some node) :
    registry.binding node.name = some key :=
  accounted.bound.binding_of_stored stored

end Accounted

/-! ## Lists of operands -/

/-- The keys are accounted for since the first registry, and those that recur are
found by comparing. -/
structure Separates
    (before : Registry) (keys : List Key) (after : Registry) : Prop where
  accounted : ∀ key ∈ keys, after.Accounted before.nodes.size key
  apart : keys.Pairwise fun first second =>
    first = second → after.Comparable first

section Separates

variable {before middle after : Registry} {keys : List Key}

theorem separates_single
    {key : Key} (accounted : after.Accounted before.nodes.size key) :
    before.Separates [key] after where
  accounted other member := by
    obtain rfl := List.mem_singleton.mp member
    exact accounted
  apart := List.pairwise_singleton _ _

theorem Separates.append
    {more : List Key} (first : before.Separates keys middle)
    (second : middle.Separates more after)
    (middleWellFormed : middle.WellFormed)
    (afterWellFormed : after.WellFormed)
    (earlier : before.Extends middle) (later : middle.Extends after) :
    before.Separates (keys ++ more) after where
  accounted key member := by
    rcases List.mem_append.mp member with early | late
    · exact (first.accounted key early).of_extends middleWellFormed
        afterWellFormed later
    · exact (second.accounted key late).earlier earlier.issued
  apart := by
    refine List.pairwise_append.mpr
      ⟨first.apart.imp fun found same => ?_, second.apart, ?_⟩
    · exact (found same).of_extends middleWellFormed afterWellFormed later
    · -- A key of the first list was issued before the second was collected.
      rintro key early other late rfl
      obtain ⟨node, stored, _⟩ := (first.accounted key early).bound
      exact (second.accounted key late).comparable_of_lt
        (id_lt_of_node? stored)

theorem Separates.contribution
    {key : Key} (separates : before.Separates [key] after)
    (wellFormed : after.WellFormed) (inOrder : after.JunctionsInOrder)
    (connective : Connective) :
    before.Separates (after.contribution connective key) after := by
  have accounted := separates.accounted key (List.mem_singleton_self key)
  unfold Registry.contribution
  obtain ⟨node, stored, _⟩ := accounted.bound
  rw [stored, Option.bind_some]
  split
  · rename_i names flattened
    rw [operandsUnder?_eq_some_iff] at flattened
    constructor
    · intro operand member
      obtain ⟨name, among, bound⟩ := List.mem_filterMap.mp member
      have named : name ∈ node.lookups := by
        simpa [Node.lookups, flattened, Body.references] using among
      obtain ⟨other, otherBound, found⟩ :=
        accounted.exists_operand wellFormed stored named
      rw [bound] at otherBound
      exact Option.some.inj otherBound ▸ found
    · obtain ⟨distinct, _⟩ := inOrder key node stored connective names flattened
      refine List.pairwise_filterMap.mpr (distinct.imp ?_)
      rintro first second different left leftBound right rightBound rfl
      exact (different
        (wellFormed.binding_injective leftBound rightBound)).elim
  · exact separates

/-- The operands that comparing leaves have different names, each bound to one
of the operands compared. -/
theorem Separates.operandNames
    (separates : before.Separates keys middle)
    (wellFormed : middle.WellFormed) {connective : Connective}
    {remaining : List Key}
    (reduced : Pairing.reduce? connective middle.negates middle.alike keys =
      some remaining) :
    (middle.operandNames remaining).Nodup ∧
      ∀ name ∈ middle.operandNames remaining, ∃ operand ∈ keys,
        middle.binding name = some operand := by
  obtain ⟨sublist, unequal⟩ := Pairing.pairwise_of_reduce? reduced
  have bearer : ∀ {operand : Key} {name : Name}, operand ∈ remaining →
      (middle.node? operand).map Node.name = some name →
        middle.binding name = some operand := by
    intro operand name member found
    obtain ⟨node, stored, rfl⟩ := Option.map_eq_some_iff.mp found
    exact (separates.accounted operand
      (sublist.subset member)).binding_name stored
  constructor
  · refine List.pairwise_filterMap.mpr
      (((separates.apart.sublist sublist).and unequal).imp_of_mem ?_)
    rintro first second firstMember secondMember ⟨apart, different⟩ name
      firstNamed _ secondNamed rfl
    have same : first = second := Option.some.inj <|
      (bearer firstMember firstNamed).symm.trans
        (bearer secondMember secondNamed)
    have alike := (apart same).alike_self wellFormed
    rw [← same, alike] at different
    cases different
  · intro name member
    obtain ⟨operand, among, found⟩ := List.mem_filterMap.mp member
    exact ⟨operand, sublist.subset among, bearer among found⟩

end Separates

/-! ## What is made of operands -/

section Made

variable {before middle after : Registry}

/-- A new node under a name of its own is accounted for if the names that it
looks up are bound to formulas that are. -/
theorem separates_of_adds
    (wellFormed : middle.WellFormed) (earlier : before.Extends middle)
    {key : Key} {node : Node} (added : middle.Adds after key node)
    (lookups : ∀ name ∈ node.lookups, ∃ operand,
      middle.binding name = some operand ∧
        middle.Accounted before.nodes.size operand) :
    before.Separates [key] after := by
  refine separates_single (accounted_of_made
    (Nat.le_trans earlier.issued added.new) added.stored added.bound ?_)
  intro name named
  obtain ⟨operand, bound, accounted⟩ := lookups name named
  exact ⟨operand, added.extension.bindings bound,
    accounted.of_extends wellFormed added.wellFormed added.extension⟩

theorem Separates.negated
    {operand key : Key} (separates : before.Separates [operand] middle)
    (wellFormed : middle.WellFormed) (earlier : before.Extends middle)
    (run : middle.Yields (negation operand) key after) :
    before.Separates [key] after := by
  have accounted :=
    separates.accounted operand (List.mem_singleton_self operand)
  obtain ⟨node, stored, bound⟩ := accounted.bound
  obtain ⟨_, _, _, again, added⟩ := yields_negation wellFormed stored
  obtain ⟨rfl, rfl⟩ := run.unique again
  refine separates_of_adds wellFormed earlier added fun name named => ?_
  obtain rfl : name = node.name := by
    simpa [Node.lookups, Body.references] using named
  exact ⟨operand, bound, accounted⟩

theorem Separates.joined
    {connective : Connective} {operands : List Key} {key : Key}
    (separates : before.Separates operands middle)
    (wellFormed : middle.WellFormed) (earlier : before.Extends middle)
    (run : middle.Yields (junction connective operands) key after) :
    before.Separates [key] after := by
  obtain ⟨additions, stored⟩ := additions_of_yields run
  obtain ⟨_, _, _, again, added⟩ :=
    yields_junction wellFormed connective stored
  obtain ⟨rfl, rfl⟩ := run.unique again
  refine separates_of_adds wellFormed earlier added fun name named => ?_
  rcases mem_gatherOperands named with absurd | ⟨addition, among, taken⟩
  · cases absurd
  · have listed : some addition ∈ operands.map middle.node? := by
      rw [stored]
      exact List.mem_map_of_mem among
    obtain ⟨operand, member, there⟩ := List.mem_map.mp listed
    have accounted := separates.accounted operand member
    rcases taken with rfl | inner
    · exact ⟨operand, accounted.binding_name there, accounted⟩
    · exact accounted.exists_operand wellFormed there inner

/-- A new node that is in order leaves all junctions in order. -/
theorem JunctionsInOrder.of_solely
    {key : Key} {node : Node} (inOrder : before.JunctionsInOrder)
    (solely : before.Solely after key)
    (stored : after.node? key = some node) (nodeInOrder : node.InOrder) :
    after.JunctionsInOrder := by
  intro other found there
  by_cases same : other = key
  · subst same
    rw [stored] at there
    exact Option.some.inj there ▸ nodeInOrder
  · exact inOrder other found (solely.nodes same ▸ there)

section Rebuilt

variable {connective : Connective} {operands remaining : List Key}
  {original : Node} {made : Key}
  (separates : before.Separates operands middle)
  (wellFormed : middle.WellFormed) (inOrder : middle.JunctionsInOrder)
  (reduced : Pairing.reduce? connective middle.negates middle.alike
    operands = some remaining)

include separates wellFormed inOrder reduced

/-- A junction rebuilt under a name of its own is in order. -/
theorem Separates.rebuilt
    (earlier : before.Extends middle)
    (run : middle.Yields (rebuild .named original connective remaining)
      made after) :
    after.JunctionsInOrder ∧ before.Separates [made] after := by
  obtain ⟨distinct, bearers⟩ := separates.operandNames wellFormed reduced
  obtain ⟨key, own, final, insertion, added⟩ := adds_insertFresh wellFormed
    .compound original.owner
    (admits_junction connective (wellFormed.operandNames_lt remaining))
  have again : middle.Yields
      (rebuild .named original connective remaining) key final :=
    Yields.bind (yields_get_iff.mpr ⟨rfl, rfl⟩) insertion
  obtain ⟨rfl, rfl⟩ := run.unique again
  constructor
  · refine inOrder.of_solely (wellFormed.solely_rebuild run) added.stored ?_
    intro other names body
    obtain ⟨rfl, rfl⟩ := Body.junction.inj body
    refine ⟨distinct, fun member => ?_⟩
    obtain ⟨operand, _, bound⟩ := bearers own member
    have unbound : middle.binding own = none := added.unbound
    rw [unbound] at bound
    cases bound
  · refine separates_of_adds wellFormed earlier added fun name named => ?_
    obtain ⟨operand, member, bound⟩ := bearers name named
    exact ⟨operand, bound, separates.accounted operand member⟩

/-- A junction rebuilt under the name of the original is in order if that is not
the name of an operand. -/
theorem Separates.inOrder_of_detached
    {key : Key} (stored : middle.node? key = some original)
    (apart : original.name ∉ middle.operandNames remaining)
    (run : middle.Yields (rebuild .detached original connective remaining)
      made after) :
    after.JunctionsInOrder := by
  obtain ⟨distinct, _⟩ := separates.operandNames wellFormed reduced
  obtain ⟨_, _, _, again, rebuilds⟩ :=
    yields_rebuild wellFormed stored .detached connective remaining
  obtain ⟨rfl, rfl⟩ := run.unique again
  refine inOrder.of_solely (wellFormed.solely_rebuild run) rebuilds.stored ?_
  intro other names body
  obtain ⟨rfl, rfl⟩ := Body.junction.inj body
  exact ⟨distinct, rebuilds.detached rfl ▸ apart⟩

end Rebuilt

end Made

/-! ## Every course of simplification -/

/-- The formula generated for a disjunctive normal form, if there is one, is
still bound to its own name and has a normal tree. -/
def KeepsComparable (registry : Registry) (node : Node) : Prop :=
  ∀ key ∈ node.body.generated?, registry.Comparable key

theorem tracked_keepsComparable (registry : Registry) :
    registry.Tracked registry.KeepsComparable where
  recorded {_ _ _ key} keeps body := by
    obtain ⟨formula, stored, _⟩ := (keeps key (by rw [body]; rfl)).bound
    exact ⟨formula, stored⟩
  fresh plain _ := by simp [KeepsComparable, plain]
  renamed plain _ _ := by simp [KeepsComparable, plain]

/-- Order of junctions and separation of operands are upheld. -/
theorem upheld_separates
    {base : Registry} {fits : Node → Prop} (wellFormed : base.WellFormed)
    (keeps : ∀ node, fits node → base.KeepsComparable node) :
    Upheld base fits JunctionsInOrder Separates where
  negation inOrder _ := keepsOrder_negation _ _ inOrder
  nil _ := ⟨by simp, .nil⟩
  sublist separates fewer :=
    ⟨fun key member => separates.accounted key (fewer.subset member),
      separates.apart.sublist fewer⟩
  earlier extension separates :=
    ⟨fun key member =>
      (separates.accounted key member).earlier extension.issued,
      separates.apart⟩
  append first second :=
    (first.told rfl).append (second.told rfl) first.tracks.wellFormed
      second.tracks.wellFormed first.tracks.annexes.extension
      second.tracks.annexes.extension
  atom _ bound stored body :=
    separates_single (.comparable (comparable_of_atom bound stored body))
  literal since deep bound stored body resolution isAtom :=
    separates_single (.comparable (comparable_of_negated_atom
      (since.levels_eq 0 ▸ deep) bound stored body resolution isAtom))
  generated registryWellFormed since fitting body :=
    separates_single (.comparable ((keeps _ fitting _
      (by rw [body]; rfl)).of_extends wellFormed registryWellFormed since))
  contribution connective upholds :=
    (upholds.told rfl).contribution upholds.tracks.wellFormed upholds.kept
      connective
  inner {_ _ _ _ node operand} upholds stored body bound := by
    have accounted :=
      (upholds.told rfl).accounted _ (List.mem_singleton_self _)
    obtain ⟨other, otherBound, found⟩ :=
      accounted.exists_operand upholds.tracks.wellFormed stored
        (Node.mem_lookups_of_negation body)
    rw [bound] at otherBound
    exact separates_single (Option.some.inj otherBound ▸ found)
  negated upholds run :=
    ⟨run.after_eq ▸ keepsOrder_negation _ _ upholds.kept,
      (upholds.told rfl).negated upholds.tracks.wellFormed
        upholds.tracks.annexes.extension run⟩
  joined upholds run :=
    ⟨run.after_eq ▸ keepsOrder_junction _ _ _ upholds.kept,
      (upholds.told rfl).joined upholds.tracks.wellFormed
        upholds.tracks.annexes.extension run⟩
  rebuilt upholds reduced run :=
    (upholds.told rfl).rebuilt upholds.tracks.wellFormed upholds.kept
      reduced upholds.tracks.annexes.extension run

end Registry

end NamedLogic
