import NamedLogic.Proofs.FormationFrame
import NamedLogic.Proofs.GroundedRegistries

/-!
# Construction keeps registries grounded

What is constructed refers to names of stored nodes and is bound to a name that
nothing held, or is an atom and refers to nothing.  So each constructor keeps a
registry grounded, whether it is refused or not.  The one node that is not
finished when it is bound is the disjunction of minterms: while operands are
added to it, nothing is allowed to refer to its name.
-/

namespace NamedLogic

namespace Registry

/-- A change that keeps a registry grounded. -/
def KeepsGrounded (before after : Registry) : Prop :=
  before.Grounded → after.Grounded

theorem KeepsGrounded.refl (registry : Registry) :
    registry.KeepsGrounded registry := id

theorem KeepsGrounded.trans
    {before middle after : Registry}
    (first : before.KeepsGrounded middle)
    (second : middle.KeepsGrounded after) :
    before.KeepsGrounded after :=
  second ∘ first

theorem keepsGrounded_bind
    {α β : Type} {registry : Registry} {update : Update α}
    {next : α → Update β}
    (first : registry.KeepsGrounded (registry.after update))
    (rest : ∀ value middle, registry.Yields update value middle →
      middle.KeepsGrounded (middle.after (next value))) :
    registry.KeepsGrounded (registry.after (update >>= next)) :=
  after_bind_of_trans KeepsGrounded KeepsGrounded.trans first rest

/-! ## New nodes under generated names -/

section Constructors

variable {registry : Registry}

theorem Grounded.after_insertFresh
    (grounded : registry.Grounded) (flavour : Flavour) (owner : Option Entity)
    {body : Body}
    (references : ∀ reference ∈ body.references,
      (registry.referent? reference).isSome)
    (generated : ∀ formula ∈ body.generated?,
      formula.id < registry.nodes.size) :
    (registry.after (insertFresh flavour owner body)).Grounded := by
  have admits : registry.Admits body :=
    ⟨fun reference member =>
      grounded.wellFormed.lt_of_stands (references reference member), generated⟩
  obtain ⟨_, _, _, run, added⟩ :=
    adds_insertFresh grounded.wellFormed flavour owner admits
  rw [run.after_eq]
  exact grounded.of_adds added (grounded.wellFormed.solely_insertFresh run)
    references

theorem keepsGrounded_freshAtom (registry : Registry) :
    registry.KeepsGrounded (registry.after freshAtom) :=
  fun grounded => grounded.after_insertFresh .atom none
    (by simp [Body.references]) (by simp [Body.generated?])

theorem keepsGrounded_negation (registry : Registry) (operand : Key) :
    registry.KeepsGrounded (registry.after (negation operand)) := by
  intro grounded
  refine after_operandName_bind Grounded grounded fun node found => ?_
  refine grounded.after_insertFresh .compound none ?_ (by simp [Body.generated?])
  intro reference member
  obtain rfl : reference = node.name := by
    simpa [Body.references] using member
  exact grounded.supported.named found

theorem keepsGrounded_implication
    (registry : Registry) (antecedent consequent : Option Key) :
    registry.KeepsGrounded
      (registry.after (implication antecedent consequent)) := by
  intro grounded
  refine after_sideName_bind Grounded grounded fun premise first => ?_
  refine after_sideName_bind Grounded grounded fun conclusion second => ?_
  refine grounded.after_insertFresh .compound none ?_ (by simp [Body.generated?])
  intro reference member
  obtain ⟨_, _, found, rfl⟩ :=
    (List.mem_append.mp member).elim (first reference) (second reference)
  exact grounded.supported.named found

/-- The operands gathered for a junction are names held by the nodes added. -/
theorem exists_held_of_gathered
    {operands : List Key} {additions : List Node}
    (stored : operands.map registry.node? = additions.map some)
    {own name : Name} {connective : Connective}
    (member : name ∈ gatherOperands own connective [] additions) :
    ∃ operand ∈ operands, ∃ addition,
      registry.node? operand = some addition ∧
        name ∈ addition.name :: addition.references := by
  rcases mem_gatherOperands member with absurd | ⟨addition, among, taken⟩
  · cases absurd
  · obtain ⟨operand, listed, found⟩ := (mem_additions_iff stored).mp among
    refine ⟨operand, listed, addition, found, ?_⟩
    exact List.mem_cons.mpr (taken.imp_right Node.mem_references)

theorem keepsGrounded_junction
    (registry : Registry) (connective : Connective) (operands : List Key) :
    registry.KeepsGrounded
      (registry.after (junction connective operands)) := by
  intro grounded
  by_cases complete : ∀ operand ∈ operands, registry.node? operand ≠ none
  · obtain ⟨additions, stored⟩ := exists_additions complete
    obtain ⟨_, _, _, run, added⟩ :=
      yields_junction grounded.wellFormed connective stored
    rw [run.after_eq]
    refine grounded.of_adds added (grounded.wellFormed.solely_junction run) ?_
    intro reference member
    obtain ⟨operand, _, addition, found, held⟩ :=
      exists_held_of_gathered stored member
    exact grounded.supported operand addition found reference held
  · push Not at complete
    obtain ⟨missing, member, absent⟩ := complete
    rw [(refuses_junction connective member absent).after_eq]
    exact grounded

/-! ## Simplification -/

theorem Supported.operandNames
    (supported : registry.Supported) {operands : List Key} {name : Name}
    (member : name ∈ registry.operandNames operands) :
    (registry.referent? name).isSome := by
  obtain ⟨operand, _, named⟩ := List.mem_filterMap.mp member
  obtain ⟨node, found, rfl⟩ := Option.map_eq_some_iff.mp named
  exact supported.named found

/-- A junction rebuilt under the name of the original is not bound, and so adds
no reference. -/
theorem keepsGrounded_rebuild
    {key : Key} {node : Node} (stored : registry.node? key = some node)
    (placement : Placement) (connective : Connective) (operands : List Key) :
    registry.KeepsGrounded
      (registry.after (rebuild placement node connective operands)) := by
  intro grounded
  cases placement with
  | named =>
      change (registry.after (get >>= _)).Grounded
      rw [after_get_bind]
      exact grounded.after_insertFresh .compound node.owner
        (fun _ => grounded.supported.operandNames) (by simp [Body.generated?])
  | detached =>
      obtain ⟨rebuilt, own, after, run, rebuilds⟩ := yields_rebuild
        grounded.wellFormed stored .detached connective operands
      obtain rfl : own = node.name := rebuilds.detached rfl
      obtain ⟨_, _, unbound⟩ := grounded.wellFormed.detached_of_rebuild run
      rw [run.after_eq]
      have standing : ∀ name, (registry.referent? name).isSome →
          (after.referent? name).isSome :=
        fun _ => rebuilds.extension.stands
      refine grounded.of_solely rebuilds.wellFormed
        (grounded.wellFormed.solely_rebuild run) rebuilds.stored standing ?_
        fun bound => (unbound _ bound).elim
      intro name held
      rcases List.mem_cons.mp held with rfl | referred
      · exact standing node.name (grounded.supported.named stored)
      · exact standing name (grounded.supported.operandNames referred)

theorem sustained_keepsGrounded : Sustained KeepsGrounded where
  refl := KeepsGrounded.refl
  trans := KeepsGrounded.trans
  negation := keepsGrounded_negation
  junction := keepsGrounded_junction
  rebuild := keepsGrounded_rebuild

/-! ## Atoms asked for by name -/

/-- Only nodes and bindings matter. -/
theorem Grounded.of_same
    {after : Registry} (grounded : registry.Grounded)
    (wellFormed : after.WellFormed)
    (nodes : ∀ key, after.node? key = registry.node? key)
    (bindings : ∀ name, after.binding name = registry.binding name) :
    after.Grounded := by
  have referents : ∀ name, after.referent? name = registry.referent? name := by
    simp [referent?, bindings, funext nodes]
  refine ⟨wellFormed, fun key node stored name held => ?_, ?_⟩
  · rw [referents]
    exact grounded.supported key node (nodes key ▸ stored) name held
  · refine acyclic_of_edges grounded.acyclic fun name reference refers => ?_
    rw [refers_iff, referents, ← refers_iff] at refers
    exact Or.inl refers

/-- A name taken over by an atom goes on to stand, and refers to nothing. -/
theorem Grounded.insert_atom
    (grounded : registry.Grounded) {name : Name}
    (named : name < registry.strings.size) :
    (registry.insert { name, body := .atom }).2.Grounded := by
  let node : Node := { name, body := .atom }
  have admits : registry.Admits node.body :=
    ⟨by simp [node, Body.references], by simp [node, Body.generated?]⟩
  have inserted : (registry.insert node).2.WellFormed :=
    grounded.wellFormed.insert named admits
  have stored : (registry.insert node).2.node? (registry.insert node).1 =
      some node := by simp [Registry.insert]
  have slot : name < (registry.store node).2.bindings.size :=
    Nat.lt_of_lt_of_eq named grounded.wellFormed.slots.symm
  have bindings := binding_bind slot (registry.store node).1
  have ownStands : ((registry.insert node).2.referent? name).isSome :=
    inserted.stands_iff.mpr ⟨_, (bindings name).trans (if_pos rfl)⟩
  refine grounded.of_solely inserted (grounded.wellFormed.solely_insert named)
    stored ?_ ?_ ?_
  · intro other stands
    by_cases same : other = name
    · rw [same]
      exact ownStands
    · obtain ⟨key, bound⟩ := grounded.wellFormed.stands_iff.mp stands
      exact inserted.stands_iff.mpr
        ⟨key, (bindings other).trans ((if_neg same).trans bound)⟩
  · intro other held
    obtain rfl : other = name := by
      simpa [node, Node.references, Body.references] using held
    exact ownStands
  · exact fun _ referring => (referring rfl).elim

theorem keepsGrounded_atom (registry : Registry) (string : String) :
    registry.KeepsGrounded (registry.after (atom string)) := by
  intro grounded
  unfold atom
  split
  · exact grounded
  · have interned : (registry.intern string).2.Grounded :=
      grounded.of_same (grounded.wellFormed.intern string)
        (node?_intern registry string) (binding_intern registry string)
    refine keepsGrounded_bind (fun _ => interned) ?_ grounded
    intro name middle interning
    obtain ⟨rfl, rfl⟩ := yields_modifyGet_iff.mp interning
    rw [after_get_bind]
    split
    · exact KeepsGrounded.refl _
    · exact fun _ => interned.insert_atom
        (grounded.wellFormed.numbered.intern_lt string)

theorem keepsGrounded_toFormula
    (registry : Registry) {V : Type} [TruthValue V] (valuation : Valuation V) :
    registry.KeepsGrounded (registry.after valuation.toFormula) :=
  sustained_keepsGrounded.toFormula keepsGrounded_atom valuation registry

end Constructors

end Registry

end NamedLogic
