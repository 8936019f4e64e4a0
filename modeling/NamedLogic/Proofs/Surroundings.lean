import NamedLogic.Proofs.Growth
import NamedLogic.Proofs.Unfolding
import Mathlib.Logic.Relation

/-!
# What simplification may come to

Simplifying a formula, one may come to whatever its names stand for, to the
formula generated for a disjunctive normal form, and to what the name of that
formula stands for, which need not be the formula itself.  New nodes refer to
names met before.  So a property that all nodes within reach have, and that new
nodes have, is kept within reach while the registry grows.
-/

namespace NamedLogic

namespace Registry

/-- One step that simplification may take from a node.  A result is recorded by
its name, and so the name of a generated formula leads on as well. -/
inductive Leads (registry : Registry) : Node → Node → Prop where
  | descends
      {node next : Node} (step : registry.Descends node next) :
      Leads registry node next
  | namesake
      {node formula bearer : Node} {atoms : List Name} {rows : UInt64}
      {key : Key}
      (body : node.body = .dnf atoms rows (some key))
      (present : registry.node? key = some formula)
      (stands : registry.referent? formula.name = some bearer) :
      Leads registry node bearer

/-- What simplification may come to from a node, the node included. -/
def ComesTo (registry : Registry) : Node → Node → Prop :=
  Relation.ReflTransGen registry.Leads

/-- The nodes one step away. -/
def successors (registry : Registry) (node : Node) : List Node :=
  node.lookups.filterMap registry.referent? ++
    (node.body.generated?.bind registry.node?).toList.flatMap fun formula =>
      formula :: (registry.referent? formula.name).toList

theorem Leads.mem_successors
    {registry : Registry} {node next : Node}
    (leads : registry.Leads node next) :
    next ∈ registry.successors node := by
  cases leads with
  | descends step =>
      cases step with
      | operand named stands =>
          exact List.mem_append_left _
            (List.mem_filterMap.mpr ⟨_, named, stands⟩)
      | generated body present =>
          simp [successors, body, Body.generated?, present]
  | namesake body present stands =>
      simp [successors, body, Body.generated?, present, stands]

/-- From a node of a list that no step leaves one only comes to nodes of the
list. -/
theorem ComesTo.mem_of_closed
    {registry : Registry} {nodes : List Node}
    (closed : ∀ node ∈ nodes, registry.successors node ⊆ nodes)
    {node part : Node} (comes : registry.ComesTo node part)
    (member : node ∈ nodes) : part ∈ nodes := by
  induction comes with
  | refl => exact member
  | tail _ leads inductionHypothesis =>
      exact closed _ inductionHypothesis leads.mem_successors

section Reach

variable (fits : Node → Prop)

/-- Everything that simplification may come to from a node fits. -/
def Throughout (registry : Registry) (node : Node) : Prop :=
  ∀ part, registry.ComesTo node part → fits part

/-- Everything that simplification may come to from what a name stands for
fits. -/
def Safe (registry : Registry) (name : Name) : Prop :=
  ∀ node, registry.referent? name = some node →
    registry.Throughout fits node

/-- A formula is stored under the key, everything that simplification may come
to from it fits, and so does everything that it may come to from its name,
unless the formula is detached. -/
def Covers (registry : Registry) (placement : Placement) (key : Key) : Prop :=
  ∃ node, registry.node? key = some node ∧ registry.Throughout fits node ∧
    (placement = .named → registry.Safe fits node.name)

end Reach

section Steps

variable {fits : Node → Prop} {registry : Registry} {node next : Node}

theorem Throughout.self
    (throughout : registry.Throughout fits node) : fits node :=
  throughout node .refl

theorem Throughout.step
    (throughout : registry.Throughout fits node)
    (leads : registry.Leads node next) :
    registry.Throughout fits next :=
  fun part rest => throughout part (.head leads rest)

/-- The names that a node looks up lead on. -/
theorem Throughout.safe
    (throughout : registry.Throughout fits node) {name : Name}
    (named : name ∈ node.lookups) :
    registry.Safe fits name :=
  fun _ stands => throughout.step (.descends (.operand named stands))

/-- The formula generated for a disjunctive normal form leads on, and so does
its name. -/
theorem Throughout.covers_generated
    (throughout : registry.Throughout fits node) {atoms : List Name}
    {rows : UInt64} {key : Key}
    (body : node.body = .dnf atoms rows (some key)) {formula : Node}
    (present : registry.node? key = some formula) (placement : Placement) :
    registry.Covers fits placement key :=
  ⟨formula, present,
    throughout.step (.descends (.generated body present)),
    fun _ _ stands => throughout.step (.namesake body present stands)⟩

/-- What a safe name is bound to is covered. -/
theorem WellFormed.covers_of_binding
    (wellFormed : registry.WellFormed) {name : Name} {key : Key}
    (safe : registry.Safe fits name)
    (bound : registry.binding name = some key) (placement : Placement) :
    registry.Covers fits placement key := by
  obtain ⟨bearer, stored, rfl, _, stands⟩ := wellFormed.resolve_eq bound
  exact ⟨bearer, stored, safe bearer stands, fun _ => safe⟩

/-- What holds of a covered key holds of the node found there. -/
theorem Covers.of_stored
    {placement : Placement} {key : Key}
    (covers : registry.Covers fits placement key)
    (stored : registry.node? key = some node) :
    registry.Throughout fits node ∧
      (placement = .named → registry.Safe fits node.name) := by
  obtain ⟨same, found, reached⟩ := covers
  obtain rfl := Option.some.inj (stored.symm.trans found)
  exact reached

theorem Covers.of_named
    {key : Key} (covers : registry.Covers fits .named key)
    (placement : Placement) :
    registry.Covers fits placement key := by
  obtain ⟨node, stored, throughout, safe⟩ := covers
  exact ⟨node, stored, throughout, fun _ => safe rfl⟩

end Steps

/-! ## Larger registries -/

section Growth

variable {fits : Node → Prop} {before middle after : Registry}

theorem Leads.of_extends
    {node next : Node} (leads : before.Leads node next)
    (extension : before.Extends after) :
    after.Leads node next := by
  cases leads with
  | descends step =>
      cases step with
      | operand named stands =>
          exact .descends (.operand named (extension.referent? stands))
      | generated body present =>
          exact .descends (.generated body (extension.node? present))
  | namesake body present stands =>
      exact .namesake body (extension.node? present)
        (extension.referent? stands)

theorem ComesTo.of_extends
    {node part : Node} (comes : before.ComesTo node part)
    (extension : before.Extends after) :
    after.ComesTo node part :=
  Relation.ReflTransGen.mono
    (fun _ _ leads => leads.of_extends extension) _ _ comes

theorem Throughout.of_larger
    {node : Node} (throughout : after.Throughout fits node)
    (extension : before.Extends after) :
    before.Throughout fits node :=
  fun part comes => throughout part (comes.of_extends extension)

theorem Safe.of_larger
    {name : Name} (safe : after.Safe fits name)
    (extension : before.Extends after) :
    before.Safe fits name :=
  fun node stands =>
    (safe node (extension.referent? stands)).of_larger extension

variable (fits) in
/-- The second registry is an extension of the first in which new nodes fit,
are traversed through names that were safe before, and are the only ones that
names are newly bound to. -/
structure Annexes (before after : Registry) : Prop where
  extension : before.Extends after
  new : ∀ {key node}, before.nodes.size ≤ key.id →
    after.node? key = some node →
      node.body.generated? = none ∧ fits node ∧
        ∀ name ∈ node.lookups, before.Safe fits name
  bindings : ∀ {name key}, after.binding name = some key →
    before.binding name = some key ∨ before.nodes.size ≤ key.id

namespace Annexes

theorem refl (registry : Registry) : registry.Annexes fits registry where
  extension := Extends.refl registry
  new outside stored :=
    (Nat.not_lt.mpr outside (id_lt_of_node? stored)).elim
  bindings := Or.inl

theorem trans
    (first : before.Annexes fits middle) (second : middle.Annexes fits after) :
    before.Annexes fits after where
  extension := first.extension.trans second.extension
  new {key node} outside stored := by
    by_cases early : key.id < middle.nodes.size
    · rw [second.extension.nodes early] at stored
      exact first.new outside stored
    · obtain ⟨plain, fitting, safe⟩ := second.new (Nat.not_lt.mp early) stored
      exact ⟨plain, fitting, fun name member =>
        (safe name member).of_larger first.extension⟩
  bindings bound := by
    rcases second.bindings bound with early | late
    · exact first.bindings early
    · exact Or.inr (Nat.le_trans first.extension.issued late)

/-- A node that was stored and within reach of nothing that does not fit, or a
new node. -/
def Known
    (fits : Node → Prop) (before after : Registry) (node : Node) : Prop :=
  (∃ key, before.node? key = some node ∧ before.Throughout fits node) ∨
    ∃ key, before.nodes.size ≤ key.id ∧ after.node? key = some node

section Known

variable (annexes : before.Annexes fits after)
  (wellFormed : before.WellFormed)

include annexes wellFormed

/-- What a name stands for that was safe is known. -/
theorem known_of_safe
    {name : Name} {node : Node} (safe : before.Safe fits name)
    (stands : after.referent? name = some node) :
    Known fits before after node := by
  obtain ⟨key, bound, stored⟩ := (referent?_eq_some_iff name node).mp stands
  rcases annexes.bindings bound with early | late
  · obtain ⟨bearer, bearerStored, _, _, bearerStands⟩ :=
      wellFormed.resolve_eq early
    rw [annexes.extension.node? bearerStored] at stored
    obtain rfl := Option.some.inj stored
    exact Or.inl ⟨key, bearerStored, safe bearer bearerStands⟩
  · exact Or.inr ⟨key, late, stored⟩

/-- From a known node one only comes to known nodes. -/
theorem known_of_leads
    {node next : Node} (known : Known fits before after node)
    (leads : after.Leads node next) :
    Known fits before after next := by
  -- The formula generated for a known node was stored before.
  have early : ∀ {atoms : List Name} {rows : UInt64} {key : Key}
      {formula : Node}, node.body = .dnf atoms rows (some key) →
        after.node? key = some formula →
          before.Throughout fits node ∧ before.node? key = some formula := by
    intro atoms rows key formula body present
    rcases known with ⟨own, stored, throughout⟩ | ⟨own, late, stored⟩
    · have issued := (wellFormed.admits stored).generated key
        (by simp [body, Body.generated?])
      rw [annexes.extension.nodes issued] at present
      exact ⟨throughout, present⟩
    · obtain ⟨plain, _, _⟩ := annexes.new late stored
      simp [body, Body.generated?] at plain
  cases leads with
  | descends step =>
      cases step with
      | operand named stands =>
          refine annexes.known_of_safe wellFormed ?_ stands
          rcases known with ⟨_, _, throughout⟩ | ⟨own, late, stored⟩
          · exact throughout.safe named
          · exact (annexes.new late stored).2.2 _ named
      | generated body present =>
          obtain ⟨throughout, found⟩ := early body present
          exact Or.inl ⟨_, found,
            throughout.step (.descends (.generated body found))⟩
  | namesake body present stands =>
      obtain ⟨throughout, found⟩ := early body present
      exact annexes.known_of_safe wellFormed
        (fun _ bears => throughout.step (.namesake body found bears)) stands

theorem throughout_of_known
    {node : Node} (known : Known fits before after node) :
    after.Throughout fits node := by
  intro part comes
  have partKnown : Known fits before after part := by
    induction comes with
    | refl => exact known
    | tail _ leads inductionHypothesis =>
        exact annexes.known_of_leads wellFormed inductionHypothesis leads
  rcases partKnown with ⟨_, _, throughout⟩ | ⟨key, late, stored⟩
  · exact throughout.self
  · exact (annexes.new late stored).2.1

theorem throughout
    {key : Key} {node : Node} (stored : before.node? key = some node)
    (throughout : before.Throughout fits node) :
    after.Throughout fits node :=
  annexes.throughout_of_known wellFormed (Or.inl ⟨key, stored, throughout⟩)

theorem throughout_new
    {key : Key} {node : Node} (late : before.nodes.size ≤ key.id)
    (stored : after.node? key = some node) :
    after.Throughout fits node :=
  annexes.throughout_of_known wellFormed (Or.inr ⟨key, late, stored⟩)

theorem safe
    {name : Name} (safe : before.Safe fits name) : after.Safe fits name :=
  fun _ stands => annexes.throughout_of_known wellFormed
    (annexes.known_of_safe wellFormed safe stands)

theorem covers
    {placement : Placement} {key : Key}
    (covers : before.Covers fits placement key) :
    after.Covers fits placement key := by
  obtain ⟨node, stored, throughout, safe⟩ := covers
  exact ⟨node, annexes.extension.node? stored,
    annexes.throughout wellFormed stored throughout,
    fun named => annexes.safe wellFormed (safe named)⟩

end Known

end Annexes

end Growth

/-! ## Changes of one node -/

/-- Nothing changes but what is stored under the key and which names are bound
to it. -/
structure Solely (before after : Registry) (key : Key) : Prop where
  nodes : ∀ {other}, other ≠ key → after.node? other = before.node? other
  bindings : ∀ {name other}, after.binding name = some other →
    before.binding name = some other ∨ other = key

theorem Solely.refl (registry : Registry) (key : Key) :
    registry.Solely registry key :=
  ⟨fun _ => rfl, Or.inl⟩

theorem Solely.trans
    {before middle after : Registry} {key : Key}
    (first : before.Solely middle key) (second : middle.Solely after key) :
    before.Solely after key where
  nodes different := (second.nodes different).trans (first.nodes different)
  bindings bound := by
    rcases second.bindings bound with early | late
    · exact first.bindings early
    · exact Or.inr late

theorem solely_store (registry : Registry) (node : Node) :
    registry.Solely (registry.store node).2 (registry.store node).1 where
  nodes {other} different := by
    rw [node?_store, if_neg]
    intro same
    exact different (congrArg Key.mk same)
  bindings := Or.inl

theorem WellFormed.solely_insert
    {registry : Registry} (wellFormed : registry.WellFormed) {node : Node}
    (named : node.name < registry.strings.size) :
    registry.Solely (registry.insert node).2 (registry.insert node).1 where
  nodes := (solely_store registry node).nodes
  bindings {name other} bound := by
    have inside : node.name < (registry.store node).2.bindings.size :=
      Nat.lt_of_lt_of_eq named wellFormed.slots.symm
    change ((registry.store node).2.bind node.name _).2.binding name =
      some other at bound
    rw [binding_bind inside] at bound
    split at bound
    · exact Or.inr (Option.some.inj bound).symm
    · exact Or.inl bound

theorem WellFormed.solely_insertFresh
    {before after : Registry} (wellFormed : before.WellFormed)
    {flavour : Flavour} {owner : Option Entity} {body : Body} {key : Key}
    (run : before.Yields (insertFresh flavour owner body) key after) :
    before.Solely after key := by
  obtain ⟨name, middle, generation, insertion⟩ := yields_bind_iff.mp run
  obtain ⟨rfl, rfl⟩ := yields_modifyGet_iff.mp generation
  obtain ⟨rfl, rfl⟩ := yields_modifyGet_iff.mp insertion
  let fresh := (before.freshName flavour).2
  let node : Node := { name := (before.freshName flavour).1, owner, body }
  have inserting : fresh.Solely (fresh.insert node).2 (fresh.insert node).1 :=
    (wellFormed.freshName flavour).solely_insert
      (wellFormed.numbered.freshName_lt flavour)
  constructor
  · intro other different
    exact (inserting.nodes different).trans
      (node?_freshName before flavour other)
  · intro name other bound
    refine (inserting.bindings bound).imp_left fun early => ?_
    rwa [binding_freshName] at early

theorem WellFormed.solely_negation
    {before after : Registry} (wellFormed : before.WellFormed)
    {operand key : Key}
    (run : before.Yields (negation operand) key after) :
    before.Solely after key := by
  obtain ⟨name, middle, reading, insertion⟩ := yields_bind_iff.mp run
  obtain ⟨_, rfl⟩ := yields_operandName_iff.mp reading
  exact wellFormed.solely_insertFresh insertion

theorem solely_addOperand
    (junction operand : Key) (registry : Registry) :
    registry.Solely (registry.after (addOperand junction operand))
      junction := by
  have same := Solely.refl registry junction
  refine after_stored_bind (registry.Solely · junction) same fun addition _ => ?_
  refine after_stored_bind (registry.Solely · junction) same
    fun target stored => ?_
  split
  · refine ⟨fun {other} different => ?_, Or.inl⟩
    exact (node?_replace stored _ other).trans (if_neg different)
  · exact same

theorem WellFormed.solely_junction
    {before after : Registry} (wellFormed : before.WellFormed)
    {connective : Connective} {operands : List Key} {key : Key}
    (run : before.Yields (junction connective operands) key after) :
    before.Solely after key := by
  obtain ⟨_, middle, checking, run⟩ := yields_bind_iff.mp run
  obtain ⟨made, second, insertion, run⟩ := yields_bind_iff.mp run
  obtain ⟨_, third, filling, run⟩ := yields_bind_iff.mp run
  obtain ⟨rfl, rfl⟩ := yields_pure_iff.mp run
  have unchanged : before = middle := by
    have still : before.after (operands.forM fun operand => do
        let _ ← stored operand) = before :=
      after_forM_of_trans (fun first second => second = first)
        (fun _ => rfl) (fun first second => second.trans first)
        fun operand registry => after_bind_of_trans
          (fun first second => second = first)
          (fun first second => second.trans first)
          (after_stored registry operand) fun _ _ _ => rfl
    exact (checking.after_eq ▸ still).symm
  subst unchanged
  have filled : second.Solely
      (second.after (operands.forM fun operand => do
        let _ ← addOperand made operand)) made :=
    after_forM_of_trans (Solely · · made) (Solely.refl · made) Solely.trans
      fun operand registry =>
        after_bind_of_trans (Solely · · made) Solely.trans
          (solely_addOperand made operand registry)
          fun _ last _ => Solely.refl last made
  rw [filling.after_eq] at filled
  exact (wellFormed.solely_insertFresh insertion).trans filled

theorem WellFormed.solely_rebuild
    {before after : Registry} (wellFormed : before.WellFormed)
    {placement : Placement} {node : Node} {connective : Connective}
    {operands : List Key} {key : Key}
    (run : before.Yields (rebuild placement node connective operands) key
      after) :
    before.Solely after key := by
  have run := yields_get_bind_iff.mp run
  cases placement with
  | detached =>
      obtain ⟨rfl, rfl⟩ := yields_modifyGet_iff.mp run
      exact solely_store before _
  | named => exact wellFormed.solely_insertFresh run

/-- A change of one node, which is new and fits. -/
theorem Solely.annexes
    {fits : Node → Prop} {before after : Registry} {key : Key}
    (solely : before.Solely after key) (extension : before.Extends after)
    (late : before.nodes.size ≤ key.id) {node : Node}
    (stored : after.node? key = some node)
    (plain : node.body.generated? = none) (fitting : fits node)
    (safe : ∀ name ∈ node.lookups, before.Safe fits name) :
    before.Annexes fits after where
  extension := extension
  new {other found} outside there := by
    by_cases same : other = key
    · subst same
      rw [stored] at there
      obtain rfl := Option.some.inj there
      exact ⟨plain, fitting, safe⟩
    · rw [solely.nodes same] at there
      exact (Nat.not_lt.mpr outside (id_lt_of_node? there)).elim
  bindings bound := by
    rcases solely.bindings bound with early | rfl
    · exact Or.inl early
    · exact Or.inr late

end Registry

end NamedLogic
