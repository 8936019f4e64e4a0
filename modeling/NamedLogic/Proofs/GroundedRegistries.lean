import NamedLogic.Proofs.ReferenceCycles
import NamedLogic.Proofs.Surroundings

/-!
# Registries without gaps and cycles

In a grounded registry every name held by a stored node stands for a stored
node, and no name refers to itself, directly or through others.  Changing what
is stored under one key keeps a registry grounded if the names held by the new
node stand, and if either its name is not bound to it or nothing refers to that
name.  The latter is the case for a generated name: it was not bound, and so
nothing held it.
-/

namespace NamedLogic

/-! ## Paths without return -/

/-- A path along new edges ends in a vertex with an edge leading to it.  So no
path returns along edges that start where none leads. -/
theorem acyclic_of_edges
    {α : Type} {before after : α → α → Prop}
    (acyclic : ∀ vertex, ¬ Relation.TransGen before vertex vertex)
    (edges : ∀ source target, after source target →
      before source target ∨ ∀ other, ¬ after other source)
    (vertex : α) :
    ¬ Relation.TransGen after vertex vertex := by
  have old : ∀ {source target other}, after other source →
      Relation.TransGen after source target →
        Relation.TransGen before source target := by
    intro source target other entered path
    induction path with
    | single edge =>
        exact .single <| (edges _ _ edge).resolve_right fun none =>
          none other entered
    | tail path edge inductionHypothesis =>
        obtain ⟨last, _, entering⟩ := Relation.TransGen.tail'_iff.mp path
        exact inductionHypothesis.tail <|
          (edges _ _ edge).resolve_right fun none => none last entering
  intro cycle
  obtain ⟨last, _, entering⟩ := Relation.TransGen.tail'_iff.mp cycle
  exact acyclic vertex (old entering cycle)

/-- New edges that all start at one vertex close no cycle if there was no way
back from where they lead.  A path to the vertex takes none of them before it
gets there. -/
theorem acyclic_of_rerouted
    {α : Type} {before after : α → α → Prop} {vertex : α}
    (acyclic : ∀ other, ¬ Relation.TransGen before other other)
    (elsewhere : ∀ {source target}, source ≠ vertex → after source target →
      before source target)
    (apart : ∀ {target}, after vertex target →
      ¬ Relation.ReflTransGen before target vertex)
    (other : α) :
    ¬ Relation.TransGen after other other := by
  have back : ∀ {source}, Relation.ReflTransGen after source vertex →
      Relation.ReflTransGen before source vertex := by
    intro source path
    induction path using Relation.ReflTransGen.head_induction_on with
    | refl => exact .refl
    | @head source next edge _ inductionHypothesis =>
        by_cases same : source = vertex
        · exact same ▸ .refl
        · exact .head (elsewhere same edge) inductionHypothesis
  have through : ∀ {source target}, Relation.TransGen after source target →
      Relation.TransGen before source target ∨
        Relation.ReflTransGen after source vertex ∧
          Relation.TransGen after vertex target := by
    intro source target path
    induction path using Relation.TransGen.head_induction_on with
    | @single source edge =>
        by_cases same : source = vertex
        · exact Or.inr ⟨same ▸ .refl, same ▸ .single edge⟩
        · exact Or.inl (.single (elsewhere same edge))
    | @head source next edge rest inductionHypothesis =>
        by_cases same : source = vertex
        · exact Or.inr ⟨same ▸ .refl, same ▸ .head edge rest⟩
        · exact inductionHypothesis.imp (.head (elsewhere same edge))
            (And.imp_left (.head edge))
  intro cycle
  rcases through cycle with old | ⟨arriving, leaving⟩
  · exact acyclic other old
  · obtain ⟨target, edge, path⟩ :=
      Relation.TransGen.head'_iff.mp (leaving.trans_left arriving)
    exact apart edge (back path)

namespace Registry

/-- Every name held by a stored node, its own or one it refers to, stands for a
stored node. -/
def Supported (registry : Registry) : Prop :=
  ∀ key node, registry.node? key = some node →
    ∀ name ∈ node.name :: node.references, (registry.referent? name).isSome

instance (registry : Registry) : Decidable registry.Supported :=
  decidable_of_iff
    (∀ node ∈ registry.stock, ∀ name ∈ node.name :: node.references,
      (registry.referent? name).isSome) <| by
    simp only [Supported, mem_stock_iff]
    constructor
    · exact fun held key node stored => held node ⟨key, stored⟩
    · rintro supported node ⟨key, stored⟩
      exact supported key node stored

/-- A registry whose tables are in step, with no gap and no cycle. -/
structure Grounded (registry : Registry) : Prop where
  wellFormed : registry.WellFormed
  supported : registry.Supported
  acyclic : ∀ name, ¬ Relation.TransGen registry.Refers name name

/-- A registry whose tables are in step, in which every name referred to stands
for a stored node, and with no cycle.  A node need not be bound to its own
name. -/
structure Founded (registry : Registry) : Prop where
  wellFormed : registry.WellFormed
  referred : ∀ key node, registry.node? key = some node →
    ∀ name ∈ node.references, (registry.referent? name).isSome
  acyclic : ∀ name, ¬ Relation.TransGen registry.Refers name name

theorem Grounded.founded
    {registry : Registry} (grounded : registry.Grounded) :
    registry.Founded where
  wellFormed := grounded.wellFormed
  referred key node stored name member :=
    grounded.supported key node stored name (List.mem_cons_of_mem _ member)
  acyclic := grounded.acyclic

/-- No stored node refers to the name. -/
def Unreferred (registry : Registry) (name : Name) : Prop :=
  ∀ key node, registry.node? key = some node → name ∉ node.references

section Changes

variable {before after : Registry} {key : Key} {node : Node}

theorem Supported.named
    (supported : before.Supported) (stored : before.node? key = some node) :
    (before.referent? node.name).isSome :=
  supported key node stored node.name List.mem_cons_self

theorem Supported.referred
    (supported : before.Supported) (stored : before.node? key = some node)
    {name : Name} (member : name ∈ node.references) :
    (before.referent? name).isSome :=
  supported key node stored name (List.mem_cons_of_mem _ member)

theorem Extends.stands
    (extension : before.Extends after) {name : Name}
    (stands : (before.referent? name).isSome) :
    (after.referent? name).isSome := by
  obtain ⟨bearer, found⟩ := Option.isSome_iff_exists.mp stands
  exact Option.isSome_iff_exists.mpr ⟨bearer, extension.referent? found⟩

theorem not_stands_of_unbound
    {name : Name} (unbound : before.binding name = none) :
    ¬ (before.referent? name).isSome := by
  simp [referent?, unbound]

theorem WellFormed.stands_iff
    (wellFormed : before.WellFormed) {name : Name} :
    (before.referent? name).isSome ↔ ∃ key, before.binding name = some key := by
  rw [Option.isSome_iff_ne_none, ne_eq, wellFormed.referent?_eq_none_iff]
  exact Option.ne_none_iff_exists'

/-- A name that stands is in the table. -/
theorem WellFormed.lt_of_stands
    (wellFormed : before.WellFormed) {name : Name}
    (stands : (before.referent? name).isSome) :
    name < before.strings.size := by
  obtain ⟨_, bound⟩ := wellFormed.stands_iff.mp stands
  exact wellFormed.name_lt_of_binding bound

theorem Founded.unreferred
    (founded : before.Founded) {name : Name}
    (unbound : before.binding name = none) :
    before.Unreferred name :=
  fun key node stored member => not_stands_of_unbound unbound
    (founded.referred key node stored name member)

theorem Unreferred.of_solely
    {name : Name} (unreferred : before.Unreferred name)
    (solely : before.Solely after key)
    (stored : after.node? key = some node) (avoids : name ∉ node.references) :
    after.Unreferred name := by
  intro other found there
  by_cases same : other = key
  · subst same
    rw [stored] at there
    exact Option.some.inj there ▸ avoids
  · exact unreferred other found (solely.nodes same ▸ there)

/-- After a change of one node, every reference was there before or is one of
that node under its name. -/
theorem Solely.refers
    (solely : before.Solely after key) (wellFormed : after.WellFormed)
    (stored : after.node? key = some node) {name reference : Name}
    (refers : after.Refers name reference) :
    before.Refers name reference ∨
      name = node.name ∧ after.binding name = some key ∧
        reference ∈ node.references := by
  obtain ⟨bearer, stands, member⟩ := refers_iff.mp refers
  obtain ⟨other, bound, there⟩ := (referent?_eq_some_iff name bearer).mp stands
  by_cases same : other = key
  · subst same
    rw [stored] at there
    obtain rfl := Option.some.inj there
    exact Or.inr
      ⟨(wellFormed.named_of_binding bound stored).symm, bound, member⟩
  · refine Or.inl (refers_iff.mpr ⟨bearer, ?_, member⟩)
    exact (referent?_eq_some_iff name bearer).mpr
      ⟨other, (solely.bindings bound).resolve_right same,
        solely.nodes same ▸ there⟩

/-- If names that nodes hold stand, they do so after a change of one node,
provided that names go on to stand and those that node holds stand. -/
theorem Solely.held_stand
    (solely : before.Solely after key) (stored : after.node? key = some node)
    (held : Node → List Name)
    (earlier : ∀ key node, before.node? key = some node →
      ∀ name ∈ held node, (before.referent? name).isSome)
    (standing : ∀ name, (before.referent? name).isSome →
      (after.referent? name).isSome)
    (here : ∀ name ∈ held node, (after.referent? name).isSome) :
    ∀ key node, after.node? key = some node →
      ∀ name ∈ held node, (after.referent? name).isSome := by
  intro other found there name member
  by_cases same : other = key
  · subst same
    rw [stored] at there
    obtain rfl := Option.some.inj there
    exact here name member
  · rw [solely.nodes same] at there
    exact standing name (earlier other found there name member)

/-- A change of one node keeps a registry founded if names go on to stand, the
names that node refers to stand, and nothing refers to the name it is bound to,
if it refers to anything. -/
theorem Founded.of_solely
    (founded : before.Founded) (wellFormed : after.WellFormed)
    (solely : before.Solely after key) (stored : after.node? key = some node)
    (standing : ∀ name, (before.referent? name).isSome →
      (after.referent? name).isSome)
    (references : ∀ name ∈ node.references, (after.referent? name).isSome)
    (unreferred : after.binding node.name = some key →
      node.references ≠ [] → after.Unreferred node.name) :
    after.Founded where
  wellFormed := wellFormed
  referred := solely.held_stand stored Node.references founded.referred
    standing references
  acyclic := by
    refine acyclic_of_edges founded.acyclic fun name reference refers => ?_
    refine (solely.refers wellFormed stored refers).imp_right ?_
    rintro ⟨rfl, bound, member⟩ other refersBack
    obtain ⟨referring, refersStands, held⟩ := refers_iff.mp refersBack
    obtain ⟨bearerKey, _, bearerStored⟩ :=
      (referent?_eq_some_iff other referring).mp refersStands
    exact unreferred bound (List.ne_nil_of_mem member) bearerKey referring
      bearerStored held

/-- A change of one node keeps a registry founded if names go on to stand, the
names that node refers to stand, and no references led from these back to the
name of the node. -/
theorem Founded.of_rerouted
    (founded : before.Founded) (wellFormed : after.WellFormed)
    (solely : before.Solely after key) (stored : after.node? key = some node)
    (standing : ∀ name, (before.referent? name).isSome →
      (after.referent? name).isSome)
    (references : ∀ name ∈ node.references, (after.referent? name).isSome)
    (apart : ∀ name ∈ node.references,
      ¬ Relation.ReflTransGen before.Refers name node.name) :
    after.Founded where
  wellFormed := wellFormed
  referred := solely.held_stand stored Node.references founded.referred
    standing references
  acyclic := by
    refine @acyclic_of_rerouted Name _ _ node.name founded.acyclic ?_ ?_
    · intro source target different refers
      exact (solely.refers wellFormed stored refers).resolve_right
        fun new => different new.1
    · intro target refers
      rcases solely.refers wellFormed stored refers with old | ⟨_, _, member⟩
      · exact fun path => founded.acyclic _ (.head' old path)
      · exact apart target member

/-- Nothing refers to the name of a new node. -/
theorem Founded.unreferred_of_adds
    (founded : before.Founded) (added : before.Adds after key node)
    (solely : before.Solely after key)
    (references : ∀ reference ∈ node.references,
      (before.referent? reference).isSome) :
    after.Unreferred node.name :=
  (founded.unreferred added.unbound).of_solely solely added.stored
    fun member => not_stands_of_unbound added.unbound (references _ member)

/-- A new node under a new name keeps a registry founded if the names it refers
to stand. -/
theorem Founded.of_adds
    (founded : before.Founded) (added : before.Adds after key node)
    (solely : before.Solely after key)
    (references : ∀ reference ∈ node.references,
      (before.referent? reference).isSome) :
    after.Founded :=
  founded.of_solely added.wellFormed solely added.stored
    (fun _ => added.extension.stands)
    (fun name held => added.extension.stands (references name held))
    fun _ _ => founded.unreferred_of_adds added solely references

/-- What keeps a registry founded keeps it grounded, if the name of the node
stands as well. -/
theorem Grounded.of_solely
    (grounded : before.Grounded) (wellFormed : after.WellFormed)
    (solely : before.Solely after key) (stored : after.node? key = some node)
    (standing : ∀ name, (before.referent? name).isSome →
      (after.referent? name).isSome)
    (supported : ∀ name ∈ node.name :: node.references,
      (after.referent? name).isSome)
    (unreferred : after.binding node.name = some key →
      node.references ≠ [] → after.Unreferred node.name) :
    after.Grounded where
  wellFormed := wellFormed
  supported := solely.held_stand stored
    (fun held => held.name :: held.references) grounded.supported standing
    supported
  acyclic :=
    (grounded.founded.of_solely wellFormed solely stored standing
      (fun name held => supported name (List.mem_cons_of_mem _ held))
      unreferred).acyclic

/-- A new node under a new name keeps a registry grounded if the names it refers
to stand. -/
theorem Grounded.of_adds
    (grounded : before.Grounded) (added : before.Adds after key node)
    (solely : before.Solely after key)
    (references : ∀ reference ∈ node.references,
      (before.referent? reference).isSome) :
    after.Grounded := by
  have standing : ∀ name, (before.referent? name).isSome →
      (after.referent? name).isSome := fun _ => added.extension.stands
  refine grounded.of_solely added.wellFormed solely added.stored standing ?_
    fun _ _ => grounded.founded.unreferred_of_adds added solely references
  intro name held
  rcases List.mem_cons.mp held with rfl | referred
  · exact added.wellFormed.stands_iff.mpr ⟨key, added.bound⟩
  · exact standing name (references name referred)

end Changes

end Registry

end NamedLogic
