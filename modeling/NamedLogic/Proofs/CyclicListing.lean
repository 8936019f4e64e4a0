import NamedLogic.Registry.ReferenceGraph
import NamedLogic.Proofs.ReferenceCycles
import NamedLogic.Proofs.Representation
import Mathlib.Data.List.Flatten
import Mathlib.Data.List.Induction
import Mathlib.Data.List.Nodup

/-!
# Listing the names on cycles

A name lies on a cycle if its component in the graph of references has another
member, since then there is a way to it and back, or if there is an edge from
the name to itself.  So the strongly connected components tell which names refer
to themselves, directly or through others.  The components share no names and
distinct names have distinct strings, so that no string is listed twice.
-/

namespace NamedLogic

/-! ## Ascending lists -/

section Ascending

variable {α : Type} [LT α] [DecidableLT α]
  (transitive : ∀ {first second third : α}, first < second →
    second < third → first < third)
  (trichotomy : ∀ {first second : α}, ¬ first < second → ¬ second < first →
    first = second)

include transitive trichotomy

theorem pairwise_insertAscending
    {element : α} {elements : List α}
    (ordered : elements.Pairwise (· < ·)) :
    (insertAscending element elements).Pairwise (· < ·) := by
  induction elements with
  | nil => exact List.pairwise_singleton _ _
  | cons head tail inductionHypothesis =>
      have ⟨below, tailOrdered⟩ := List.pairwise_cons.mp ordered
      rw [insertAscending]
      split
      · rename_i before
        refine List.pairwise_cons.mpr ⟨fun other member => ?_, ordered⟩
        rcases List.mem_cons.mp member with rfl | later
        · exact before
        · exact transitive before (below other later)
      · split
        · rename_i after
          refine List.pairwise_cons.mpr
            ⟨fun other member => ?_, inductionHypothesis tailOrdered⟩
          rcases (mem_insertAscending trichotomy).mp member with rfl | later
          · exact after
          · exact below other later
        · exact ordered

theorem pairwise_ascending (elements : List α) :
    (ascending elements).Pairwise (· < ·) := by
  induction elements with
  | nil => exact List.Pairwise.nil
  | cons head tail inductionHypothesis =>
      exact pairwise_insertAscending transitive trichotomy inductionHypothesis

end Ascending

/-! ## Entering names -/

namespace ReferenceGraph

variable {graph : ReferenceGraph}

/-- There is an edge from one name to another. -/
def Edge (graph : ReferenceGraph) (name reference : Name) : Prop :=
  (name, reference) ∈ graph.edges

/-- The strongly connected components of a graph.  Every node is in one of
them, and with it exactly the nodes from which it is reached and that are
reached from it. -/
structure Components
    (graph : ReferenceGraph) (components : List (List Name)) : Prop where
  partition : components.flatten.Perm graph.nodes
  together : ∀ component ∈ components, ∀ first ∈ component, ∀ second,
    second ∈ component ↔
      Relation.ReflTransGen graph.Edge first second ∧
        Relation.ReflTransGen graph.Edge second first

/-- No node and no edge is there twice. -/
structure Distinct (graph : ReferenceGraph) : Prop where
  nodes : graph.nodes.Nodup
  edges : graph.edges.Nodup

theorem mem_nodes_addName
    {name other : Name} {references : List Name} :
    other ∈ (graph.addName name references).nodes ↔
      other ∈ graph.nodes ∨ other = name ∨ other ∈ references := by
  suffices entered : ∀ graph : ReferenceGraph,
      other ∈ (references.foldl (fun graph reference =>
          (graph.addNode reference).addEdge name reference) graph).nodes ↔
        other ∈ graph.nodes ∨ other ∈ references by
    rw [addName, entered, addNode, List.mem_insert_iff]
    tauto
  intro graph
  induction references generalizing graph with
  | nil => simp
  | cons reference references inductionHypothesis =>
      rw [List.foldl_cons, inductionHypothesis, addEdge, addNode,
        List.mem_insert_iff, List.mem_cons]
      tauto

theorem edge_addName
    {name first second : Name} {references : List Name} :
    (graph.addName name references).Edge first second ↔
      graph.Edge first second ∨ first = name ∧ second ∈ references := by
  suffices entered : ∀ graph : ReferenceGraph,
      (references.foldl (fun graph reference =>
          (graph.addNode reference).addEdge name reference) graph).Edge
            first second ↔
        graph.Edge first second ∨ first = name ∧ second ∈ references from
    entered (graph.addNode name)
  intro graph
  induction references generalizing graph with
  | nil => simp
  | cons reference references inductionHypothesis =>
      rw [List.foldl_cons, inductionHypothesis, Edge, Edge, addEdge, addNode,
        List.mem_insert_iff, List.mem_cons, Prod.mk.injEq]
      tauto

theorem Distinct.addName
    (distinct : graph.Distinct) (name : Name) (references : List Name) :
    (graph.addName name references).Distinct := by
  suffices entered : ∀ graph : ReferenceGraph, graph.Distinct →
      (references.foldl (fun graph reference =>
        (graph.addNode reference).addEdge name reference) graph).Distinct from
    entered _ ⟨distinct.nodes.insert, distinct.edges⟩
  intro graph distinct
  induction references generalizing graph with
  | nil => exact distinct
  | cons reference references inductionHypothesis =>
      exact inductionHypothesis _
        ⟨distinct.nodes.insert, distinct.edges.insert⟩

/-! ## Components and cycles -/

/-- A component is cyclic if it has a member besides the given one, or an edge
from that one to itself. -/
theorem isCyclic_iff
    {component : List Name} (distinct : component.Nodup) {name : Name}
    (member : name ∈ component) :
    graph.isCyclic component ↔
      graph.Edge name name ∨ ∃ other ∈ component, other ≠ name := by
  match component with
  | [single] =>
      obtain rfl := List.mem_singleton.mp member
      simp [isCyclic, Edge]
  | first :: second :: rest =>
      refine iff_of_true rfl (Or.inr ?_)
      by_cases same : first = name
      · refine ⟨second, by simp, fun again => ?_⟩
        rw [← same] at again
        simp [again] at distinct
      · exact ⟨first, by simp, same⟩

/-- The members of cyclic components are the names that are reached from
themselves. -/
theorem Components.mem_cyclic_iff
    {components : List (List Name)} (strong : graph.Components components)
    (distinct : graph.Distinct)
    (inside : ∀ {name reference}, graph.Edge name reference →
      name ∈ graph.nodes)
    {name : Name} :
    name ∈ (components.filter graph.isCyclic).flatten ↔
      Relation.TransGen graph.Edge name name := by
  have apart : ∀ component ∈ components, component.Nodup :=
    (List.nodup_flatten.mp (strong.partition.nodup_iff.mpr distinct.nodes)).1
  rw [List.mem_flatten]
  constructor
  · rintro ⟨component, among, member⟩
    obtain ⟨there, cyclic⟩ := List.mem_filter.mp among
    rcases (isCyclic_iff (apart component there) member).mp cyclic with
      edge | ⟨other, otherMember, different⟩
    · exact .single edge
    · obtain ⟨forth, back⟩ :=
        (strong.together component there name member other).mp otherMember
      rcases Relation.reflTransGen_iff_eq_or_transGen.mp forth with
        same | path
      · exact (different same).elim
      · exact path.trans_left back
  · intro returns
    obtain ⟨next, edge, path⟩ := Relation.TransGen.head'_iff.mp returns
    obtain ⟨component, there, member⟩ :=
      List.mem_flatten.mp (strong.partition.mem_iff.mpr (inside edge))
    refine ⟨component, List.mem_filter.mpr ⟨there, ?_⟩, member⟩
    refine (isCyclic_iff (apart component there) member).mpr ?_
    by_cases same : next = name
    · exact Or.inl (same ▸ edge)
    · have back : next ∈ component :=
        (strong.together component there name member next).mpr
          ⟨.single edge, path⟩
      exact Or.inr ⟨next, back, same⟩

end ReferenceGraph

namespace Registry

variable {registry : Registry}

/-! ## The graph of all references -/

section Graph

/-- The induction is on the names, from the last one entered. -/
theorem graphOf_concat (names : List Name) (name : Name) :
    registry.graphOf (names ++ [name]) =
      match registry.referent? name with
      | some node => (registry.graphOf names).addName name node.references
      | none => registry.graphOf names := by
  rw [graphOf, List.foldl_append]
  rfl

theorem mem_nodes_graphOf {names : List Name} {name : Name} :
    name ∈ (registry.graphOf names).nodes ↔
      ∃ entered ∈ names, ∃ node, registry.referent? entered = some node ∧
        (name = entered ∨ name ∈ node.references) := by
  induction names using List.reverseRecOn with
  | nil => simp [graphOf]
  | append_singleton names last inductionHypothesis =>
      rw [graphOf_concat]
      cases stands : registry.referent? last with
      | none => simp [inductionHypothesis, or_and_right, exists_or, stands]
      | some node =>
          simp [ReferenceGraph.mem_nodes_addName, inductionHypothesis,
            or_and_right, exists_or, stands]

theorem edge_graphOf {names : List Name} {name reference : Name} :
    (registry.graphOf names).Edge name reference ↔
      name ∈ names ∧ registry.Refers name reference := by
  induction names using List.reverseRecOn with
  | nil => simp [graphOf, ReferenceGraph.Edge]
  | append_singleton names last inductionHypothesis =>
      rw [graphOf_concat, List.mem_append, List.mem_singleton, or_and_right,
        ← inductionHypothesis]
      cases stands : registry.referent? last with
      | none =>
          refine (or_iff_left ?_).symm
          rintro ⟨rfl, refers⟩
          obtain ⟨node, there, _⟩ := refers_iff.mp refers
          rw [stands] at there
          cases there
      | some node =>
          rw [ReferenceGraph.edge_addName]
          refine or_congr_right (and_congr_right ?_)
          rintro rfl
          rw [Refers, referencesOf, stands]
          rfl

theorem distinct_graphOf (names : List Name) :
    (registry.graphOf names).Distinct := by
  induction names using List.reverseRecOn with
  | nil => exact ⟨List.nodup_nil, List.nodup_nil⟩
  | append_singleton names last inductionHypothesis =>
      rw [graphOf_concat]
      split
      · exact inductionHypothesis.addName _ _
      · exact inductionHypothesis

end Graph

/-- The nodes of the graph are the names that stand for a node and the names
these refer to. -/
theorem mem_nodes_referenceGraph {name : Name} :
    name ∈ registry.referenceGraph.nodes ↔
      name ∈ registry.standing ∨ ∃ other, registry.Refers other name := by
  rw [referenceGraph, mem_nodes_graphOf, mem_standing_iff]
  constructor
  · rintro ⟨other, _, node, stands, rfl | referred⟩
    · exact Or.inl ⟨node, stands⟩
    · exact Or.inr ⟨other, refers_iff.mpr ⟨node, stands, referred⟩⟩
  · have inside : ∀ {name node}, registry.referent? name = some node →
        name ∈ List.range registry.bindings.size := fun stands =>
      List.mem_of_mem_filter (mem_standing_iff.mpr ⟨_, stands⟩)
    rintro (⟨node, stands⟩ | ⟨other, refers⟩)
    · exact ⟨name, inside stands, node, stands, Or.inl rfl⟩
    · obtain ⟨node, stands, referred⟩ := refers_iff.mp refers
      exact ⟨other, inside stands, node, stands, Or.inr referred⟩

theorem edge_referenceGraph {name reference : Name} :
    registry.referenceGraph.Edge name reference ↔
      registry.Refers name reference := by
  rw [referenceGraph, edge_graphOf]
  refine and_iff_right_of_imp fun refers => ?_
  obtain ⟨node, stands, _⟩ := refers_iff.mp refers
  exact List.mem_of_mem_filter (mem_standing_iff.mpr ⟨node, stands⟩)

theorem distinct_referenceGraph : registry.referenceGraph.Distinct :=
  distinct_graphOf _

/-! ## What is listed -/

/-- The names of the graph are in the table. -/
theorem WellFormed.lt_of_mem_nodes
    (wellFormed : registry.WellFormed) {name : Name}
    (member : name ∈ registry.referenceGraph.nodes) :
    name < registry.strings.size := by
  rcases mem_nodes_referenceGraph.mp member with stands | ⟨other, refers⟩
  · obtain ⟨node, there⟩ := mem_standing_iff.mp stands
    obtain ⟨key, bound, _⟩ := (referent?_eq_some_iff name node).mp there
    exact wellFormed.name_lt_of_binding bound
  · obtain ⟨node, there, referred⟩ := refers_iff.mp refers
    obtain ⟨key, _, stored⟩ := (referent?_eq_some_iff other node).mp there
    exact (wellFormed.admits stored).references name referred

theorem pairwise_ascending_names (names : List Name) :
    (ascending names).Pairwise (· < ·) :=
  pairwise_ascending Nat.lt_trans
    (fun notBelow notAbove =>
      Nat.le_antisymm (Nat.not_lt.mp notAbove) (Nat.not_lt.mp notBelow)) names

theorem pairwise_cyclicNames : registry.cyclicNames.Pairwise (· < ·) :=
  pairwise_ascending String.lt_trans
    (fun notBelow notAbove =>
      String.le_antisymm (String.not_lt.mp notAbove)
        (String.not_lt.mp notBelow)) _

theorem perm_referenceNodes :
    registry.referenceNodes.Perm registry.referenceGraph.nodes := by
  refine (List.perm_ext_iff_of_nodup
    ((pairwise_ascending_names _).imp Nat.ne_of_lt)
    distinct_referenceGraph.nodes).mpr fun name => ?_
  rw [mem_ascending_names, List.mem_append, mem_nodes_referenceGraph,
    List.mem_flatMap]
  refine or_congr_right ⟨fun ⟨other, _, refers⟩ => ⟨other, refers⟩, ?_⟩
  rintro ⟨other, refers⟩
  obtain ⟨node, stands, _⟩ := refers_iff.mp refers
  exact ⟨other, mem_standing_iff.mpr ⟨node, stands⟩, refers⟩

theorem mem_referenceEdges_iff {name reference : Name} :
    (name, reference) ∈ registry.referenceEdges ↔
      registry.Refers name reference := by
  simp only [referenceEdges, List.mem_flatMap, List.mem_map,
    mem_ascending_names, Prod.mk.injEq]
  constructor
  · rintro ⟨_, _, _, refers, rfl, rfl⟩
    exact refers
  · intro refers
    obtain ⟨node, stands, _⟩ := refers_iff.mp refers
    exact ⟨name, mem_standing_iff.mpr ⟨node, stands⟩, reference, refers, rfl,
      rfl⟩

theorem nodup_referenceEdges : registry.referenceEdges.Nodup := by
  refine List.nodup_flatMap.mpr ⟨fun name _ => ?_, ?_⟩
  · refine List.Nodup.map (fun _ _ => congrArg Prod.snd) ?_
    exact (pairwise_ascending_names _).imp Nat.ne_of_lt
  · have apart : registry.standing.Nodup := List.nodup_range.filter _
    refine apart.imp fun different edge first second => ?_
    obtain ⟨_, _, rfl⟩ := List.mem_map.mp first
    obtain ⟨_, _, same⟩ := List.mem_map.mp second
    exact different (congrArg Prod.fst same).symm

theorem perm_referenceEdges :
    registry.referenceEdges.Perm registry.referenceGraph.edges :=
  (List.perm_ext_iff_of_nodup nodup_referenceEdges
    distinct_referenceGraph.edges).mpr fun _ =>
      mem_referenceEdges_iff.trans edge_referenceGraph.symm

theorem edge_referenceGraph_eq :
    registry.referenceGraph.Edge = registry.Refers := by
  funext name reference
  exact propext edge_referenceGraph

/-- Names with references are nodes of the graph, and so are the names referred
to. -/
theorem Refers.mem_nodes
    {name reference : Name} (refers : registry.Refers name reference) :
    name ∈ registry.referenceGraph.nodes ∧
      reference ∈ registry.referenceGraph.nodes := by
  obtain ⟨node, stands, _⟩ := refers_iff.mp refers
  exact ⟨mem_nodes_referenceGraph.mpr
      (Or.inl (mem_standing_iff.mpr ⟨node, stands⟩)),
    mem_nodes_referenceGraph.mpr (Or.inr ⟨name, refers⟩)⟩

/-- Whether lists of names are the components of the graph can be found out by
following references. -/
theorem components_of_reachedFrom
    {components : List (List Name)}
    (partition : components.flatten.Perm registry.referenceGraph.nodes)
    (together : let fuel := registry.referenceNodes.length
      ∀ component ∈ components, ∀ first ∈ component,
        ∀ second ∈ registry.referenceGraph.nodes,
          second ∈ component ↔
            (second = first ∨ second ∈ registry.reachedFrom fuel first) ∧
              (first = second ∨
                first ∈ registry.reachedFrom fuel second)) :
    registry.referenceGraph.Components components := by
  refine ⟨partition, fun component there first member second => ?_⟩
  have node : ∀ {name}, name ∈ component →
      name ∈ registry.referenceGraph.nodes := fun among =>
    partition.mem_iff.mp (List.mem_flatten.mpr ⟨component, there, among⟩)
  rw [edge_referenceGraph_eq, Relation.reflTransGen_iff_eq_or_transGen,
    Relation.reflTransGen_iff_eq_or_transGen]
  simp only [mem_reachedFrom_iff] at together
  by_cases inside : second ∈ registry.referenceGraph.nodes
  · exact together component there first member second inside
  · refine iff_of_false (fun among => inside (node among)) ?_
    rintro ⟨rfl | forth, _⟩
    · exact inside (node member)
    · obtain ⟨_, _, refers⟩ := Relation.TransGen.tail'_iff.mp forth
      exact inside refers.mem_nodes.2

/-- What is read off the components of the graph is what is found by following
references. -/
theorem WellFormed.cyclicNamesAmong_eq
    (wellFormed : registry.WellFormed) {components : List (List Name)}
    (strong : registry.referenceGraph.Components components) :
    registry.cyclicNamesAmong components = registry.cyclicNames := by
  have listed : ∀ name,
      name ∈ (components.filter registry.referenceGraph.isCyclic).flatten ↔
        Relation.TransGen registry.Refers name name := by
    intro name
    rw [strong.mem_cyclic_iff distinct_referenceGraph fun edge =>
      (edge_referenceGraph.mp edge).mem_nodes.1, edge_referenceGraph_eq]
  have distinct : ((components.filter
      registry.referenceGraph.isCyclic).flatten.map
        registry.string).Nodup := by
    refine List.Nodup.map_on ?_ ?_
    · intro first firstListed second secondListed
      have table : ∀ {name}, Relation.TransGen registry.Refers name name →
          name < registry.strings.size := by
        intro name returns
        obtain ⟨next, refers, _⟩ := Relation.TransGen.head'_iff.mp returns
        exact wellFormed.lt_of_mem_nodes refers.mem_nodes.1
      exact wellFormed.string_injective
        (table ((listed first).mp firstListed))
        (table ((listed second).mp secondListed))
    · exact (strong.partition.nodup_iff.mpr
        distinct_referenceGraph.nodes).sublist
          (List.filter_sublist.flatten)
  have sameMembers : (registry.cyclicNamesAmong components).Perm
      registry.cyclicNames := by
    refine (List.mergeSort_perm _ _).trans ?_
    refine (List.perm_ext_iff_of_nodup distinct
      (pairwise_cyclicNames.imp String.ne_of_lt)).mpr fun string => ?_
    rw [mem_cyclicNames_iff, List.mem_map]
    simp only [listed]
  have sorted : (registry.cyclicNamesAmong components).Pairwise (· ≤ ·) := by
    refine (List.pairwise_mergeSort ?_ ?_ _).imp of_decide_eq_true
    · simpa only [decide_eq_true_eq] using fun _ _ _ => String.le_trans
    · simpa only [Bool.or_eq_true, decide_eq_true_eq] using String.le_total
  have ascending : registry.cyclicNames.Pairwise (· ≤ ·) :=
    pairwise_cyclicNames.imp fun below =>
      String.not_lt.mp (String.lt_asymm below)
  exact sameMembers.eq_of_pairwise (fun _ _ _ _ => String.le_antisymm) sorted
    ascending

/-- The names listed as cyclic are exact.  Whatever lists the strongly
connected components of the graph of references, the strings listed are those
read off the components.  They are in ascending order without repetition, and
are the strings of exactly the names that refer to themselves in one or more
steps.  The graph has each bound name and each name referred to by one exactly
once, and one edge for each name and each name it refers to. -/
theorem Reachable.cyclicNames_exact
    {registry : Registry} (reachable : registry.Reachable)
    {components : List (List Name)}
    (strong : registry.referenceGraph.Components components) :
    registry.cyclicNamesAmong components = registry.cyclicNames ∧
      registry.cyclicNames.Pairwise (· < ·) ∧
      (∀ string, string ∈ registry.cyclicNames ↔
        ∃ name, registry.string name = string ∧
          Relation.TransGen registry.Refers name name) ∧
      registry.referenceGraph.nodes.Nodup ∧
      (∀ name, name ∈ registry.referenceGraph.nodes ↔
        registry.binding name ≠ none ∨
          ∃ other, registry.Refers other name) ∧
      registry.referenceGraph.edges.Nodup ∧
      (∀ name reference,
        (name, reference) ∈ registry.referenceGraph.edges ↔
          registry.Refers name reference) ∧
      registry.referenceNodes.Perm registry.referenceGraph.nodes ∧
      registry.referenceEdges.Perm registry.referenceGraph.edges := by
  refine ⟨reachable.wellFormed.cyclicNamesAmong_eq strong,
    pairwise_cyclicNames, ?_, distinct_referenceGraph.nodes, ?_,
    distinct_referenceGraph.edges, fun _ _ => edge_referenceGraph,
    perm_referenceNodes, perm_referenceEdges⟩
  · simp only [mem_cyclicNames_iff, and_comm, implies_true]
  · intro name
    rw [mem_nodes_referenceGraph, mem_standing_iff,
      ← Option.ne_none_iff_exists', ne_eq,
      reachable.wellFormed.referent?_eq_none_iff]

/-- A disjunction takes over the name of an atom whose negation is one of its
operands.  So that name and the name of the negation make up a component. -/
theorem cyclicNames_exact_of_takeover :
    let registry := replay
      [.atom "p", .atom "q", .negation ⟨1⟩,
        .junction .disjunction [⟨3⟩, ⟨2⟩], .rename ⟨4⟩ "p"]
    let components := [[1], [2, 0]]
    registry.referenceGraph.Components components ∧
      registry.cyclicNamesAmong components = ["F1", "p"] := by
  intro registry components
  have reachable : registry.Reachable := reachable_replay _
  have strong : registry.referenceGraph.Components components :=
    components_of_reachedFrom (by decide +kernel) (by decide +kernel)
  refine ⟨strong, ?_⟩
  rw [(reachable.cyclicNames_exact strong).1]
  decide +kernel

end Registry

end NamedLogic
