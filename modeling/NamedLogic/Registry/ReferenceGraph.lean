import NamedLogic.Registry.References

/-!
# The graph of references

The graph of references is built name by name.  A name that stands for a node
becomes a node of the graph, with an edge to each name that its node refers to.
Nothing is entered twice.  Which names lie on cycles can be read off the strongly
connected components of the graph.
-/

namespace NamedLogic

/-- A directed graph of names.  What was entered last comes first.  No index from
names to nodes is kept beside the graph: a name is its own node, and whether it was
entered already is asked of the list of nodes itself. -/
structure ReferenceGraph where
  nodes : List Name := []
  edges : List (Name × Name) := []

namespace ReferenceGraph

/-- Enter a node, unless it is there already. -/
def addNode (graph : ReferenceGraph) (name : Name) : ReferenceGraph :=
  { graph with nodes := graph.nodes.insert name }

/-- Enter an edge, unless it is there already. -/
def addEdge
    (graph : ReferenceGraph) (name reference : Name) : ReferenceGraph :=
  { graph with edges := graph.edges.insert (name, reference) }

/-- Enter a name together with the names it refers to. -/
def addName
    (graph : ReferenceGraph) (name : Name) (references : List Name) :
    ReferenceGraph :=
  references.foldl
    (fun graph reference => (graph.addNode reference).addEdge name reference)
    (graph.addNode name)

/-- Whether the members of a component lie on cycles: there are several of
them, or there is one with an edge to itself. -/
def isCyclic (graph : ReferenceGraph) : List Name → Bool
  | [single] => graph.edges.contains (single, single)
  | _ => true

end ReferenceGraph

namespace Registry

/-- The graph with the given names and what they refer to.  Names that stand
for nothing are passed over. -/
def graphOf (registry : Registry) (names : List Name) : ReferenceGraph :=
  names.foldl
    (fun graph name =>
      match registry.referent? name with
      | some node => graph.addName name node.references
      | none => graph)
    {}

/-- The graph of all references. -/
def referenceGraph (registry : Registry) : ReferenceGraph :=
  registry.graphOf (List.range registry.bindings.size)

/-- The strings of the names in those of the components whose members lie on
cycles, in ascending order. -/
def cyclicNamesAmong
    (registry : Registry) (components : List (List Name)) : List String :=
  let cyclic := components.filter registry.referenceGraph.isCyclic
  (cyclic.flatten.map registry.string).mergeSort

end Registry

end NamedLogic
