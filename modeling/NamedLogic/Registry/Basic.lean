import NamedLogic.Node
import NamedLogic.Settings

/-!
# The registry

A registry keeps three tables.  Nodes are stored under keys, strings are
numbered as names, and a name may be bound to one key.  The tables are
independent of one another: a node may be stored without its name being bound
to it, and a name may be referred to without being bound at all.  From a string
the way back to its name is kept as a map of its own beside the table.

Looking up never changes a registry.  The operations that change one return
it together with their result; those that may be refused are built from them
elsewhere.
-/

namespace NamedLogic

/-- A store of nodes, a table of names, and the bindings between them. -/
structure Registry where
  settings : Settings
  /-- The stored nodes by the number of their key.  The number zero is never
  used, and the place of a dropped node stays empty. -/
  nodes : Array (Option Node) := #[none]
  /-- The string of each name. -/
  strings : Array String := #[]
  /-- The name of each string, with the string entered last in front. -/
  names : List (String × Name) := []
  /-- The key each name is bound to, if any. -/
  bindings : Array (Option Key) := #[]
  /-- The number in the last generated name of an atom. -/
  atomCounter : Nat := 0
  /-- The number in the last generated name of a compound formula. -/
  formulaCounter : Nat := 0

/-- Generated names come in two flavours, each with a stem and a counter of
its own. -/
inductive Flavour where
  | atom
  | compound
  deriving DecidableEq

/-- What the generated names of a flavour begin with. -/
def Settings.stem (settings : Settings) : Flavour → String
  | .atom => settings.atomStem
  | .compound => settings.formulaStem

namespace Registry

/-! ## Looking up -/

/-- The node stored under a key. -/
def node? (registry : Registry) (key : Key) : Option Node :=
  registry.nodes[key.id]?.join

/-- The name of a string, if the string has one. -/
@[irreducible]
def lookup (registry : Registry) (string : String) : Option Name :=
  registry.names.lookup string

/-- The string of a name, and the empty string for a number that names
nothing. -/
def string (registry : Registry) (name : Name) : String :=
  registry.strings[name]?.getD ""

/-- The key a name is bound to. -/
def binding (registry : Registry) (name : Name) : Option Key :=
  registry.bindings[name]?.join

/-- The key a name is bound to, together with the node stored under it. -/
def resolve (registry : Registry) (name : Name) : Option (Key × Node) :=
  (registry.binding name).bind fun key =>
    (registry.node? key).map fun node => (key, node)

/-- The node a name stands for. -/
def referent? (registry : Registry) (name : Name) : Option Node :=
  (registry.binding name).bind registry.node?

/-- The key bound to the name of a string. -/
def get? (registry : Registry) (string : String) : Option Key :=
  (registry.lookup string).bind registry.binding

/-- The string of the name carried by a stored node. -/
def nameOf? (registry : Registry) (key : Key) : Option String :=
  (registry.node? key).map fun node => registry.string node.name

/-- The number of bound names. -/
def size (registry : Registry) : Nat :=
  registry.bindings.countP Option.isSome

/-- Whether no name is bound. -/
def isEmpty (registry : Registry) : Bool :=
  registry.size == 0

/-- The number of stored nodes, bound or not. -/
def nodeCount (registry : Registry) : Nat :=
  registry.nodes.countP Option.isSome

/-- The bound keys whose nodes belong to an entity, in the order of the names
they are bound to. -/
def ownedBy (registry : Registry) (entity : Entity) : List Key :=
  registry.bindings.toList.reduceOption.filter fun key =>
    (registry.node? key).any fun node => node.owner == some entity

/-- The number of levels a traversal may still descend through when it stands
at the given depth.  A traversal with no level left is abandoned. -/
def levels (registry : Registry) (depth : Nat) : Nat :=
  registry.settings.depthLimit.value + 1 - depth

/-! ## Names and bindings -/

/-- The name of a string, which is entered in the map and at the end of the
table if it has none yet. -/
def intern (registry : Registry) (string : String) : Name × Registry :=
  match registry.lookup string with
  | some name => (name, registry)
  | none =>
      let name := registry.strings.size
      (name,
        { registry with
          strings := registry.strings.push string
          names := (string, name) :: registry.names
          bindings := registry.bindings.push none })

/-- Bind a name to a key.  The result is the key bound before, if it was
another one. -/
def bind
    (registry : Registry) (name : Name) (key : Key) :
    Option Key × Registry :=
  ((registry.binding name).filter (· != key),
    { registry with
      bindings := registry.bindings.setIfInBounds name (some key) })

/-- Unbind a name. -/
def unbind (registry : Registry) (name : Name) : Registry :=
  { registry with bindings := registry.bindings.setIfInBounds name none }

/-- Unbind a name provided it is bound to the given key. -/
def release (registry : Registry) (name : Name) (key : Key) : Registry :=
  if registry.binding name = some key then registry.unbind name else registry

/-! ## Storing nodes -/

/-- Store a node under a new key, without binding its name. -/
def store (registry : Registry) (node : Node) : Key × Registry :=
  (⟨registry.nodes.size⟩,
    { registry with nodes := registry.nodes.push (some node) })

/-- Store a node under a new key and bind its name to the key. -/
def insert (registry : Registry) (node : Node) : Key × Registry :=
  let (key, stored) := registry.store node
  (key, (stored.bind node.name key).2)

/-- Replace the node stored under a key. -/
def replace (registry : Registry) (key : Key) (node : Node) : Registry :=
  { registry with nodes := registry.nodes.setIfInBounds key.id (some node) }

/-- Drop the node stored under a key, leaving all bindings as they are. -/
def drop (registry : Registry) (key : Key) : Registry :=
  { registry with nodes := registry.nodes.setIfInBounds key.id none }

/-- Unbind the name of a string and drop the node it was bound to, which is
the result. -/
def remove (registry : Registry) (string : String) : Option Node × Registry :=
  match registry.lookup string with
  | none => (none, registry)
  | some name =>
      match registry.binding name with
      | none => (none, registry)
      | some key => (registry.node? key, (registry.unbind name).drop key)

/-- Drop the node stored under a key, which is the result, and unbind its name
if the name is bound to the key. -/
def removeKey (registry : Registry) (key : Key) : Option Node × Registry :=
  match registry.node? key with
  | none => (none, registry)
  | some node => (some node, (registry.drop key).release node.name key)

/-- Forget every node, name and binding, and start counting generated names
anew.  The settings stay, and so do the places of the dropped nodes: a key
issued before leads nowhere from now on. -/
def clear (registry : Registry) : Registry :=
  { settings := registry.settings
    nodes := registry.nodes.map fun _ => none }

/-! ## Generated names -/

/-- The number in the last generated name of a flavour. -/
def counter (registry : Registry) : Flavour → Nat
  | .atom => registry.atomCounter
  | .compound => registry.formulaCounter

/-- Record the number in the last generated name of a flavour. -/
def setCounter
    (registry : Registry) (flavour : Flavour) (counter : Nat) : Registry :=
  match flavour with
  | .atom => { registry with atomCounter := counter }
  | .compound => { registry with formulaCounter := counter }

/-- The first number above `counter` which, put after the stem, is not the
string of a bound name.  At most `tries` numbers are found taken: since
distinct numbers make distinct strings, `tries` may be the number of bound
names. -/
def firstFree
    (registry : Registry) (stem : String) : (tries counter : Nat) → Nat
  | 0, counter => counter + 1
  | tries + 1, counter =>
      if (registry.get? (stem ++ toString (counter + 1))).isNone then
        counter + 1
      else
        registry.firstFree stem tries (counter + 1)

/-- A generated name of the given flavour, not bound at the moment. -/
def freshName (registry : Registry) (flavour : Flavour) : Name × Registry :=
  let stem := registry.settings.stem flavour
  let counter :=
    registry.firstFree stem registry.size (registry.counter flavour)
  (registry.setCounter flavour counter).intern (stem ++ toString counter)

end Registry

end NamedLogic
