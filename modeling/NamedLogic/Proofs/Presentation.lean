import NamedLogic.Simplification.Basic
import NamedLogic.Proofs.Junction
import NamedLogic.Proofs.UnfoldingLevels

/-!
# Keys that present trees

A key presents a tree if the formula stored under it unfolds to the tree, and,
where it is to be referred to, is bound to its own name.  What the parts of
simplification ask a registry about formulas with normal trees is answered by
the trees.
-/

namespace NamedLogic

theorem Node.body_eq_atom_of_isAtom
    {node : Node} (isAtom : node.isAtom) : node.body = .atom := by
  unfold Node.isAtom at isAtom
  split at isAtom
  · assumption
  · cases isAtom

namespace Registry

/-- The formula stored under a key unfolds to a tree. -/
def Shows
    (registry : Registry) (levels : Nat) (key : Key) (tree : Tree) : Prop :=
  ∃ node, registry.node? key = some node ∧
    registry.unfold levels node = tree

/-- The formula stored under a key is bound to its own name. -/
def Bound (registry : Registry) (key : Key) : Prop :=
  ∃ node, registry.node? key = some node ∧
    registry.binding node.name = some key

theorem Bound.binding_of_stored
    {registry : Registry} {key : Key} (bound : registry.Bound key)
    {node : Node} (stored : registry.node? key = some node) :
    registry.binding node.name = some key := by
  obtain ⟨same, found, named⟩ := bound
  obtain rfl := Option.some.inj (stored.symm.trans found)
  exact named

theorem Bound.of_extends
    {before after : Registry} {key : Key} (bound : before.Bound key)
    (extension : before.Extends after) : after.Bound key := by
  obtain ⟨node, stored, named⟩ := bound
  exact ⟨node, extension.node? stored, extension.bindings named⟩

theorem bound_of_any
    {registry : Registry} {key : Key}
    (own : (registry.node? key).any fun node =>
      registry.binding node.name == key) : registry.Bound key := by
  cases stored : registry.node? key with
  | none =>
      rw [stored] at own
      cases own
  | some node =>
      rw [stored, Option.any_some, beq_iff_eq] at own
      exact ⟨node, stored, own⟩

/-- The formula stored under a key unfolds to a tree, and is bound to its own
name unless it is detached. -/
structure Presents
    (registry : Registry) (placement : Placement) (levels : Nat)
    (key : Key) (tree : Tree) : Prop where
  shows : registry.Shows levels key tree
  bound : placement = .named → registry.Bound key

namespace Presents

variable {before after registry : Registry} {placement : Placement}
  {levels : Nat} {key : Key} {tree : Tree}

theorem of_named
    (presents : registry.Presents .named levels key tree)
    (placement : Placement) :
    registry.Presents placement levels key tree :=
  ⟨presents.shows, fun _ => presents.bound rfl⟩

theorem more
    (presents : registry.Presents placement levels key tree)
    (settled : tree.Settled) {large : Nat} (enough : levels ≤ large) :
    registry.Presents placement large key tree := by
  obtain ⟨⟨node, stored, rfl⟩, bound⟩ := presents
  exact ⟨⟨node, stored, unfold_eq_of_settled settled enough⟩, bound⟩

theorem of_extends
    (presents : before.Presents placement levels key tree)
    (beforeWellFormed : before.WellFormed)
    (afterWellFormed : after.WellFormed) (extension : before.Extends after)
    (resolved : tree.Resolved) :
    after.Presents placement levels key tree := by
  obtain ⟨⟨node, stored, rfl⟩, bound⟩ := presents
  refine ⟨⟨node, extension.node? stored, ?_⟩, fun named => ?_⟩
  · exact unfold_eq_of_gaps_eq_nil beforeWellFormed afterWellFormed
      extension stored resolved.gaps_eq_nil
  · obtain ⟨other, otherStored, otherBound⟩ := bound named
    exact ⟨other, extension.node? otherStored,
      extension.bindings otherBound⟩

end Presents

/-! ## Names -/

section Names

variable {registry : Registry} {levels : Nat}

/-- A key that a name is bound to presents the tree of the name. -/
theorem WellFormed.presents_of_binding
    (wellFormed : registry.WellFormed) {name : Name} {key : Key}
    (bound : registry.binding name = some key) :
    registry.Presents .named levels key (registry.nameTree levels name) := by
  obtain ⟨bearer, stored, rfl⟩ := wellFormed.bound bound
  have stands : registry.referent? bearer.name = some bearer :=
    (referent?_eq_some_iff bearer.name bearer).mpr ⟨key, bound, stored⟩
  exact ⟨⟨bearer, stored, (nameTree_of_referent stands levels).symm⟩,
    fun _ => ⟨bearer, stored, bound⟩⟩

/-- A name in a resolved tree is bound to a key that presents its tree. -/
theorem WellFormed.exists_presents
    (wellFormed : registry.WellFormed) {name : Name}
    (resolved : (registry.nameTree levels name).Resolved) :
    ∃ key, registry.binding name = some key ∧
      registry.Presents .named levels key
        (registry.nameTree levels name) := by
  obtain ⟨operand, stands, _⟩ := exists_referent_of_resolved resolved
  obtain ⟨key, bound, _⟩ := (referent?_eq_some_iff name operand).mp stands
  exact ⟨key, bound, wellFormed.presents_of_binding bound⟩

theorem binding_ne_none_of_resolved
    {name : Name} (resolved : (registry.nameTree levels name).Resolved) :
    registry.binding name ≠ none := by
  obtain ⟨operand, stands, _⟩ := exists_referent_of_resolved resolved
  obtain ⟨key, bound, _⟩ := (referent?_eq_some_iff name operand).mp stands
  rw [bound]
  exact Option.some_ne_none key

/-- A resolved side of an implication that is bound to nothing is absent. -/
theorem sideTree_eq_absent
    {side : Option Name}
    (resolved : (registry.sideTree levels side).Resolved)
    (unbound : side.bind registry.binding = none) :
    registry.sideTree levels side = .absent := by
  cases side with
  | none => rfl
  | some name =>
      rw [Option.bind_some] at unbound
      exact (binding_ne_none_of_resolved resolved unbound).elim

theorem WellFormed.side_presents
    (wellFormed : registry.WellFormed) {side : Option Name} {key : Key}
    (bound : side.bind registry.binding = some key) :
    registry.Presents .named levels key
      (registry.sideTree levels side) := by
  cases side with
  | none => cases bound
  | some name => exact wellFormed.presents_of_binding bound

theorem Presents.unfold_eq
    {placement : Placement} {key : Key} {tree : Tree} {node : Node}
    (presents : registry.Presents placement levels key tree)
    (stored : registry.node? key = some node) :
    registry.unfold levels node = tree := by
  obtain ⟨shown, shownStored, shape⟩ := presents.shows
  rw [stored] at shownStored
  obtain rfl := Option.some.inj shownStored
  exact shape

/-- A key that presents a tree does so under its name. -/
theorem Presents.nameTree_eq
    {key : Key} {tree : Tree} {node : Node}
    (presents : registry.Presents .named levels key tree)
    (stored : registry.node? key = some node) :
    registry.binding node.name = some key ∧
      registry.nameTree levels node.name = tree := by
  have bound := (presents.bound rfl).binding_of_stored stored
  have stands : registry.referent? node.name = some node :=
    (referent?_eq_some_iff node.name node).mpr ⟨key, bound, stored⟩
  rw [nameTree_of_referent stands levels]
  exact ⟨bound, presents.unfold_eq stored⟩

theorem WellFormed.presents_of_resolve
    (wellFormed : registry.WellFormed) {name : Name} {key : Key}
    {node : Node} (resolution : registry.resolve name = some (key, node)) :
    registry.node? key = some node ∧
      registry.nameTree levels name = registry.unfold levels node ∧
      registry.Presents .named levels key
        (registry.nameTree levels name) := by
  cases bound : registry.binding name with
  | none => simp [resolve, bound] at resolution
  | some other =>
      obtain ⟨bearer, stored, rfl, resolved, stands⟩ :=
        wellFormed.resolve_eq bound
      rw [resolution, Option.some.injEq, Prod.mk.injEq] at resolved
      obtain ⟨rfl, rfl⟩ := resolved
      have same : registry.nameTree levels node.name =
          registry.unfold levels node := nameTree_of_referent stands levels
      exact ⟨stored, same, ⟨node, stored, same.symm⟩,
        fun _ => ⟨node, stored, bound⟩⟩

theorem nameTree_eq_of_extends
    {before after : Registry} (beforeWellFormed : before.WellFormed)
    (afterWellFormed : after.WellFormed) (extension : before.Extends after)
    {name : Name} (resolved : (before.nameTree levels name).Resolved) :
    after.nameTree levels name = before.nameTree levels name := by
  obtain ⟨operand, stands, same⟩ := exists_referent_of_resolved resolved
  obtain ⟨key, _, stored⟩ := (referent?_eq_some_iff name operand).mp stands
  rw [same] at resolved ⊢
  rw [nameTree_of_referent (extension.referent? stands)]
  exact unfold_eq_of_gaps_eq_nil beforeWellFormed afterWellFormed extension
    stored resolved.gaps_eq_nil

/-- The negation of a presented formula presents the negated tree. -/
theorem WellFormed.exists_yields_negation
    (wellFormed : registry.WellFormed) {operand : Key} {tree : Tree}
    (presents : registry.Presents .named levels operand tree)
    (resolved : tree.Resolved) :
    ∃ negated after, registry.Yields (negation operand) negated after ∧
      after.WellFormed ∧ registry.Extends after ∧
        after.Presents .named (levels + 1) negated (.negation tree) := by
  obtain ⟨node, stored, _⟩ := presents.shows
  obtain ⟨negated, name, after, run, added⟩ :=
    yields_negation wellFormed stored
  have still := presents.of_extends wellFormed added.wellFormed
    added.extension resolved
  obtain ⟨_, shape⟩ := still.nameTree_eq (added.extension.node? stored)
  refine ⟨negated, after, run, added.wellFormed, added.extension,
    ⟨_, added.stored, ?_⟩, fun _ => ⟨_, added.stored, added.bound⟩⟩
  rw [unfold_negation rfl, shape]

end Names

/-! ## Normal trees -/

section Normal

variable {registry : Registry} {levels : Nat}

/-- A negation with a normal tree is one of an atom. -/
theorem WellFormed.exists_inner_of_negation
    (wellFormed : registry.WellFormed) {node : Node} {inner : Name}
    (body : node.body = .negation inner)
    (normal : (registry.unfold levels node).Normal) :
    ∃ key string, registry.binding inner = some key ∧
      registry.Presents .named levels key (.atom string) ∧
      registry.unfold levels node = .negation (.atom string) := by
  cases levels with
  | zero => cases normal
  | succ levels =>
      rw [unfold_negation body] at normal ⊢
      generalize shape : registry.nameTree levels inner = tree at normal
      cases normal with
      | negative string =>
          have resolved : (registry.nameTree levels inner).Resolved := by
            rw [shape]
            exact trivial
          obtain ⟨key, bound, presents⟩ :=
            wellFormed.exists_presents resolved
          rw [shape] at presents
          exact ⟨key, string, bound,
            presents.more (Tree.Normal.positive string).settled
              (Nat.le_succ levels), rfl⟩

/-- A junction with a normal tree is one of formulas with normal trees. -/
theorem exists_operands_of_junction
    {node : Node} {connective : Connective} {names : List Name}
    (body : node.body = .junction connective names)
    (normal : (registry.unfold levels node).Normal) :
    registry.unfold levels node =
        .junction connective (names.map (registry.nameTree levels)) ∧
      ∀ name ∈ names, (registry.nameTree levels name).Normal := by
  cases levels with
  | zero => cases normal
  | succ levels =>
      rw [unfold_junction body] at normal ⊢
      cases normal with
      | joined _ parts =>
          have same : ∀ name ∈ names,
              registry.nameTree (levels + 1) name =
                registry.nameTree levels name := fun name member =>
            nameTree_succ (fun _ => unfold_succ_of_settled)
              (parts _ (List.mem_map_of_mem member)).settled
          refine ⟨congrArg _ (List.map_congr_left fun name member =>
            (same name member).symm), fun name member => ?_⟩
          rw [same name member]
          exact parts _ (List.mem_map_of_mem member)

/-- A formula with a normal tree which is no negation and no junction is an
atom. -/
theorem exists_atom_of_normal
    {node : Node} (normal : (registry.unfold levels node).Normal)
    (noNegation : ∀ inner, node.body ≠ .negation inner)
    (noJunction : ∀ connective names,
      node.body ≠ .junction connective names) :
    ∃ string, registry.unfold levels node = .atom string := by
  cases levels with
  | zero => cases normal
  | succ levels =>
      cases body : node.body with
      | atom => exact ⟨_, unfold_atom body levels⟩
      | negation inner => exact (noNegation inner body).elim
      | junction connective names =>
          exact (noJunction connective names body).elim
      | implication =>
          rw [unfold_implication body] at normal
          cases normal
      | dnf =>
          rw [unfold_dnf body] at normal
          cases normal

theorem joins_unfold
    (levels : Nat) (node : Node) (connective : Connective) :
    (registry.unfold (levels + 1) node).joins connective =
      (node.operandsUnder? connective).isSome := by
  unfold Node.operandsUnder?
  cases body : node.body with
  | junction inner operands =>
      rw [unfold_junction body, Tree.joins]
      by_cases same : inner = connective <;> simp [same]
  | atom => rw [unfold_atom body]; rfl
  | negation => rw [unfold_negation body]; rfl
  | implication => rw [unfold_implication body]; rfl
  | dnf => rw [unfold_dnf body]; rfl

theorem WellFormed.forall₂_names
    (wellFormed : registry.WellFormed) {names : List Name}
    (resolved : ∀ name ∈ names, (registry.nameTree levels name).Resolved) :
    List.Forall₂ (registry.Presents .named levels)
      (names.filterMap registry.binding)
      (names.map (registry.nameTree levels)) := by
  induction names with
  | nil => exact .nil
  | cons name names inductionHypothesis =>
      obtain ⟨operand, bound, presents⟩ :=
        wellFormed.exists_presents (resolved name List.mem_cons_self)
      rw [List.filterMap_cons_some bound, List.map_cons]
      exact .cons presents <| inductionHypothesis fun other member =>
        resolved other (List.mem_cons_of_mem _ member)

/-- What a formula with a normal tree contributes to a junction. -/
theorem WellFormed.forall₂_contribution
    (wellFormed : registry.WellFormed) {key : Key} {tree : Tree}
    (presents : registry.Presents .named levels key tree)
    (normal : tree.Normal) (connective : Connective) :
    List.Forall₂ (registry.Presents .named levels)
      (registry.contribution connective key)
      (tree.contributed connective) := by
  have itself := presents
  obtain ⟨⟨node, stored, rfl⟩, _⟩ := presents
  unfold contribution
  rw [stored, Option.bind_some]
  cases flattened : node.operandsUnder? connective with
  | some names =>
      have body := operandsUnder?_eq_some_iff.mp flattened
      obtain ⟨shape, parts⟩ := exists_operands_of_junction body normal
      rw [shape, Tree.contributed, if_pos rfl]
      exact wellFormed.forall₂_names fun name member =>
        (parts name member).resolved
  | none =>
      cases levels with
      | zero => cases normal
      | succ levels =>
          have whole : (registry.unfold (levels + 1) node).joins connective =
              (node.operandsUnder? connective).isSome :=
            joins_unfold levels node connective
          rw [flattened] at whole
          rw [Tree.contributed_of_not_joins whole]
          exact .cons itself .nil

/-- Structural equality of formulas with normal trees is that of the trees. -/
theorem WellFormed.alike_eq
    (wellFormed : registry.WellFormed) {placement : Placement}
    {left right : Key} {leftTree rightTree : Tree}
    (leftPresents : registry.Presents placement levels left leftTree)
    (rightPresents : registry.Presents placement levels right rightTree)
    (leftNormal : leftTree.Normal) (rightNormal : rightTree.Normal)
    (enough : levels ≤ registry.levels 0) :
    registry.alike left right = leftTree.alike rightTree := by
  obtain ⟨⟨leftNode, leftStored, leftShape⟩, _⟩ :=
    leftPresents.more leftNormal.settled enough
  obtain ⟨⟨rightNode, rightStored, rightShape⟩, _⟩ :=
    rightPresents.more rightNormal.settled enough
  rw [alike, leftStored, rightStored]
  subst leftShape rightShape
  exact wellFormed.nodesAlike_eq_alike leftStored rightStored
    leftNormal.resolved rightNormal.resolved

/-- Opposition of formulas with normal trees is that of the trees. -/
theorem WellFormed.negates_eq
    (wellFormed : registry.WellFormed)
    {left right : Key} {leftTree rightTree : Tree}
    (leftPresents : registry.Presents .named levels left leftTree)
    (rightPresents : registry.Presents .named levels right rightTree)
    (leftNormal : leftTree.Normal) (rightNormal : rightTree.Normal)
    (enough : levels ≤ registry.levels 0) :
    registry.negates left right = leftTree.opposed rightTree := by
  obtain ⟨⟨node, stored, rfl⟩, _⟩ := leftPresents
  unfold negates
  rw [stored, Option.bind_some, Node.negated?]
  cases body : node.body with
  | negation inner =>
      obtain ⟨operand, string, bound, presents, shape⟩ :=
        wellFormed.exists_inner_of_negation body leftNormal
      rw [shape, Tree.opposed, Option.bind_some, bound, Option.any_some]
      exact wellFormed.alike_eq presents rightPresents (.positive string)
        rightNormal enough
  | junction connective names =>
      obtain ⟨shape, _⟩ := exists_operands_of_junction body leftNormal
      rw [shape]
      rfl
  | atom | implication | dnf =>
      obtain ⟨string, shape⟩ := exists_atom_of_normal leftNormal
        (by simp [body]) (by simp [body])
      rw [shape]
      rfl

/-! ## Lists of keys -/

/-- The tree of the formula stored under a key. -/
def keyTree (registry : Registry) (levels : Nat) (key : Key) : Tree :=
  registry.recordedTree levels (some key)

theorem keyTree_of_stored
    {key : Key} {node : Node} (stored : registry.node? key = some node) :
    registry.keyTree levels key = registry.unfold levels node := by
  simp [keyTree, recordedTree, stored]

theorem Presents.keyTree_eq
    {placement : Placement} {key : Key} {tree : Tree}
    (presents : registry.Presents placement levels key tree) :
    registry.keyTree levels key = tree := by
  obtain ⟨⟨node, stored, rfl⟩, _⟩ := presents
  exact keyTree_of_stored stored

theorem map_keyTree_eq
    {placement : Placement} {keys : List Key} {trees : List Tree}
    (presents : List.Forall₂ (registry.Presents placement levels) keys
      trees) :
    keys.map (registry.keyTree levels) = trees := by
  induction presents with
  | nil => rfl
  | cons head _ inductionHypothesis =>
      rw [List.map_cons, head.keyTree_eq, inductionHypothesis]

theorem presents_of_mem
    {placement : Placement} {keys : List Key} {trees : List Tree}
    (presents : List.Forall₂ (registry.Presents placement levels) keys
      trees)
    {key : Key} (member : key ∈ keys) :
    registry.Presents placement levels key (registry.keyTree levels key) ∧
      registry.keyTree levels key ∈ trees := by
  induction presents with
  | nil => cases member
  | cons head _ inductionHypothesis =>
      rcases List.mem_cons.mp member with rfl | later
      · rw [head.keyTree_eq]
        exact ⟨head, List.mem_cons_self⟩
      · obtain ⟨shown, among⟩ := inductionHypothesis later
        exact ⟨shown, List.mem_cons_of_mem _ among⟩

theorem forall₂_keyTree
    {placement : Placement} {keys chosen : List Key} {trees : List Tree}
    (presents : List.Forall₂ (registry.Presents placement levels) keys
      trees)
    (subset : chosen ⊆ keys) :
    List.Forall₂ (registry.Presents placement levels) chosen
      (chosen.map (registry.keyTree levels)) := by
  induction chosen with
  | nil => exact .nil
  | cons key chosen inductionHypothesis =>
      rw [List.map_cons]
      exact .cons (presents_of_mem presents (subset List.mem_cons_self)).1
        (inductionHypothesis fun _ member =>
          subset (List.mem_cons_of_mem _ member))

/-- Comparing all pairs of formulas with normal trees compares the trees. -/
theorem WellFormed.reduce?_eq
    (wellFormed : registry.WellFormed) {keys : List Key}
    {trees : List Tree}
    (presents : List.Forall₂ (registry.Presents .named levels) keys trees)
    (normal : ∀ tree ∈ trees, tree.Normal)
    (enough : levels ≤ registry.levels 0) (connective : Connective) :
    Pairing.reduce? connective Tree.opposed Tree.alike trees =
      (Pairing.reduce? connective registry.negates registry.alike
        keys).map (List.map (registry.keyTree levels)) := by
  rw [← map_keyTree_eq presents]
  apply Pairing.reduce?_map
  · intro left leftMember right rightMember
    obtain ⟨leftShown, leftAmong⟩ := presents_of_mem presents leftMember
    obtain ⟨rightShown, rightAmong⟩ := presents_of_mem presents rightMember
    exact wellFormed.negates_eq leftShown rightShown
      (normal _ leftAmong) (normal _ rightAmong) enough
  · intro left leftMember right rightMember
    obtain ⟨leftShown, leftAmong⟩ := presents_of_mem presents leftMember
    obtain ⟨rightShown, rightAmong⟩ := presents_of_mem presents rightMember
    exact wellFormed.alike_eq leftShown rightShown
      (normal _ leftAmong) (normal _ rightAmong) enough

end Normal

end Registry

end NamedLogic
