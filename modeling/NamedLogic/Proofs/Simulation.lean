import NamedLogic.Proofs.GatheredJunction
import NamedLogic.Proofs.Issued

/-!
# Simplification follows the tree

When a formula whose tree is resolved is simplified and the simplification
succeeds, the tree is not cut off, and the result presents the simplification of
the tree, or there is no result and nothing remains of the tree.
-/

namespace NamedLogic

namespace Registry

/-- Whenever the simplification of a formula with a resolved tree succeeds, it
follows the tree. -/
def Simulates
    (placement : Placement) (levels : Nat)
    (simplify : Key → Update (Option Key)) : Prop :=
  ∀ ⦃before after : Registry⦄ ⦃key : Key⦄ ⦃tree : Tree⦄
    ⦃result : Option Key⦄,
    before.WellFormed → levels ≤ before.levels 0 →
      before.Presents placement (levels + 1) key tree → tree.Resolved →
        before.Yields (simplify key) result after →
          tree.Settled ∧
            Option.Rel (after.Presents placement (levels + 1)) result
              tree.simplify

section Transport

variable {before after : Registry} {placement : Placement} {levels : Nat}

theorem forall₂_of_extends
    (beforeWellFormed : before.WellFormed)
    (afterWellFormed : after.WellFormed) (extension : before.Extends after)
    {keys : List Key} {trees : List Tree}
    (presents : List.Forall₂ (before.Presents placement levels) keys trees)
    (resolved : ∀ tree ∈ trees, tree.Resolved) :
    List.Forall₂ (after.Presents placement levels) keys trees := by
  induction presents with
  | nil => exact .nil
  | cons head _ inductionHypothesis =>
      exact .cons
        (head.of_extends beforeWellFormed afterWellFormed extension
          (resolved _ List.mem_cons_self))
        (inductionHypothesis fun tree member =>
          resolved tree (List.mem_cons_of_mem _ member))

theorem rel_of_named
    {registry : Registry} (placement : Placement) {key : Option Key}
    {tree : Option Tree}
    (related : Option.Rel (registry.Presents .named levels) key tree) :
    Option.Rel (registry.Presents placement levels) key tree := by
  cases related with
  | some shown => exact .some (shown.of_named placement)
  | none => exact .none

theorem rel_of_extends
    (beforeWellFormed : before.WellFormed)
    (afterWellFormed : after.WellFormed) (extension : before.Extends after)
    {key : Option Key} {tree : Option Tree}
    (related : Option.Rel (before.Presents placement levels) key tree)
    (normal : ∀ shown ∈ tree, shown.Normal) :
    Option.Rel (after.Presents placement levels) key tree := by
  cases related with
  | some shown =>
      exact .some (shown.of_extends beforeWellFormed afterWellFormed
        extension (normal _ rfl).resolved)
  | none => exact .none

theorem rel_of_more
    {registry : Registry} {key : Option Key} {tree : Option Tree}
    (related : Option.Rel (registry.Presents placement levels) key tree)
    (normal : ∀ shown ∈ tree, shown.Normal) {large : Nat}
    (enough : levels ≤ large) :
    Option.Rel (registry.Presents placement large) key tree := by
  cases related with
  | some shown => exact .some (shown.more (normal _ rfl).settled enough)
  | none => exact .none

theorem rel_shows
    {registry : Registry} {key : Option Key} {tree : Option Tree}
    (related : Option.Rel (registry.Presents placement levels) key tree) :
    Option.Rel (registry.Shows levels) key tree := by
  cases related with
  | some shown => exact .some shown.shows
  | none => exact .none

theorem exists_of_rel_some
    {relation : Key → Tree → Prop} {key : Key} {tree : Option Tree}
    (related : Option.Rel relation (some key) tree) :
    ∃ shown, tree = some shown ∧ relation key shown := by
  cases related with
  | some holds => exact ⟨_, rfl, holds⟩

theorem eq_none_of_rel_none
    {relation : Key → Tree → Prop} {tree : Option Tree}
    (related : Option.Rel relation none tree) :
    tree = none := by
  cases related
  rfl

end Transport

section Runs

variable {simplify : Key → Update (Option Key)} {levels : Nat}
  (simplifyGrows : ∀ key registry,
    Grows registry (registry.after (simplify key)))
  (simulates : Simulates .named levels simplify)

include simplifyGrows simulates

/-! ## Operands -/

/-- Simplifying one operand follows its tree, and leaves the other names
standing for the same trees. -/
theorem operand_presents
    {before middle : Registry} {operand : Key} {result : Option Key}
    (run : before.Yields (simplify operand) result middle)
    (wellFormed : before.WellFormed) (enough : levels ≤ before.levels 0)
    {name : Name} (bound : before.binding name = some operand)
    {names : List Name}
    (resolved : ∀ other ∈ name :: names,
      (before.nameTree (levels + 1) other).Resolved) :
    middle.WellFormed ∧ levels ≤ middle.levels 0 ∧
      (∀ other ∈ names, middle.nameTree (levels + 1) other =
        before.nameTree (levels + 1) other) ∧
      (before.nameTree (levels + 1) name).Settled ∧
      Option.Rel (middle.Presents .named (levels + 1)) result
        (before.nameTree (levels + 1) name).simplify := by
  obtain ⟨middleWellFormed, extension⟩ :=
    run.related (simplifyGrows _ _) wellFormed
  obtain ⟨settled, outcome⟩ := simulates wellFormed enough
    (wellFormed.presents_of_binding bound)
    (resolved name List.mem_cons_self) run
  exact ⟨middleWellFormed, extension.levels_eq 0 ▸ enough,
    fun other member => nameTree_eq_of_extends wellFormed middleWellFormed
      extension (resolved other (List.mem_cons_of_mem _ member)),
    settled, outcome⟩

theorem OperandsRun.presents
    {connective : Connective} {before after : Registry}
    {names : List Name} {result : List Key}
    (run : OperandsRun simplify connective before names result after)
    (wellFormed : before.WellFormed) (enough : levels ≤ before.levels 0)
    (resolved : ∀ name ∈ names,
      (before.nameTree (levels + 1) name).Resolved) :
    (∀ name ∈ names, (before.nameTree (levels + 1) name).Settled) ∧
      List.Forall₂ (after.Presents .named (levels + 1)) result
        ((Tree.simplifyAll
            (names.map (before.nameTree (levels + 1)))).flatMap
          (Tree.contributed connective)) := by
  induction run with
  | nil registry => exact ⟨List.forall_mem_nil _, .nil⟩
  | unbound unbound _ _ =>
      have headResolved := resolved _ List.mem_cons_self
      exact (binding_ne_none_of_resolved headResolved unbound).elim
  | @vanished before middle after name names operand result bound run rest
      inductionHypothesis =>
      obtain ⟨middleWellFormed, middleEnough, same, settled, outcome⟩ :=
        operand_presents simplifyGrows simulates run wellFormed enough bound
          resolved
      obtain ⟨restSettled, restPresents⟩ := inductionHypothesis
        middleWellFormed middleEnough fun other member =>
          same other member ▸ resolved other (List.mem_cons_of_mem _ member)
      rw [List.map_congr_left same] at restPresents
      refine ⟨List.forall_mem_cons.mpr ⟨settled, fun other member =>
        same other member ▸ restSettled other member⟩, ?_⟩
      rw [List.map_cons, Tree.simplifyAll, eq_none_of_rel_none outcome]
      exact restPresents
  | @kept before middle after name names operand simplified back bound run
      rest inductionHypothesis =>
      obtain ⟨middleWellFormed, middleEnough, same, settled, outcome⟩ :=
        operand_presents simplifyGrows simulates run wellFormed enough bound
          resolved
      obtain ⟨restSettled, restPresents⟩ := inductionHypothesis
        middleWellFormed middleEnough fun other member =>
          same other member ▸ resolved other (List.mem_cons_of_mem _ member)
      rw [List.map_congr_left same] at restPresents
      refine ⟨List.forall_mem_cons.mpr ⟨settled, fun other member =>
        same other member ▸ restSettled other member⟩, ?_⟩
      obtain ⟨shown, shape, shows⟩ := exists_of_rel_some outcome
      have normal := Tree.normal_of_simplify shape
      obtain ⟨afterWellFormed, later⟩ :=
        rest.grows simplifyGrows middleWellFormed
      have front := forall₂_of_extends middleWellFormed afterWellFormed later
        (middleWellFormed.forall₂_contribution shows normal connective)
        fun _ among => (normal.contributed among).1.resolved
      rw [List.map_cons, Tree.simplifyAll, shape, Option.toList_some,
        List.singleton_append, List.flatMap_cons]
      exact List.rel_append front restPresents

/-! ## Junctions -/

omit simplifyGrows simulates in
/-- The names of the operands stand for their trees in a larger registry. -/
theorem map_operandNames_eq
    {before after : Registry} (extension : before.Extends after)
    {operands : List Key} {trees : List Tree}
    (presents : List.Forall₂ (before.Presents .named levels) operands trees)
    (later : List.Forall₂ (after.Presents .named levels) operands trees) :
    (before.operandNames operands).map (after.nameTree levels) = trees := by
  unfold operandNames
  induction presents with
  | nil => rfl
  | @cons operand tree _ _ head _ inductionHypothesis =>
      obtain ⟨headLater, restLater⟩ := List.forall₂_cons.mp later
      obtain ⟨⟨node, stored, _⟩, _⟩ := head
      simp only [List.filterMap_cons, stored, Option.map_some,
        List.map_cons, inductionHypothesis restLater,
        (headLater.nameTree_eq (extension.node? stored)).2]

omit simplifyGrows simulates in
/-- A rebuilt junction presents the junction of the trees of its operands. -/
theorem presents_of_rebuild
    {placement : Placement} {connective : Connective}
    {before after : Registry} {original key : Key} {node : Node}
    {operands : List Key} {trees : List Tree}
    (run : before.Yields (rebuild placement node connective operands) key
      after)
    (wellFormed : before.WellFormed)
    (stored : before.node? original = some node)
    (presents : List.Forall₂ (before.Presents .named levels) operands trees)
    (resolved : ∀ tree ∈ trees, tree.Resolved) :
    after.Presents placement (levels + 1) key
      (.junction connective trees) := by
  obtain ⟨_, name, _, again, rebuilds⟩ :=
    yields_rebuild wellFormed stored placement connective operands
  obtain ⟨rfl, rfl⟩ := run.unique again
  refine ⟨⟨_, rebuilds.stored, ?_⟩, fun named =>
    ⟨_, rebuilds.stored, rebuilds.bound named⟩⟩
  rw [unfold_junction rfl, map_operandNames_eq rebuilds.extension presents
    (forall₂_of_extends wellFormed rebuilds.wellFormed rebuilds.extension
      presents resolved)]

/-- Comparing the collected operands in pairs leaves the operands of what is
collected from the trees. -/
theorem OperandsRun.collect_eq
    {connective : Connective} {before after : Registry}
    {names : List Name} {operands : List Key}
    (run : OperandsRun simplify connective before names operands after)
    (wellFormed : before.WellFormed)
    (enough : levels + 1 ≤ before.levels 0)
    (resolved : ∀ name ∈ names,
      (before.nameTree (levels + 1) name).Resolved) :
    Tree.collect connective (Tree.simplifyAll
        (names.map (before.nameTree (levels + 1)))) =
      Tree.settle connective
        ((Pairing.reduce? connective after.negates after.alike
          operands).map (List.map (after.keyTree (levels + 1)))) := by
  obtain ⟨_, presents⟩ := run.presents simplifyGrows simulates wellFormed
    (Nat.le_of_succ_le enough) resolved
  obtain ⟨afterWellFormed, extension⟩ := run.grows simplifyGrows wellFormed
  rw [Tree.collect, afterWellFormed.reduce?_eq presents ?_
    (extension.levels_eq 0 ▸ enough)]
  exact fun tree member => (Tree.normal_of_mem_flatMap_contributed
    Tree.normal_of_mem_simplifyAll member).1

theorem JunctionRun.presents
    {placement : Placement} {key : Key} {connective : Connective}
    {before after : Registry} {names : List Name} {result : Option Key}
    (run : JunctionRun simplify placement key connective before names result
      after)
    (wellFormed : before.WellFormed)
    (enough : levels + 1 ≤ before.levels 0)
    {node : Node} (stored : before.node? key = some node)
    (resolved : ∀ name ∈ names,
      (before.nameTree (levels + 1) name).Resolved) :
    (∀ name ∈ names, (before.nameTree (levels + 1) name).Settled) ∧
      Option.Rel (after.Presents placement (levels + 2)) result
        (Tree.collect connective
          (Tree.simplifyAll
            (names.map (before.nameTree (levels + 1))))) := by
  have shallow := Nat.le_of_succ_le enough
  have normal : ∀ tree ∈ (Tree.simplifyAll
      (names.map (before.nameTree (levels + 1)))).flatMap
        (Tree.contributed connective), tree.Normal := fun tree member =>
    (Tree.normal_of_mem_flatMap_contributed
      Tree.normal_of_mem_simplifyAll member).1
  cases run with
  | decided collected reduced | empty collected reduced =>
      obtain ⟨settled, _⟩ := collected.presents simplifyGrows simulates
        wellFormed shallow resolved
      rw [collected.collect_eq simplifyGrows simulates wellFormed enough
        resolved, reduced]
      exact ⟨settled, .none⟩
  | single collected reduced =>
      obtain ⟨settled, presents⟩ := collected.presents simplifyGrows
        simulates wellFormed shallow resolved
      rw [collected.collect_eq simplifyGrows simulates wellFormed enough
        resolved, reduced]
      obtain ⟨shown, among⟩ := presents_of_mem presents
        (Pairing.subset_of_reduce? reduced List.mem_cons_self)
      exact ⟨settled, .some ((shown.more (normal _ among).settled
        (Nat.le_succ _)).of_named placement)⟩
  | dropped collected _ _ missing =>
      obtain ⟨_, extension⟩ := collected.grows simplifyGrows wellFormed
      rw [extension.node? stored] at missing
      cases missing
  | rebuilt collected reduced several storedMiddle rebuildRun =>
      obtain ⟨settled, presents⟩ := collected.presents simplifyGrows
        simulates wellFormed shallow resolved
      obtain ⟨middleWellFormed, _⟩ :=
        collected.grows simplifyGrows wellFormed
      have subset := Pairing.subset_of_reduce? reduced
      rw [collected.collect_eq simplifyGrows simulates wellFormed enough
        resolved, reduced, Option.map_some,
        Tree.settle_of_several connective (by simpa using several)]
      refine ⟨settled, .some ?_⟩
      refine presents_of_rebuild rebuildRun middleWellFormed storedMiddle
        (forall₂_keyTree presents subset) ?_
      intro tree member
      obtain ⟨operand, among, rfl⟩ := List.mem_map.mp member
      exact (normal _
        (presents_of_mem presents (subset among)).2).resolved

/-! ## Negations -/

omit simplifyGrows simulates in
/-- A new negation presents the negation of the tree of its operand. -/
theorem presents_of_negation
    {before after : Registry} {operand key : Key} {tree : Tree}
    (run : before.Yields (negation operand) key after)
    (wellFormed : before.WellFormed)
    (presents : before.Presents .named levels operand tree)
    (resolved : tree.Resolved) :
    after.WellFormed ∧ before.Extends after ∧
      after.Presents .named (levels + 1) key (.negation tree) := by
  obtain ⟨_, _, again, shown⟩ :=
    wellFormed.exists_yields_negation presents resolved
  obtain ⟨rfl, rfl⟩ := run.unique again
  exact shown

/-- The operands of a normal junction are turned into their duals. -/
theorem NegationsRun.presents
    {before after : Registry} {names : List Name} {result : List Key}
    (run : NegationsRun simplify before names result after)
    (wellFormed : before.WellFormed) (enough : levels ≤ before.levels 0)
    (normal : ∀ name ∈ names, (before.nameTree levels name).Normal) :
    List.Forall₂ (after.Presents .named (levels + 1)) result
      ((names.map (before.nameTree levels)).map Tree.dual) := by
  induction run with
  | nil registry => exact .nil
  | unbound unbound _ _ =>
      have headResolved := (normal _ List.mem_cons_self).resolved
      exact (binding_ne_none_of_resolved headResolved unbound).elim
  | @negated before middle next after name names operand negated front back
      bound negation run rest inductionHypothesis =>
      have headNormal := normal name List.mem_cons_self
      obtain ⟨middleWellFormed, first, negationPresents⟩ :=
        presents_of_negation negation wellFormed
          (wellFormed.presents_of_binding bound) headNormal.resolved
      obtain ⟨nextWellFormed, second⟩ :=
        run.related (simplifyGrows _ _) middleWellFormed
      obtain ⟨afterWellFormed, third⟩ :=
        rest.grows simplifyGrows nextWellFormed
      have extension := first.trans second
      obtain ⟨_, outcome⟩ := simulates middleWellFormed
        (first.levels_eq 0 ▸ enough) negationPresents
        ⟨trivial, headNormal.resolved⟩ run
      rw [Tree.simplify, headNormal.simplify_eq, Option.map_some] at outcome
      have same : ∀ other ∈ names, next.nameTree levels other =
          before.nameTree levels other := fun other member =>
        nameTree_eq_of_extends wellFormed nextWellFormed extension
          (normal other (List.mem_cons_of_mem _ member)).resolved
      have restPresents := inductionHypothesis nextWellFormed
        (extension.levels_eq 0 ▸ enough) fun other member =>
          same other member ▸ normal other (List.mem_cons_of_mem _ member)
      rw [List.map_congr_left same] at restPresents
      cases outcome with
      | some shown =>
          exact .cons
            (shown.of_extends nextWellFormed afterWellFormed third
              headNormal.dual.resolved)
            restPresents

omit simplifyGrows simulates in
/-- Joining the duals of the operands of a normal junction presents its
dual. -/
theorem DualRun.presents
    {connective : Connective} {before after : Registry}
    {negated : List Key} {result : Option Key}
    (run : DualRun connective before negated result after)
    (wellFormed : before.WellFormed) {trees : List Tree}
    (normal : (Tree.junction connective trees).Normal)
    (presents : List.Forall₂ (before.Presents .named levels) negated
      (trees.map Tree.dual)) :
    Option.Rel (after.Presents .named (levels + 1)) result
      (some (Tree.junction connective trees).dual) := by
  have dualNormal := normal.dual
  rw [Tree.dual_junction] at dualNormal ⊢
  obtain ⟨irreducible, parts⟩ := dualNormal.parts
  have sameLength := presents.length_eq
  have several := irreducible.several
  cases run with
  | empty | single =>
      rw [← sameLength] at several
      simp at several
  | several _ run =>
      obtain ⟨names, node, _, _, stored, bound, body, shapes⟩ :=
        wellFormed.exists_gathered_of_irreducible run presents irreducible
          parts
      refine .some ⟨⟨node, stored, ?_⟩, fun _ => ⟨node, stored, bound⟩⟩
      rw [unfold_junction body, shapes]

omit simplifyGrows simulates in
/-- The operand of a normal negation presents its dual. -/
theorem dual_presents_of_negation
    {registry : Registry} (wellFormed : registry.WellFormed)
    (placement : Placement) {node : Node} {inner : Name}
    (body : node.body = .negation inner)
    (normal : (registry.unfold levels node).Normal) :
    Option.Rel (registry.Presents placement (levels + 1))
      (registry.binding inner) (some (registry.unfold levels node).dual) := by
  obtain ⟨key, string, bound, presents, shape⟩ :=
    wellFormed.exists_inner_of_negation body normal
  rw [bound, shape]
  have deeper := presents.more (Tree.Normal.positive string).settled
    (Nat.le_succ levels)
  exact .some (deeper.of_named placement)

/-- Joining the negated operands of a normal junction presents its dual. -/
theorem dual_presents_of_junction
    {connective : Connective} {before middle after : Registry} {node : Node}
    {names : List Name} {negated : List Key} {result : Option Key}
    (negations : NegationsRun simplify before names negated middle)
    (dual : DualRun connective middle negated result after)
    (wellFormed : before.WellFormed) (enough : levels ≤ before.levels 0)
    (placement : Placement) (body : node.body = .junction connective names)
    (normal : (before.unfold (levels + 1) node).Normal) :
    Option.Rel (after.Presents placement (levels + 2)) result
      (some (before.unfold (levels + 1) node).dual) := by
  rw [unfold_junction body] at normal ⊢
  obtain ⟨middleWellFormed, _⟩ := negations.grows simplifyGrows wellFormed
  have negatedPresents := negations.presents simplifyGrows simulates
    wellFormed enough fun name member =>
      normal.parts.2 _ (List.mem_map_of_mem member)
  exact rel_of_named placement
    (dual.presents middleWellFormed normal negatedPresents)

omit simplifyGrows simulates in
/-- The negation of a formula whose normal tree is neither a negation nor a
junction presents its dual. -/
theorem dual_presents_of_other
    {before after : Registry} {operand negated : Key} {node : Node}
    (run : before.Yields (negation operand) negated after)
    (wellFormed : before.WellFormed) (placement : Placement)
    (presents : before.Presents .named levels operand
      (before.unfold levels node))
    (normal : (before.unfold levels node).Normal)
    (noNegation : ∀ inner, node.body ≠ .negation inner)
    (noJunction : ∀ connective names,
      node.body ≠ .junction connective names) :
    after.Presents placement (levels + 1) negated
      (before.unfold levels node).dual := by
  obtain ⟨_, _, shown⟩ :=
    presents_of_negation run wellFormed presents normal.resolved
  obtain ⟨string, shape⟩ :=
    exists_atom_of_normal normal noNegation noJunction
  rw [shape] at shown ⊢
  exact shown.of_named placement

theorem NegationRun.presents
    {placement : Placement} {key : Key} {operand : Name}
    {before after : Registry} {result : Option Key}
    (run : NegationRun simplify key before operand result after)
    (wellFormed : before.WellFormed)
    (enough : levels + 1 ≤ before.levels 0)
    (presents : before.Presents placement (levels + 2) key
      (.negation (before.nameTree (levels + 1) operand)))
    (resolved : (before.nameTree (levels + 1) operand).Resolved) :
    (before.nameTree (levels + 1) operand).Settled ∧
      Option.Rel (after.Presents placement (levels + 2)) result
        (Tree.simplify
          (.negation (before.nameTree (levels + 1) operand))) := by
  rw [Tree.simplify]
  -- All but the first two cases begin by simplifying the operand.
  have simplifies : ∀ {operandKey node outcome middle},
      before.resolve operand = some (operandKey, node) →
      before.Yields (simplify operandKey) outcome middle →
        middle.WellFormed ∧ before.Extends middle ∧
        (before.nameTree (levels + 1) operand).Settled ∧
        Option.Rel (middle.Presents .named (levels + 1)) outcome
          (before.nameTree (levels + 1) operand).simplify := by
    intro operandKey node outcome middle resolution run
    obtain ⟨middleWellFormed, extension⟩ :=
      run.related (simplifyGrows _ _) wellFormed
    have operandPresents : before.Presents .named (levels + 1) operandKey
        (before.nameTree (levels + 1) operand) :=
      (wellFormed.presents_of_resolve resolution).2.2
    exact ⟨middleWellFormed, extension, simulates wellFormed
      (Nat.le_of_succ_le enough) operandPresents resolved run⟩
  cases run with
  | unresolved unresolved =>
      obtain ⟨_, bound, _⟩ := wellFormed.exists_presents resolved
      obtain ⟨_, _, _, resolution, _⟩ := wellFormed.resolve_eq bound
      rw [unresolved] at resolution
      cases resolution
  | @atom _ _ node resolution isAtom =>
      have shape : before.nameTree (levels + 1) operand =
          before.unfold (levels + 1) node :=
        (wellFormed.presents_of_resolve resolution).2.1
      rw [unfold_atom (Node.body_eq_atom_of_isAtom isAtom)] at shape
      rw [shape] at presents ⊢
      exact ⟨Tree.settled_atom _, .some presents⟩
  | vanished resolution _ run =>
      obtain ⟨_, _, settled, outcome⟩ := simplifies resolution run
      rw [eq_none_of_rel_none outcome]
      exact ⟨settled, .none⟩
  | dropped resolution _ run missing =>
      obtain ⟨_, _, _, outcome⟩ := simplifies resolution run
      obtain ⟨_, _, ⟨_, stored, _⟩, _⟩ := exists_of_rel_some outcome
      rw [missing] at stored
      cases stored
  | negation resolution _ run stored body =>
      obtain ⟨middleWellFormed, _, settled, outcome⟩ :=
        simplifies resolution run
      obtain ⟨_, simplified, shown⟩ := exists_of_rel_some outcome
      obtain rfl := shown.unfold_eq stored
      rw [simplified]
      exact ⟨settled, dual_presents_of_negation middleWellFormed placement
        body (Tree.normal_of_simplify simplified)⟩
  | junction resolution _ run stored body negations dual =>
      obtain ⟨middleWellFormed, extension, settled, outcome⟩ :=
        simplifies resolution run
      obtain ⟨_, simplified, shown⟩ := exists_of_rel_some outcome
      obtain rfl := shown.unfold_eq stored
      rw [simplified]
      exact ⟨settled, dual_presents_of_junction simplifyGrows simulates
        negations dual middleWellFormed
        (extension.levels_eq 0 ▸ Nat.le_of_succ_le enough) placement body
        (Tree.normal_of_simplify simplified)⟩
  | other resolution _ run stored noNegation noJunction negation =>
      obtain ⟨middleWellFormed, _, settled, outcome⟩ :=
        simplifies resolution run
      obtain ⟨_, simplified, shown⟩ := exists_of_rel_some outcome
      obtain rfl := shown.unfold_eq stored
      rw [simplified]
      exact ⟨settled, .some (dual_presents_of_other negation middleWellFormed
        placement shown (Tree.normal_of_simplify simplified) noNegation
        noJunction)⟩

/-! ## Implications -/

omit simplifyGrows in
/-- Negating a formula and simplifying the negation yields the dual of its
simplification. -/
theorem rel_of_negation
    {before middle after : Registry} {operand negated : Key} {tree : Tree}
    {result : Option Key}
    (negates : before.Yields (negation operand) negated middle)
    (run : middle.Yields (simplify negated) result after)
    (wellFormed : before.WellFormed) (enough : levels ≤ before.levels 0)
    (presents : before.Presents .named (levels + 1) operand tree)
    (resolved : tree.Resolved) :
    tree.Settled ∧
      Option.Rel (after.Presents .named (levels + 1)) result
        (tree.simplify.map Tree.dual) := by
  obtain ⟨⟨node, stored, rfl⟩, bound⟩ := presents
  have shallow : before.Presents .named levels operand
      (before.unfold levels node) := ⟨⟨node, stored, rfl⟩, bound⟩
  obtain ⟨middleWellFormed, extension, negatedPresents⟩ :=
    presents_of_negation negates wellFormed shallow
      (resolved_of_succ resolved)
  obtain ⟨settled, outcome⟩ := simulates middleWellFormed
    (extension.levels_eq 0 ▸ enough) negatedPresents
    ⟨trivial, resolved_of_succ resolved⟩ run
  rw [unfold_succ_of_settled settled.2]
  exact ⟨settled.2, outcome⟩

omit simplifyGrows in
/-- Joining simplified formulas and simplifying the junction collects them. -/
theorem rel_of_junction
    {before middle after : Registry} {connective : Connective}
    {operands : List Key} {joined : Key} {trees : List Tree}
    {result : Option Key}
    (joins : before.Yields (junction connective operands) joined middle)
    (run : middle.Yields (simplify joined) result after)
    (wellFormed : before.WellFormed) (enough : levels ≤ before.levels 0)
    (presents : List.Forall₂ (before.Presents .named (levels + 1)) operands
      trees)
    (normal : ∀ tree ∈ trees, tree.Normal) :
    Option.Rel (after.Presents .named (levels + 1)) result
      (Tree.collect connective trees) := by
  obtain ⟨names, node, middleWellFormed, extension, stored, bound, body,
    shapes⟩ := wellFormed.exists_gathered joins presents normal
  have parts : ∀ name ∈ names,
      (middle.nameTree (levels + 1) name).Normal ∧
        (middle.nameTree (levels + 1) name).joins connective = false :=
    fun name member => Tree.normal_of_mem_flatMap_contributed normal
      (shapes ▸ List.mem_map_of_mem member)
  have among : ∀ name ∈ names.foldl appendNew [], name ∈ names := by
    intro name member
    simpa using mem_foldl_appendNew.mp member
  have joinedPresents : middle.Presents .named (levels + 1) joined
      (middle.unfold (levels + 1) node) :=
    ⟨⟨node, stored, rfl⟩, fun _ => ⟨node, stored, bound⟩⟩
  have resolved : (middle.unfold (levels + 1) node).Resolved := by
    rw [unfold_junction_resolved_iff body]
    exact fun name member => nameTree_resolved_of_succ resolved_of_succ
      (parts name (among name member)).1.resolved
  obtain ⟨settled, outcome⟩ := simulates middleWellFormed
    (extension.levels_eq 0 ▸ enough) joinedPresents resolved run
  -- The names taken stand for the trees collected, as nothing is cut off.
  have deeper : ∀ name ∈ names.foldl appendNew [],
      middle.nameTree levels name = middle.nameTree (levels + 1) name := by
    intro name member
    rw [unfold_junction body] at settled
    obtain ⟨_, settledParts⟩ := Tree.every_junction_iff.mp settled
    exact (nameTree_succ (fun _ => unfold_succ_of_settled)
      (settledParts _ (List.mem_map_of_mem member))).symm
  rw [unfold_junction body, List.map_congr_left deeper, Tree.simplify,
    Tree.simplifyAll_eq_self, Tree.collect,
    Tree.flatMap_contributed_of_not_joins, reduce?_foldl_appendNew,
    List.nil_append, shapes] at outcome
  · exact outcome
  · exact fun name member => (parts name (by simpa using member)).1
  · intro tree member
    obtain ⟨name, present, rfl⟩ := List.mem_map.mp member
    exact (parts name (among name present)).2
  · intro tree member
    obtain ⟨name, present, rfl⟩ := List.mem_map.mp member
    exact (parts name (among name present)).1.simplify_eq

/-- What becomes of the two sides of an implication. -/
theorem rel_of_sides
    {before second third fourth : Registry}
    {premise conclusion negated : Key} {left right : Option Key}
    {premiseTree conclusionTree : Tree}
    (negates : before.Yields (negation premise) negated second)
    (leftRun : second.Yields (simplify negated) left third)
    (rightRun : third.Yields (simplify conclusion) right fourth)
    (wellFormed : before.WellFormed) (enough : levels ≤ before.levels 0)
    (premisePresents :
      before.Presents .named (levels + 1) premise premiseTree)
    (conclusionPresents :
      before.Presents .named (levels + 1) conclusion conclusionTree)
    (premiseResolved : premiseTree.Resolved)
    (conclusionResolved : conclusionTree.Resolved) :
    (premiseTree.Settled ∧ conclusionTree.Settled) ∧
      fourth.WellFormed ∧ before.Extends fourth ∧
      Option.Rel (fourth.Presents .named (levels + 1)) left
        (premiseTree.simplify.map Tree.dual) ∧
      Option.Rel (fourth.Presents .named (levels + 1)) right
        conclusionTree.simplify := by
  obtain ⟨secondWellFormed, first⟩ :=
    negates.related (grows_negation _ _) wellFormed
  obtain ⟨thirdWellFormed, next⟩ :=
    leftRun.related (simplifyGrows _ _) secondWellFormed
  obtain ⟨fourthWellFormed, last⟩ :=
    rightRun.related (simplifyGrows _ _) thirdWellFormed
  have toThird := first.trans next
  obtain ⟨premiseSettled, leftOutcome⟩ := rel_of_negation simulates negates
    leftRun wellFormed enough premisePresents premiseResolved
  obtain ⟨conclusionSettled, rightOutcome⟩ := simulates thirdWellFormed
    (toThird.levels_eq 0 ▸ enough)
    (conclusionPresents.of_extends wellFormed thirdWellFormed toThird
      conclusionResolved)
    conclusionResolved rightRun
  refine ⟨⟨premiseSettled, conclusionSettled⟩, fourthWellFormed,
    toThird.trans last, ?_, rightOutcome⟩
  refine rel_of_extends thirdWellFormed fourthWellFormed last leftOutcome ?_
  intro shown member
  obtain ⟨inner, simplified, rfl⟩ := Option.map_eq_some_iff.mp member
  exact (Tree.normal_of_simplify simplified).dual

theorem ImplicationRun.presents
    {antecedent consequent : Option Name} {before after : Registry}
    {result : Option Key}
    (run : ImplicationRun simplify before antecedent consequent result
      after)
    (wellFormed : before.WellFormed) (enough : levels ≤ before.levels 0)
    (premiseResolved :
      (before.sideTree (levels + 1) antecedent).Resolved)
    (conclusionResolved :
      (before.sideTree (levels + 1) consequent).Resolved) :
    ((before.sideTree (levels + 1) antecedent).Settled ∧
        (before.sideTree (levels + 1) consequent).Settled) ∧
      Option.Rel (after.Presents .named (levels + 1)) result
        (Tree.simplify (.implication
          (before.sideTree (levels + 1) antecedent)
          (before.sideTree (levels + 1) consequent))) := by
  rw [Tree.simplify]
  cases run with
  | neither noPremise noConclusion =>
      rw [sideTree_eq_absent premiseResolved noPremise,
        sideTree_eq_absent conclusionResolved noConclusion]
      exact ⟨⟨Tree.settled_absent, Tree.settled_absent⟩, .none⟩
  | conclusion noPremise bound run =>
      obtain ⟨settled, outcome⟩ := simulates wellFormed enough
        (wellFormed.side_presents bound) conclusionResolved run
      rw [sideTree_eq_absent premiseResolved noPremise, Tree.simplify,
        Option.map_none, Tree.joinSides_none_left]
      · exact ⟨⟨Tree.settled_absent, settled⟩, outcome⟩
      all_goals simp
  | premise bound noConclusion negates run =>
      obtain ⟨settled, outcome⟩ := rel_of_negation simulates negates run
        wellFormed enough (wellFormed.side_presents bound) premiseResolved
      rw [sideTree_eq_absent conclusionResolved noConclusion]
      refine ⟨⟨settled, Tree.settled_absent⟩, ?_⟩
      exact (Tree.joinSides_none_right _).symm ▸ outcome
  | oneSide premiseBound conclusionBound negates leftRun rightRun oneSide =>
      obtain ⟨settled, _, _, leftOutcome, rightOutcome⟩ :=
        rel_of_sides simplifyGrows simulates negates leftRun rightRun
          wellFormed enough (wellFormed.side_presents premiseBound)
          (wellFormed.side_presents conclusionBound) premiseResolved
          conclusionResolved
      refine ⟨settled, ?_⟩
      rcases oneSide with rfl | rfl
      · rw [eq_none_of_rel_none leftOutcome, Tree.joinSides_none_left]
        exact rightOutcome
      · rw [eq_none_of_rel_none rightOutcome, Tree.joinSides_none_right,
          Option.or_none]
        exact leftOutcome
  | bothSides premiseBound conclusionBound negates leftRun rightRun joins
      run =>
      obtain ⟨settled, fourthWellFormed, extension, leftOutcome,
        rightOutcome⟩ :=
        rel_of_sides simplifyGrows simulates negates leftRun rightRun
          wellFormed enough (wellFormed.side_presents premiseBound)
          (wellFormed.side_presents conclusionBound) premiseResolved
          conclusionResolved
      obtain ⟨leftTree, leftShape, leftShown⟩ :=
        exists_of_rel_some leftOutcome
      obtain ⟨rightTree, rightShape, rightShown⟩ :=
        exists_of_rel_some rightOutcome
      refine ⟨settled, ?_⟩
      rw [leftShape, rightShape]
      refine rel_of_junction simulates joins run fourthWellFormed
        (extension.levels_eq 0 ▸ enough)
        (.cons leftShown (.cons rightShown .nil)) ?_
      intro tree member
      rcases List.mem_cons.mp member with rfl | other
      · obtain ⟨_, simplified, rfl⟩ := Option.map_eq_some_iff.mp leftShape
        exact (Tree.normal_of_simplify simplified).dual
      · obtain rfl := List.mem_singleton.mp other
        exact Tree.normal_of_simplify rightShape

/-! ## Formulas -/

theorem FormulaRun.presents
    {placement : Placement} {key : Key} {before after : Registry}
    {tree : Tree} {result : Option Key}
    (run : FormulaRun simplify placement before key result after)
    (wellFormed : before.WellFormed)
    (enough : levels + 1 ≤ before.levels 0)
    (presents : before.Presents placement (levels + 2) key tree)
    (resolved : tree.Resolved) :
    tree.Settled ∧
      Option.Rel (after.Presents placement (levels + 2)) result
        tree.simplify := by
  have itself := presents
  obtain ⟨⟨node, stored, rfl⟩, _⟩ := presents
  cases run with
  | missing missing =>
      rw [stored] at missing
      cases missing
  | atom storedAgain body =>
      rw [stored] at storedAgain
      obtain rfl := Option.some.inj storedAgain
      rw [unfold_atom body] at itself ⊢
      exact ⟨Tree.settled_atom _, .some itself⟩
  | negation storedAgain body run =>
      rw [stored] at storedAgain
      obtain rfl := Option.some.inj storedAgain
      rw [unfold_negation body] at itself resolved ⊢
      obtain ⟨settled, outcome⟩ := run.presents simplifyGrows simulates
        wellFormed enough itself resolved.2
      exact ⟨Tree.settled_negation_iff.mpr settled, outcome⟩
  | junction storedAgain body run =>
      rw [stored] at storedAgain
      obtain rfl := Option.some.inj storedAgain
      obtain ⟨settled, outcome⟩ := run.presents simplifyGrows simulates
        wellFormed enough stored
        ((unfold_junction_resolved_iff body _).mp resolved)
      rw [unfold_junction body, Tree.simplify]
      refine ⟨Tree.settled_junction_iff.mpr ?_, outcome⟩
      intro operand member
      obtain ⟨name, present, rfl⟩ := List.mem_map.mp member
      exact settled name present
  | implication storedAgain body run =>
      rw [stored] at storedAgain
      obtain rfl := Option.some.inj storedAgain
      rw [unfold_implication body] at resolved ⊢
      obtain ⟨settled, outcome⟩ := run.presents simplifyGrows simulates
        wellFormed (Nat.le_of_succ_le enough) resolved.2.1 resolved.2.2
      refine ⟨Tree.settled_implication_iff.mpr settled,
        rel_of_named placement ?_⟩
      exact rel_of_more outcome
        (fun _ simplified => Tree.normal_of_simplify simplified)
        (Nat.le_succ _)
  | dnf storedAgain body =>
      rw [stored] at storedAgain
      obtain rfl := Option.some.inj storedAgain
      exact (body_ne_dnf_of_resolved resolved _ _ _ body).elim

end Runs

/-- Simplification follows the tree, whatever the number of levels. -/
theorem simulates_simplifyWithin (placement : Placement) (levels : Nat) :
    Simulates placement levels (simplifyWithin levels placement) := by
  induction levels generalizing placement with
  | zero =>
      intro before after key tree result _ _ _ _ run
      exact (not_yields_simplifyWithin_zero run).elim
  | succ levels inductionHypothesis =>
      intro before after key tree result wellFormed enough presents resolved
        run
      exact (formulaRun_of_yields run).presents
        (grows_simplifyWithin levels .named) (inductionHypothesis .named)
        wellFormed enough presents resolved

/-- A simplification that succeeds on a formula whose names are all bound shows
the simplification of its tree. -/
theorem Yields.simplify_shows
    {before after : Registry} {key : Key} {node : Node}
    {result : Option Key} (wellFormed : before.WellFormed)
    (stored : before.node? key = some node)
    (resolved : (before.unfold (before.levels 0 + 1) node).Resolved)
    (run : before.Yields (simplify key) result after) :
    (before.unfold (before.levels 0 + 1) node).Settled ∧
      Option.Rel (after.Shows (before.levels 0 + 1)) result
        (before.unfold (before.levels 0 + 1) node).simplify := by
  rw [simplify] at run
  have run := yields_get_bind_iff.mp run
  have presents : before.Presents .detached (before.levels 0 + 1) key
      (before.unfold (before.levels 0 + 1) node) :=
    ⟨⟨node, stored, rfl⟩, fun named => by cases named⟩
  obtain ⟨settled, outcome⟩ := simulates_simplifyWithin .detached _
    wellFormed le_rfl presents resolved run
  exact ⟨settled, rel_shows outcome⟩

end Registry

end NamedLogic
