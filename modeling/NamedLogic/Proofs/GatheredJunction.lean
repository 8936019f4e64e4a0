import NamedLogic.Proofs.Presentation

/-!
# Junctions of formulas with normal trees

When formulas are joined, those that are junctions of the same kind give their
operands in place of themselves, and no name is taken twice.  Two operands under
one name have one tree, so that comparing all pairs would have dropped the
second one in any case.
-/

namespace NamedLogic

/-! ## The names taken -/

/-- Add a name at the end of a list, unless it is there. -/
def appendNew (present : List Name) (name : Name) : List Name :=
  if present.contains name then present else present ++ [name]

/-- The names a formula offers to a junction: its operands if it is one of the
same kind, and otherwise its own name. -/
def Node.offered (connective : Connective) (node : Node) : List Name :=
  (node.operandsUnder? connective).getD [node.name]

theorem appendOperand_of_ne
    {own name : Name} (other : name ≠ own) (present : List Name) :
    (appendOperand own present name).2 = appendNew present name := by
  unfold appendOperand appendNew
  rw [if_neg other]
  split <;> rfl

theorem foldl_appendOperand_of_ne
    {own : Name} {names : List Name} (others : ∀ name ∈ names, name ≠ own)
    (present : List Name) :
    names.foldl (fun present name => (appendOperand own present name).2)
        present =
      names.foldl appendNew present := by
  induction names generalizing present with
  | nil => rfl
  | cons name names inductionHypothesis =>
      rw [List.foldl_cons, List.foldl_cons,
        appendOperand_of_ne (others name List.mem_cons_self),
        inductionHypothesis fun other member =>
          others other (List.mem_cons_of_mem _ member)]

/-- The operands gathered are the names offered, each taken once. -/
theorem gatherOperands_eq
    {own : Name} {connective : Connective} {additions : List Node}
    (named : ∀ addition ∈ additions, addition.name ≠ own)
    (others : ∀ addition ∈ additions,
      ∀ name ∈ addition.offered connective, name ≠ own)
    (present : List Name) :
    gatherOperands own connective present additions =
      (additions.flatMap (Node.offered connective)).foldl appendNew
        present := by
  unfold gatherOperands
  induction additions generalizing present with
  | nil => rfl
  | cons addition additions inductionHypothesis =>
      rw [List.foldl_cons, List.flatMap_cons, List.foldl_append,
        inductionHypothesis
          (fun other member => named other (List.mem_cons_of_mem _ member))
          (fun other member => others other (List.mem_cons_of_mem _ member))]
      refine congrArg (List.foldl appendNew · _) ?_
      have offers := others addition List.mem_cons_self
      unfold extendOperands
      rw [if_neg (named addition List.mem_cons_self)]
      cases flattened : addition.operandsUnder? connective with
      | some names =>
          rw [Node.offered, flattened, Option.getD_some] at offers ⊢
          exact foldl_appendOperand_of_ne offers present
      | none =>
          rw [Node.offered, flattened, Option.getD_none] at offers ⊢
          exact appendOperand_of_ne
            (offers _ (List.mem_singleton_self addition.name)) present

theorem foldl_appendNew_of_nodup
    {present names : List Name} (distinct : (present ++ names).Nodup) :
    names.foldl appendNew present = present ++ names := by
  induction names generalizing present with
  | nil => exact (List.append_nil present).symm
  | cons name names inductionHypothesis =>
      have fresh : name ∉ present := by
        intro member
        exact (List.nodup_append.mp distinct).2.2 name member name
          List.mem_cons_self rfl
      have step : appendNew present name = present ++ [name] := by
        simp [appendNew, fresh]
      rw [List.foldl_cons, step, inductionHypothesis (by simpa using distinct),
        List.append_assoc]
      rfl

theorem mem_foldl_appendNew
    {present names : List Name} {name : Name} :
    name ∈ names.foldl appendNew present ↔
      name ∈ present ∨ name ∈ names := by
  induction names generalizing present with
  | nil => simp
  | cons head names inductionHypothesis =>
      rw [List.foldl_cons, inductionHypothesis, appendNew]
      split
      · rename_i contained
        have member : head ∈ present := by simpa using contained
        constructor
        · rintro (old | later)
          · exact Or.inl old
          · exact Or.inr (List.mem_cons_of_mem _ later)
        · rintro (old | new)
          · exact Or.inl old
          · rcases List.mem_cons.mp new with rfl | later
            · exact Or.inl member
            · exact Or.inr later
      · simp [or_assoc]

/-- Taking each name once makes no difference to what comparing all pairs
leaves of the formulas named. -/
theorem reduce?_foldl_appendNew
    (connective : Connective) (treeOf : Name → Tree)
    {present names : List Name}
    (normal : ∀ name ∈ present ++ names, (treeOf name).Normal) :
    Pairing.reduce? connective Tree.opposed Tree.alike
        ((names.foldl appendNew present).map treeOf) =
      Pairing.reduce? connective Tree.opposed Tree.alike
        ((present ++ names).map treeOf) := by
  induction names generalizing present with
  | nil => rw [List.foldl_nil, List.append_nil]
  | cons name names inductionHypothesis =>
      rw [List.foldl_cons, appendNew]
      split
      · rename_i contained
        have member : name ∈ present := by simpa using contained
        have normalMap : ∀ tree ∈ present.map treeOf ++
            treeOf name :: names.map treeOf, tree.Normal := by
          intro tree among
          rw [← List.map_cons, ← List.map_append] at among
          obtain ⟨other, otherMember, rfl⟩ := List.mem_map.mp among
          exact normal other otherMember
        rw [inductionHypothesis fun other otherMember =>
            normal other (by
              rcases List.mem_append.mp otherMember with old | later
              · exact List.mem_append_left _ old
              · exact List.mem_append_right _
                  (List.mem_cons_of_mem _ later)),
          List.map_append, List.map_append, List.map_cons]
        exact (Tree.reduce?_normal_append_cons_of_mem connective normalMap
          (List.mem_map_of_mem member)).symm
      · rw [inductionHypothesis (by simpa using normal), List.append_assoc]
        rfl

namespace Registry

/-! ## The trees gathered -/

section Gathered

variable {registry : Registry} {levels : Nat}

/-- The names offered stand for what the tree contributes. -/
theorem Presents.map_offered
    {key : Key} {tree : Tree} {node : Node}
    (presents : registry.Presents .named levels key tree)
    (stored : registry.node? key = some node) (normal : tree.Normal)
    (connective : Connective) :
    (node.offered connective).map (registry.nameTree levels) =
      tree.contributed connective := by
  obtain ⟨_, shape⟩ := presents.nameTree_eq stored
  obtain rfl := presents.unfold_eq stored
  unfold Node.offered
  cases flattened : node.operandsUnder? connective with
  | some names =>
      have body := operandsUnder?_eq_some_iff.mp flattened
      obtain ⟨joined, _⟩ := exists_operands_of_junction body normal
      rw [joined, Tree.contributed, if_pos rfl, Option.getD_some]
  | none =>
      cases levels with
      | zero => cases normal
      | succ levels =>
          have whole : (registry.unfold (levels + 1) node).joins connective =
              (node.operandsUnder? connective).isSome :=
            joins_unfold levels node connective
          rw [flattened] at whole
          rw [Tree.contributed_of_not_joins whole, Option.getD_none,
            List.map_singleton, shape]

theorem map_flatMap_offered
    {operands : List Key} {trees : List Tree} {additions : List Node}
    (presents : List.Forall₂ (registry.Presents .named levels) operands
      trees)
    (stored : operands.map registry.node? = additions.map some)
    (normal : ∀ tree ∈ trees, tree.Normal) (connective : Connective) :
    (additions.flatMap (Node.offered connective)).map
        (registry.nameTree levels) =
      trees.flatMap (Tree.contributed connective) := by
  induction presents generalizing additions with
  | nil =>
      obtain rfl : additions = [] := by simpa using stored.symm
      rfl
  | @cons operand tree operands trees head _ inductionHypothesis =>
      obtain _ | ⟨addition, additions⟩ := additions
      · simp at stored
      rw [List.map_cons, List.map_cons, List.cons.injEq] at stored
      obtain ⟨found, rest⟩ := stored
      rw [List.flatMap_cons, List.flatMap_cons, List.map_append,
        head.map_offered found (normal tree List.mem_cons_self),
        inductionHypothesis rest fun other member =>
          normal other (List.mem_cons_of_mem _ member)]

theorem bound_of_mem_additions
    {operands : List Key} {trees : List Tree} {additions : List Node}
    (presents : List.Forall₂ (registry.Presents .named levels) operands
      trees)
    (stored : operands.map registry.node? = additions.map some)
    {addition : Node} (member : addition ∈ additions) :
    registry.binding addition.name ≠ none := by
  obtain ⟨operand, present, found⟩ := (mem_additions_iff stored).mp member
  obtain ⟨shown, _⟩ := presents_of_mem presents present
  rw [(shown.nameTree_eq found).1]
  exact Option.some_ne_none operand

end Gathered

/-- The junction of formulas that only offer bound names takes these, each
once. -/
theorem WellFormed.adds_gathered
    {before after : Registry} (wellFormed : before.WellFormed)
    {connective : Connective} {operands : List Key} {key : Key}
    (run : before.Yields (junction connective operands) key after)
    {additions : List Node}
    (stored : operands.map before.node? = additions.map some)
    (named : ∀ addition ∈ additions, before.binding addition.name ≠ none)
    (offered : ∀ addition ∈ additions,
      ∀ name ∈ addition.offered connective, before.binding name ≠ none) :
    ∃ node : Node, before.Adds after key node ∧
      node.body = .junction connective
        ((additions.flatMap (Node.offered connective)).foldl
          appendNew []) := by
  obtain ⟨_, own, _, again, added⟩ :=
    yields_junction wellFormed connective stored
  obtain ⟨rfl, rfl⟩ := run.unique again
  refine ⟨_, added, ?_⟩
  rw [gatherOperands_eq]
  · rintro addition member rfl
    exact named addition member added.unbound
  · rintro addition member name among rfl
    exact offered addition member name among added.unbound

/-- The junction of formulas with normal trees takes the names they offer, each
once, and is bound to a new name. -/
theorem WellFormed.exists_gathered
    {before after : Registry} (wellFormed : before.WellFormed)
    {connective : Connective} {operands : List Key} {key : Key}
    (run : before.Yields (junction connective operands) key after)
    {levels : Nat} {trees : List Tree}
    (presents : List.Forall₂ (before.Presents .named levels) operands trees)
    (normal : ∀ tree ∈ trees, tree.Normal) :
    ∃ names : List Name, ∃ node : Node,
      after.WellFormed ∧ before.Extends after ∧
        after.node? key = some node ∧
        after.binding node.name = some key ∧
        node.body = .junction connective (names.foldl appendNew []) ∧
        names.map (after.nameTree levels) =
          trees.flatMap (Tree.contributed connective) := by
  obtain ⟨additions, stored⟩ := additions_of_yields run
  have shapes := map_flatMap_offered presents stored normal connective
  have resolved : ∀ name ∈ additions.flatMap (Node.offered connective),
      (before.nameTree levels name).Resolved := by
    intro name member
    have among := List.mem_map_of_mem (f := before.nameTree levels) member
    rw [shapes] at among
    exact (Tree.normal_of_mem_flatMap_contributed normal among).1.resolved
  obtain ⟨node, added, body⟩ := wellFormed.adds_gathered run stored
    (fun addition member => bound_of_mem_additions presents stored member)
    (fun addition member name among => binding_ne_none_of_resolved <|
      resolved name (List.mem_flatMap.mpr ⟨addition, member, among⟩))
  refine ⟨additions.flatMap (Node.offered connective), node,
    added.wellFormed, added.extension, added.stored, added.bound, body, ?_⟩
  rw [← shapes]
  refine List.map_congr_left fun name member => ?_
  exact nameTree_eq_of_extends wellFormed added.wellFormed added.extension
    (resolved name member)

/-- If the trees make up a normal junction, it takes the names that stand for
them. -/
theorem WellFormed.exists_gathered_of_irreducible
    {before after : Registry} (wellFormed : before.WellFormed)
    {connective : Connective} {operands : List Key} {key : Key}
    (run : before.Yields (junction connective operands) key after)
    {levels : Nat} {trees : List Tree}
    (presents : List.Forall₂ (before.Presents .named levels) operands trees)
    (irreducible : Tree.Irreducible connective trees)
    (normal : ∀ tree ∈ trees, tree.Normal) :
    ∃ names : List Name, ∃ node : Node,
      after.WellFormed ∧ before.Extends after ∧
        after.node? key = some node ∧
        after.binding node.name = some key ∧
        node.body = .junction connective names ∧
        names.map (after.nameTree levels) = trees := by
  obtain ⟨names, node, afterWellFormed, extension, stored, bound, body,
    shapes⟩ := wellFormed.exists_gathered run presents normal
  rw [Tree.flatMap_contributed_of_not_joins irreducible.flat] at shapes
  -- Equal names would stand for trees that are alike.
  have treesDistinct : trees.Nodup := by
    refine irreducible.distinct.imp_of_mem ?_
    rintro tree _ member _ apart rfl
    exact apart (normal tree member).alike_refl
  have distinct : names.Nodup := by
    rw [← shapes] at treesDistinct
    exact treesDistinct.of_map _
  rw [foldl_appendNew_of_nodup (by simpa using distinct),
    List.nil_append] at body
  exact ⟨names, node, afterWellFormed, extension, stored, bound, body,
    shapes⟩

end Registry

end NamedLogic
