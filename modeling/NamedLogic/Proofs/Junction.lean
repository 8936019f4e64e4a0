import NamedLogic.Proofs.Formation

/-!
# Filling junctions

A junction is stored empty and then filled with its operands in order.  While
it is being filled only its own node changes, so that the result is again one
new node bound to one new name.
-/

namespace NamedLogic

/-! ## The operands gathered -/

theorem mem_appendOperand
    {own name other : Name} {operands : List Name}
    (member : other ∈ (appendOperand own operands name).2) :
    other ∈ operands ∨ other = name := by
  unfold appendOperand at member
  split at member
  · exact Or.inl member
  · split at member
    · exact Or.inl member
    · rcases List.mem_append.mp member with present | last
      · exact Or.inl present
      · exact Or.inr (List.mem_singleton.mp last)

theorem mem_foldl_appendOperand
    {own other : Name} {names operands : List Name}
    (member : other ∈ names.foldl
      (fun present name => (appendOperand own present name).2) operands) :
    other ∈ operands ∨ other ∈ names := by
  induction names generalizing operands with
  | nil => exact Or.inl member
  | cons head tail inductionHypothesis =>
      rcases inductionHypothesis member with present | later
      · rcases mem_appendOperand present with before | rfl
        · exact Or.inl before
        · exact Or.inr List.mem_cons_self
      · exact Or.inr (List.mem_cons_of_mem _ later)

theorem operandsUnder?_eq_some_iff
    {node : Node} {connective : Connective} {names : List Name} :
    node.operandsUnder? connective = some names ↔
      node.body = .junction connective names := by
  unfold Node.operandsUnder?
  cases node.body with
  | junction inner operands =>
      by_cases same : inner = connective <;> simp [same]
  | _ => simp

/-- Adding a node to a junction adds its name or names it refers to. -/
theorem mem_extendOperands
    {own other : Name} {connective : Connective} {operands : List Name}
    {addition : Node}
    (member :
      other ∈ (extendOperands own connective operands addition).2) :
    other ∈ operands ∨ other = addition.name ∨
      other ∈ addition.references := by
  unfold extendOperands at member
  split at member
  · exact Or.inl member
  · split at member
    · rename_i names flattened
      rw [operandsUnder?_eq_some_iff] at flattened
      rcases mem_foldl_appendOperand member with present | inner
      · exact Or.inl present
      · refine Or.inr (Or.inr ?_)
        simpa [Node.references, flattened, Body.references] using inner
    · exact (mem_appendOperand member).imp_right Or.inl

namespace Registry

/-! ## Adding one operand -/

/-- A junction may be stored if its operands are in the table. -/
theorem admits_junction
    {registry : Registry} (connective : Connective) {operands : List Name}
    (within : ∀ name ∈ operands, name < registry.strings.size) :
    registry.Admits (.junction connective operands) :=
  ⟨within, by simp [Body.generated?]⟩

/-- A stored node may be added to a junction. -/
theorem WellFormed.admits_extendOperands
    {registry : Registry} (wellFormed : registry.WellFormed)
    {key : Key} {addition : Node}
    (stored : registry.node? key = some addition)
    {own : Name} {connective : Connective} {operands : List Name}
    (admits : registry.Admits (.junction connective operands)) :
    registry.Admits (.junction connective
      (extendOperands own connective operands addition).2) := by
  apply admits_junction
  intro name member
  rcases mem_extendOperands member with present | rfl | reference
  · exact admits.references name present
  · exact wellFormed.named stored
  · exact (wellFormed.admits stored).references name reference

theorem yields_addOperand
    {registry : Registry} {junction operand : Key} {target addition : Node}
    {connective : Connective} {operands : List Name}
    (stored : registry.node? junction = some target)
    (body : target.body = .junction connective operands)
    (found : registry.node? operand = some addition) :
    registry.Yields (addOperand junction operand)
      (extendOperands target.name connective operands addition).1
      (registry.replace junction
        { target with
          body := .junction connective
            (extendOperands target.name connective operands addition).2 }) := by
  refine Yields.bind (yields_stored_iff.mpr ⟨found, rfl⟩) ?_
  refine Yields.bind (yields_stored_iff.mpr ⟨stored, rfl⟩) ?_
  rw [body]
  exact Yields.bind (yields_modify _) (yields_pure_iff.mpr ⟨rfl, rfl⟩)

/-- Changing the node just added, but not its name. -/
theorem Adds.replace
    {before after : Registry} {key : Key} {node : Node}
    (added : before.Adds after key node) (changed : Node)
    (named : changed.name = node.name)
    (admits : after.Admits changed.body) :
    before.Adds (after.replace key changed) key changed where
  wellFormed := by
    refine added.wellFormed.replace added.stored ?_ admits ?_
    · rw [named]
      exact added.wellFormed.named added.stored
    intro name bound
    obtain ⟨bearer, stored, bearerNamed⟩ := added.wellFormed.bound bound
    rw [added.stored] at stored
    obtain rfl := Option.some.inj stored
    exact named.trans bearerNamed
  extension := added.extension.replace added.new added.stored changed
  new := added.new
  unbound := named ▸ added.unbound
  stored := by rw [node?_replace added.stored, if_pos rfl]
  bound := named ▸ added.bound

/-! ## Filling a new junction -/

theorem yields_fill
    {before : Registry} {key : Key} {name : Name} {owner : Option Entity}
    {connective : Connective} {operands : List Key} {additions : List Node}
    (stored : operands.map before.node? = additions.map some)
    {registry : Registry} {present : List Name}
    (added : before.Adds registry key
      { name, owner, body := .junction connective present }) :
    ∃ after,
      registry.Yields
        (operands.forM fun operand => do
          let _ ← addOperand key operand)
        PUnit.unit after ∧
      before.Adds after key
        { name, owner,
          body := .junction connective
            (gatherOperands name connective present additions) } := by
  induction operands generalizing additions registry present with
  | nil =>
      obtain rfl : additions = [] := by simpa using stored.symm
      exact ⟨registry, yields_pure_iff.mpr ⟨rfl, rfl⟩, added⟩
  | cons operand operands inductionHypothesis =>
      obtain _ | ⟨addition, additions⟩ := additions
      · simp at stored
      rw [List.map_cons, List.map_cons, List.cons.injEq] at stored
      obtain ⟨found, rest⟩ := stored
      have step := yields_addOperand added.stored rfl
        (added.extension.node? found)
      obtain ⟨after, run, filled⟩ := inductionHypothesis rest <|
        added.replace
          { name, owner,
            body := .junction connective
              (extendOperands name connective present addition).2 }
          rfl
          (added.wellFormed.admits_extendOperands
            (added.extension.node? found)
            (added.wellFormed.admits added.stored))
      refine ⟨after, ?_, filled⟩
      exact Yields.bind
        (Yields.bind step (yields_pure_iff.mpr ⟨rfl, rfl⟩)) run

theorem yields_check
    {registry : Registry} {operands : List Key} {additions : List Node}
    (stored : operands.map registry.node? = additions.map some) :
    registry.Yields
      (operands.forM fun operand => do
        let _ ← Registry.stored operand)
      PUnit.unit registry := by
  induction operands generalizing additions with
  | nil => exact yields_pure_iff.mpr ⟨rfl, rfl⟩
  | cons operand operands inductionHypothesis =>
      obtain _ | ⟨addition, additions⟩ := additions
      · simp at stored
      rw [List.map_cons, List.map_cons, List.cons.injEq] at stored
      exact Yields.bind
        (Yields.bind (yields_stored_iff.mpr ⟨stored.1, rfl⟩)
          (yields_pure_iff.mpr ⟨rfl, rfl⟩))
        (inductionHypothesis stored.2)

/-- The junction of stored operands is one new node, whose operands are
gathered from the nodes in order. -/
theorem yields_junction
    {registry : Registry} (wellFormed : registry.WellFormed)
    (connective : Connective) {operands : List Key} {additions : List Node}
    (stored : operands.map registry.node? = additions.map some) :
    ∃ key name after,
      registry.Yields (junction connective operands) key after ∧
        registry.Adds after key
          { name, owner := none,
            body := .junction connective
              (gatherOperands name connective [] additions) } := by
  have admits : registry.Admits (.junction connective []) :=
    admits_junction connective (by simp)
  obtain ⟨key, name, middle, run, added⟩ :=
    adds_insertFresh wellFormed .compound none admits
  obtain ⟨after, fill, filled⟩ := yields_fill stored added
  refine ⟨key, name, after, ?_, filled⟩
  exact Yields.bind (yields_check stored) <|
    Yields.bind run <|
      Yields.bind fill (yields_pure_iff.mpr ⟨rfl, rfl⟩)

/-- A junction with a missing operand is refused at once. -/
theorem refuses_junction
    {registry : Registry} (connective : Connective) {operands : List Key}
    {missing : Key} (member : missing ∈ operands)
    (absent : registry.node? missing = none) :
    registry.Refuses (junction connective operands) .unknownKey
      registry := by
  apply Refuses.bind
  induction operands with
  | nil => cases member
  | cons operand operands inductionHypothesis =>
      cases found : registry.node? operand with
      | none =>
          exact Refuses.bind (Refuses.bind (refuses_stored found) _) _
      | some addition =>
          have later : missing ∈ operands := by
            rcases List.mem_cons.mp member with rfl | later
            · rw [absent] at found
              cases found
            · exact later
          exact Yields.bind_refuses
            (Yields.bind (yields_stored_iff.mpr ⟨found, rfl⟩)
              (yields_pure_iff.mpr ⟨rfl, rfl⟩))
            (inductionHypothesis later)

/-- The nodes of stored operands, in order. -/
theorem exists_additions
    {registry : Registry} {operands : List Key}
    (stored : ∀ operand ∈ operands, registry.node? operand ≠ none) :
    ∃ additions : List Node,
      operands.map registry.node? = additions.map some := by
  induction operands with
  | nil => exact ⟨[], rfl⟩
  | cons operand operands inductionHypothesis =>
      obtain ⟨additions, rest⟩ := inductionHypothesis fun other member =>
        stored other (List.mem_cons_of_mem _ member)
      obtain ⟨addition, found⟩ := Option.ne_none_iff_exists'.mp
        (stored operand List.mem_cons_self)
      exact ⟨addition :: additions, by simp [found, rest]⟩

theorem mem_additions_iff
    {registry : Registry} {operands : List Key} {additions : List Node}
    (stored : operands.map registry.node? = additions.map some)
    {addition : Node} :
    addition ∈ additions ↔
      ∃ operand ∈ operands, registry.node? operand = some addition := by
  have placed : addition ∈ additions ↔ some addition ∈ additions.map some := by
    simp
  rw [placed, ← stored, List.mem_map]

/-- A junction that was made had all its operands stored. -/
theorem additions_of_yields
    {before after : Registry} {connective : Connective}
    {operands : List Key} {key : Key}
    (run : before.Yields (junction connective operands) key after) :
    ∃ additions : List Node,
      operands.map before.node? = additions.map some := by
  apply exists_additions
  intro operand member absent
  have refused := refuses_junction connective member absent
  rw [Refuses, run] at refused
  cases refused

theorem grows_junction
    (registry : Registry) (connective : Connective) (operands : List Key) :
    registry.Grows (registry.after (junction connective operands)) := by
  intro wellFormed
  by_cases complete :
      ∀ operand ∈ operands, registry.node? operand ≠ none
  · obtain ⟨additions, stored⟩ := exists_additions complete
    obtain ⟨_, _, after, run, added⟩ :=
      yields_junction wellFormed connective stored
    rw [run.after_eq]
    exact added.grows wellFormed
  · push Not at complete
    obtain ⟨missing, member, absent⟩ := complete
    rw [(refuses_junction connective member absent).after_eq]
    exact Grows.refl registry wellFormed

end Registry

end NamedLogic
