import NamedLogic.Proofs.ClassicalValues
import NamedLogic.Proofs.MintermRuns
import NamedLogic.Proofs.Representation
import NamedLogic.Proofs.Simulation

/-!
# Building disjunctive normal forms

After every round of the loop the disjunction has the minterms of the rows so
far.  A disjunctive normal form is therefore stored with the simplification of
the disjunction of the minterms of its rows.
-/

namespace NamedLogic

/-- A name that is neither a junction's own nor one of its operands is added at
the end. -/
theorem extendOperands_of_new
    {own : Name} {connective : Connective} {present : List Name}
    {addition : Node} (other : addition.name ≠ own)
    (whole : addition.operandsUnder? connective = none)
    (new : addition.name ∉ present) :
    (extendOperands own connective present addition).2 =
      present ++ [addition.name] := by
  rw [extendOperands, if_neg other, whole, appendOperand, if_neg other,
    if_neg (by simpa using new)]

namespace Registry

/-! ## The loop -/

/-- The second registry holds a disjunction stored since the first.  Its
operands are the minterms of some rows, in order. -/
structure Gathers
    (before registry : Registry) (disjunction : Key) (name : Name)
    (present : List Name) (strings : List String) (rows : List Nat) :
    Prop where
  added : before.Adds registry disjunction
    { name, owner := none, body := .junction .disjunction present }
  shapes : present.map (registry.nameTree 3) =
    rows.map (Tree.minterm strings)

namespace Gathers

variable {before registry after : Registry} {disjunction : Key}
  {name : Name} {present : List Name} {strings : List String}
  {rows : List Nat}

theorem exists_row
    (gathers :
      before.Gathers registry disjunction name present strings rows)
    {operand : Name} (member : operand ∈ present) :
    ∃ row, registry.nameTree 3 operand = Tree.minterm strings row := by
  have among := List.mem_map_of_mem (f := registry.nameTree 3) member
  rw [gathers.shapes] at among
  obtain ⟨row, _, same⟩ := List.mem_map.mp among
  exact ⟨row, same.symm⟩

/-- The disjunction presents the disjunction of the minterms. -/
theorem presents
    (gathers :
      before.Gathers registry disjunction name present strings rows) :
    registry.Presents .named 4 disjunction
      (.junction .disjunction (rows.map (Tree.minterm strings))) := by
  refine ⟨⟨_, gathers.added.stored, ?_⟩,
    fun _ => ⟨_, gathers.added.stored, gathers.added.bound⟩⟩
  rw [unfold_junction rfl, gathers.shapes]

section Step

variable (normal : ∀ row, (Tree.minterm strings row).Normal)
  (gathers : before.Gathers registry disjunction name present strings rows)

include normal gathers

theorem of_extends
    (afterWellFormed : after.WellFormed)
    (extension : registry.Extends after) :
    before.Gathers after disjunction name present strings rows where
  added := gathers.added.of_grows fun _ => ⟨afterWellFormed, extension⟩
  shapes := by
    rw [← gathers.shapes]
    refine List.map_congr_left fun operand member => ?_
    obtain ⟨row, same⟩ := gathers.exists_row member
    exact nameTree_eq_of_extends gathers.added.wellFormed afterWellFormed
      extension (same ▸ (normal row).resolved)

/-- The operands of the disjunction are bound. -/
theorem bound
    {operand : Name} (member : operand ∈ present) :
    registry.binding operand ≠ none := by
  obtain ⟨row, same⟩ := gathers.exists_row member
  exact binding_ne_none_of_resolved (same ▸ (normal row).resolved)

/-- A minterm just stored is added at the end of the disjunction. -/
theorem exists_yields_addOperand
    {minterm : Key} {own : Name} {names : List Name} {row : Nat}
    (stored : registry.Adds after minterm
      { name := own, owner := none, body := .junction .conjunction names })
    (shape : after.nameTree 3 own = Tree.minterm strings row) :
    ∃ outcome final,
      after.Yields (addOperand disjunction minterm) outcome final ∧
        before.Gathers final disjunction name (present ++ [own]) strings
          (rows ++ [row]) := by
  have still :=
    gathers.of_extends normal stored.wellFormed stored.extension
  have other : own ≠ name := by
    rintro rfl
    have bound := gathers.added.bound
    rw [stored.unbound] at bound
    cases bound
  have new : own ∉ present := fun member =>
    gathers.bound normal member stored.unbound
  have extended :
      (extendOperands name .disjunction present
        { name := own, owner := none,
          body := .junction .conjunction names }).2 = present ++ [own] :=
    extendOperands_of_new other rfl new
  have run := yields_addOperand still.added.stored rfl stored.stored
  have filled := still.added.replace
    { name, owner := none,
      body := .junction .disjunction (present ++ [own]) } rfl
  rw [extended] at run
  refine ⟨_, _, run, filled ?_, ?_⟩
  · rw [← extended]
    exact stored.wellFormed.admits_extendOperands stored.stored
      (stored.wellFormed.admits still.added.stored)
  · -- No minterm contains a disjunction, so that all of them are kept.
    have shapes : (present ++ [own]).map (after.nameTree 3) =
        (rows ++ [row]).map (Tree.minterm strings) := by
      rw [List.map_append, List.map_append, still.shapes, List.map_singleton,
        List.map_singleton, shape]
    rw [← shapes]
    refine List.map_congr_left fun operand member => ?_
    have among := List.mem_map_of_mem (f := after.nameTree 3) member
    rw [shapes] at among
    obtain ⟨earlier, _, same⟩ := List.mem_map.mp among
    refine nameTree_replace still.added.stored rfl _
      (fun node => unfold_replace still.added.stored rfl _) ?_ ?_
    · exact same ▸ (normal earlier).negationNormal
    · exact same ▸ Tree.avoids_minterm strings earlier

end Step

end Gathers

section Loop

variable {before : Registry} {disjunction : Key} {name : Name}
  {atoms : List Key} {strings : List String}
  (wellFormed : before.WellFormed)
  (presents : before.PresentsAtoms atoms strings)
  (distinct : strings.Nodup) (several : 2 ≤ strings.length)

include wellFormed presents distinct several

/-- One round adds the minterm of its row. -/
theorem exists_yields_addMinterm
    {registry : Registry} {present : List Name} {rows : List Nat}
    (gathers :
      before.Gathers registry disjunction name present strings rows)
    (row : Nat) :
    ∃ own after,
      registry.Yields (addMinterm disjunction atoms row) PUnit.unit after ∧
        before.Gathers after disjunction name (present ++ [own]) strings
          (rows ++ [row]) := by
  have normal := Tree.normal_minterm distinct several
  have added := gathers.added
  obtain ⟨literals, second, literalRun, secondWellFormed, first, shown⟩ :=
    added.wellFormed.exists_yields_rowLiterals row
      (presents.of_extends wellFormed added.wellFormed added.extension) 0
  obtain ⟨minterm, own, names, third, mintermRun, stored, shapes⟩ :=
    secondWellFormed.exists_yields_junction shown
      (Tree.irreducible_minterm distinct several row)
      fun _ member => (Tree.minterm_flat row member).1
  have shape : third.nameTree 3 own = Tree.minterm strings row := by
    have stands := (referent?_eq_some_iff own _).mpr
      ⟨minterm, stored.bound, stored.stored⟩
    rw [nameTree_of_referent stands, unfold_junction rfl, shapes]
    rfl
  obtain ⟨_, final, addRun, gathersMore⟩ :=
    (gathers.of_extends normal secondWellFormed first).exists_yields_addOperand
      normal stored shape
  exact ⟨own, final, literalRun.bind (mintermRun.bind (addRun.bind
    (yields_pure_iff.mpr ⟨rfl, rfl⟩))), gathersMore⟩

/-- All rounds together add the minterms of all rows. -/
theorem exists_yields_addMinterms
    {registry : Registry} {present : List Name} {rows : List Nat}
    (gathers :
      before.Gathers registry disjunction name present strings rows)
    (more : List Nat) :
    ∃ names after,
      registry.Yields (addMinterms disjunction atoms more) PUnit.unit
          after ∧
        before.Gathers after disjunction name names strings
          (rows ++ more) := by
  induction more generalizing registry present rows with
  | nil =>
      rw [List.append_nil]
      exact ⟨present, registry, yields_pure_iff.mpr ⟨rfl, rfl⟩, gathers⟩
  | cons row more inductionHypothesis =>
      obtain ⟨own, middle, first, gathersOne⟩ :=
        exists_yields_addMinterm wellFormed presents distinct several gathers
          row
      obtain ⟨names, after, rest, gathersAll⟩ :=
        inductionHypothesis gathersOne
      rw [List.append_assoc] at gathersAll
      exact ⟨names, after, first.bind rest, gathersAll⟩

/-- The formula generated for a set of rows shows the simplification of the
disjunction of their minterms. -/
theorem exists_yields_minterms
    (deep : 4 ≤ before.levels 1) {rows : List Nat}
    (inhabited : rows ≠ []) :
    ∃ formula after tree,
      before.Yields (minterms atoms rows) (some formula) after ∧
        after.WellFormed ∧ before.Extends after ∧
        after.Shows (before.levels 1) formula tree ∧
        (Tree.junction .disjunction
          (rows.map (Tree.minterm strings))).simplify = some tree := by
  obtain ⟨disjunction, name, second, firstRun, added⟩ :=
    exists_filling wellFormed
  have empty :
      before.Gathers second disjunction name [] strings [] := ⟨added, rfl⟩
  obtain ⟨names, third, loopRun, gathers⟩ := exists_yields_addMinterms
    wellFormed presents distinct several empty rows
  rw [List.nil_append] at gathers
  have negationNormal :=
    Tree.negationNormal_minterms distinct several rows
  have same : third.levels 1 = before.levels 1 :=
    gathers.added.extension.levels_eq 1
  have enough : 4 ≤ third.levels 1 := same ▸ deep
  have deeper := gathers.presents.more negationNormal.settled
    (Nat.le_succ_of_le enough)
  obtain ⟨result, after, run, afterWellFormed, growth, outcome⟩ :=
    gathers.added.wellFormed.exists_yields_simplifyWithin
      (by simp [levels]) deeper negationNormal
      (negationNormal.tiers_le_height.trans
        ((Tree.height_minterms_le rows).trans enough))
  obtain ⟨tree, simplified, treeLow, _⟩ :=
    Tree.exists_simplify_minterms distinct several inhabited
  rw [simplified] at outcome
  cases outcome with
  | some shown =>
      obtain ⟨⟨node, stored, shape⟩, _⟩ := shown
      have treeNormal := Tree.normal_of_simplify simplified
      rw [← shape] at treeLow
      have shownShallow := unfold_eq_of_height_le
        (shape ▸ treeNormal.settled) (treeLow.trans enough)
      refine ⟨_, after, tree,
        firstRun.bind (loopRun.bind ((yields_get third).bind run)),
        afterWellFormed, gathers.added.extension.trans growth,
        ⟨node, stored, ?_⟩, simplified⟩
      rw [← same, shownShallow, shape]

end Loop

end Registry

end NamedLogic
