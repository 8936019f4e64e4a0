import NamedLogic.Registry.References
import NamedLogic.Proofs.BoundedDescent
import Mathlib.Data.List.TakeWhile

/-!
# Names that refer to themselves

The names listed as cyclic are exactly those that refer to themselves, directly
or through others.  The search that finds them follows references from a frontier
and spends a unit of fuel on each name not met before, so that it cannot run out
of fuel before all the names there are have been met.
-/

namespace NamedLogic

/-! ## Ascending lists -/

section Ascending

variable {α : Type} [LT α] [DecidableLT α]
  (trichotomy : ∀ {first second : α}, ¬ first < second → ¬ second < first →
    first = second)

include trichotomy

theorem mem_insertAscending
    {element other : α} {elements : List α} :
    other ∈ insertAscending element elements ↔
      other = element ∨ other ∈ elements := by
  induction elements with
  | nil => simp [insertAscending]
  | cons head tail inductionHypothesis =>
      rw [insertAscending]
      split
      · simp
      · rename_i notBelow
        split
        · simp only [List.mem_cons, inductionHypothesis]
          exact or_left_comm
        · rename_i notAbove
          obtain rfl := trichotomy notBelow notAbove
          simp

theorem mem_ascending {element : α} {elements : List α} :
    element ∈ ascending elements ↔ element ∈ elements := by
  induction elements with
  | nil => rfl
  | cons head tail inductionHypothesis =>
      rw [ascending, List.foldr_cons, mem_insertAscending trichotomy,
        ← ascending, inductionHypothesis, List.mem_cons]

end Ascending

/-! ## The search -/

section Search

variable {references : Name → List Name} {frontier met : List Name}

/-- The search ends if everything ahead was met.  Otherwise it goes on with the
first name ahead that was not. -/
theorem explore_succ
    (references : Name → List Name) (fuel : Nat) (frontier met : List Name) :
    frontier ⊆ met ∧ explore references (fuel + 1) frontier met = met ∨
      ∃ next rest, next ∉ met ∧ next :: rest ⊆ frontier ∧
        (∀ name ∈ frontier, name ∈ met ∨ name ∈ next :: rest) ∧
        explore references (fuel + 1) frontier met =
          explore references fuel (references next ++ rest) (next :: met) := by
  rw [explore]
  cases unmet : frontier.dropWhile met.contains with
  | nil =>
      refine Or.inl ⟨fun name ahead => ?_, rfl⟩
      exact List.contains_iff_mem.mp
        (List.dropWhile_eq_nil_iff.mp unmet name ahead)
  | cons next rest =>
      refine Or.inr ⟨next, rest, ?_, ?_, ?_, rfl⟩
      · have first := List.head?_dropWhile_not met.contains frontier
        rw [unmet] at first
        simpa using first
      · exact unmet ▸ (List.dropWhile_sublist _).subset
      · intro name ahead
        rw [← List.takeWhile_append_dropWhile (p := met.contains)
          (l := frontier), unmet, List.mem_append] at ahead
        exact ahead.imp_left fun taken =>
          List.contains_iff_mem.mp (List.mem_takeWhile_imp taken)

/-- Whatever the search meets is come to from the frontier. -/
theorem reached_of_mem_explore
    {fuel : Nat} {name : Name}
    (found : name ∈ explore references fuel frontier met) :
    name ∈ met ∨ ∃ start ∈ frontier,
      Relation.ReflTransGen (fun name reference =>
        reference ∈ references name) start name := by
  induction fuel generalizing frontier met with
  | zero => exact Or.inl found
  | succ fuel inductionHypothesis =>
      rcases explore_succ references fuel frontier met with
        ⟨_, same⟩ | ⟨next, rest, _, ahead, _, same⟩
      · exact Or.inl (same ▸ found)
      · rw [same] at found
        obtain ⟨nextAhead, restAhead⟩ := List.cons_subset.mp ahead
        rcases inductionHypothesis found with early | ⟨start, there, path⟩
        · rcases List.mem_cons.mp early with rfl | before
          · exact Or.inr ⟨name, nextAhead, .refl⟩
          · exact Or.inl before
        · rcases List.mem_append.mp there with referred | later
          · exact Or.inr ⟨next, nextAhead, .head referred path⟩
          · exact Or.inr ⟨start, restAhead later, path⟩

/-- A search among the given names.  References of names met are met or ahead. -/
structure Searching
    (references : Name → List Name) (names frontier met : List Name) :
    Prop where
  distinct : met.Nodup
  metInside : met ⊆ names
  frontierInside : frontier ⊆ names
  followed : ∀ name ∈ met, ∀ reference ∈ references name,
    reference ∈ met ∨ reference ∈ frontier

theorem Searching.next
    {names : List Name}
    (searching : Searching references names frontier met)
    (inside : ∀ name ∈ names, references name ⊆ names)
    {next : Name} {rest : List Name} (new : next ∉ met)
    (ahead : next :: rest ⊆ frontier)
    (covered : ∀ name ∈ frontier, name ∈ met ∨ name ∈ next :: rest) :
    Searching references names (references next ++ rest) (next :: met) := by
  have there := searching.frontierInside (ahead List.mem_cons_self)
  refine ⟨List.nodup_cons.mpr ⟨new, searching.distinct⟩,
    List.cons_subset.mpr ⟨there, searching.metInside⟩, ?_, ?_⟩
  · refine List.append_subset.mpr ⟨inside next there, fun name later => ?_⟩
    exact searching.frontierInside (ahead (List.mem_cons_of_mem _ later))
  · intro name before reference referred
    rcases List.mem_cons.mp before with rfl | before
    · exact Or.inr (List.mem_append_left _ referred)
    · have kept := (searching.followed name before reference referred).elim
        Or.inl (covered reference)
      simp only [List.mem_cons, List.mem_append] at kept ⊢
      tauto

theorem Searching.closed
    {names : List Name}
    (searching : Searching references names frontier met)
    (ahead : frontier ⊆ met) {name : Name} (before : name ∈ met) :
    references name ⊆ met :=
  fun reference referred =>
    (searching.followed name before reference referred).elim id
      fun later => ahead later

/-- The induction is on the fuel, of which there is enough for all names not
met. -/
theorem Searching.closed_explore
    {names : List Name}
    (searching : Searching references names frontier met)
    (inside : ∀ name ∈ names, references name ⊆ names)
    {fuel : Nat} (enough : names.length ≤ fuel + met.length) :
    frontier ++ met ⊆ explore references fuel frontier met ∧
      ∀ name ∈ explore references fuel frontier met,
        references name ⊆ explore references fuel frontier met := by
  induction fuel generalizing frontier met with
  | zero =>
      -- As many distinct names are met as there are.
      have all : names ⊆ met :=
        ((searching.distinct.subperm searching.metInside).perm_of_length_le
          (by omega)).symm.subset
      have ahead : frontier ⊆ met := fun name later =>
        all (searching.frontierInside later)
      exact ⟨List.append_subset.mpr ⟨ahead, List.Subset.refl met⟩,
        fun _ => searching.closed ahead⟩
  | succ fuel inductionHypothesis =>
      rcases explore_succ references fuel frontier met with
        ⟨ahead, same⟩ | ⟨next, rest, new, ahead, covered, same⟩
      · rw [same]
        exact ⟨List.append_subset.mpr ⟨ahead, List.Subset.refl met⟩,
          fun _ => searching.closed ahead⟩
      · rw [same]
        obtain ⟨reached, closed⟩ := inductionHypothesis
          (searching.next inside new ahead covered)
          (by rw [List.length_cons]; omega)
        refine ⟨fun name later => reached ?_, closed⟩
        have kept : name ∈ met ∨ name ∈ next :: rest :=
          (List.mem_append.mp later).elim (covered name) Or.inl
        simp only [List.mem_cons, List.mem_append] at kept ⊢
        tauto

end Search

/-! ## Names and what they refer to -/

/-- The names looked up are among those referred to. -/
theorem Node.mem_references
    {node : Node} {name : Name} (named : name ∈ node.lookups) :
    name ∈ node.references := by
  cases body : node.body with
  | dnf => simp [lookups, body] at named
  | _ => simpa [lookups, references, body] using named

namespace Registry

variable {registry : Registry}

/-- A name refers to another. -/
def Refers (registry : Registry) (name reference : Name) : Prop :=
  reference ∈ registry.referencesOf name

theorem refers_iff {name reference : Name} :
    registry.Refers name reference ↔
      ∃ node, registry.referent? name = some node ∧
        reference ∈ node.references := by
  rw [Refers, referencesOf]
  cases registry.referent? name <;> simp

theorem mem_standing_iff {name : Name} :
    name ∈ registry.standing ↔
      ∃ node, registry.referent? name = some node := by
  rw [standing, List.mem_filter, List.mem_range, Option.isSome_iff_exists]
  refine and_iff_right_of_imp ?_
  rintro ⟨node, stands⟩
  obtain ⟨key, bound, _⟩ := (referent?_eq_some_iff name node).mp stands
  exact name_lt_of_binding bound

theorem mem_ascending_names {name : Name} {names : List Name} :
    name ∈ ascending names ↔ name ∈ names :=
  mem_ascending fun notBelow notAbove =>
    Nat.le_antisymm (Nat.not_lt.mp notAbove) (Nat.not_lt.mp notBelow)

/-- References lead to names among the nodes of the graph. -/
theorem referencesOf_subset (name : Name) :
    registry.referencesOf name ⊆ registry.referenceNodes := by
  intro reference referred
  obtain ⟨node, stands, _⟩ := refers_iff.mp referred
  refine mem_ascending_names.mpr (List.mem_append_right _ ?_)
  exact List.mem_flatMap.mpr
    ⟨name, mem_standing_iff.mpr ⟨node, stands⟩, referred⟩

theorem mem_reachedFrom_iff {name reached : Name} :
    reached ∈ registry.reachedFrom registry.referenceNodes.length name ↔
      Relation.TransGen registry.Refers name reached := by
  rw [Relation.TransGen.head'_iff]
  constructor
  · intro found
    rcases reached_of_mem_explore found with none | ⟨start, referred, path⟩
    · cases none
    · exact ⟨start, referred, path⟩
  · rintro ⟨start, referred, path⟩
    have searching : Searching registry.referencesOf registry.referenceNodes
        (registry.referencesOf name) [] :=
      ⟨List.nodup_nil, List.nil_subset _, referencesOf_subset name, nofun⟩
    obtain ⟨ahead, closed⟩ := searching.closed_explore
      (fun name _ => referencesOf_subset name) (Nat.le_add_right _ _)
    induction path with
    | refl => exact ahead (List.mem_append_left _ referred)
    | tail _ step inductionHypothesis =>
        exact closed _ inductionHypothesis step

/-- The strings listed as cyclic are those of the names that refer to themselves,
directly or through others. -/
theorem mem_cyclicNames_iff {string : String} :
    string ∈ registry.cyclicNames ↔
      ∃ name, Relation.TransGen registry.Refers name name ∧
        registry.string name = string := by
  have trichotomy : ∀ {first second : String}, ¬ first < second →
      ¬ second < first → first = second := fun notBelow notAbove =>
    String.le_antisymm (String.not_lt.mp notAbove) (String.not_lt.mp notBelow)
  simp only [cyclicNames, mem_ascending trichotomy, List.mem_map,
    List.mem_filter, List.contains_iff_mem, mem_reachedFrom_iff]
  refine exists_congr fun name => and_congr_left fun _ => ?_
  refine and_iff_right_of_imp fun cyclic => mem_standing_iff.mpr ?_
  obtain ⟨_, refers, _⟩ := Relation.TransGen.head'_iff.mp cyclic
  obtain ⟨node, stands, _⟩ := refers_iff.mp refers
  exact ⟨node, stands⟩

theorem cyclicNames_eq_nil_iff :
    registry.cyclicNames = [] ↔
      ∀ name, ¬ Relation.TransGen registry.Refers name name := by
  rw [List.eq_nil_iff_forall_not_mem]
  constructor
  · exact fun none name cyclic =>
      none _ (mem_cyclicNames_iff.mpr ⟨name, cyclic, rfl⟩)
  · intro none string listed
    obtain ⟨name, cyclic, _⟩ := mem_cyclicNames_iff.mp listed
    exact none name cyclic

/-! ## Nodes and the names between them -/

/-- One step along a name that a node looks up. -/
def LooksUp (registry : Registry) (node next : Node) : Prop :=
  ∃ name ∈ node.lookups, registry.referent? name = some next

section LooksUp

variable {node next : Node}

theorem LooksUp.of_extends
    {before after : Registry} (step : before.LooksUp node next)
    (extension : before.Extends after) : after.LooksUp node next := by
  obtain ⟨name, named, stands⟩ := step
  exact ⟨name, named, extension.referent? stands⟩

theorem LooksUp.descends (step : registry.LooksUp node next) :
    registry.Descends node next := by
  obtain ⟨name, named, stands⟩ := step
  exact .operand named stands

/-- The names along a path of nodes refer to each other. -/
theorem exists_refers_of_looksUp
    (path : Relation.ReflTransGen registry.LooksUp node next) {name : Name}
    (stands : registry.referent? name = some node) :
    ∃ reached, registry.referent? reached = some next ∧
      Relation.ReflTransGen registry.Refers name reached := by
  induction path with
  | refl => exact ⟨name, stands, .refl⟩
  | tail _ step inductionHypothesis =>
      have ⟨middle, middleStands, refers⟩ := inductionHypothesis
      have ⟨reached, named, reachedStands⟩ := step
      refine ⟨reached, reachedStands, refers.tail ?_⟩
      exact refers_iff.mpr ⟨_, middleStands, Node.mem_references named⟩

/-- If no name is listed as cyclic, no node comes back to itself along the names
that are looked up. -/
theorem not_looksUp_returns
    (acyclic : registry.cyclicNames = []) :
    ¬ Relation.TransGen registry.LooksUp node node := by
  intro returns
  have ⟨next, ⟨name, named, stands⟩, path⟩ :=
    Relation.TransGen.head'_iff.mp returns
  have ⟨last, lastStands, refers⟩ := exists_refers_of_looksUp path stands
  have back : registry.Refers last name :=
    refers_iff.mpr ⟨node, lastStands, Node.mem_references named⟩
  exact cyclicNames_eq_nil_iff.mp acyclic name
    (Relation.TransGen.tail' refers back)

end LooksUp

end Registry

end NamedLogic
