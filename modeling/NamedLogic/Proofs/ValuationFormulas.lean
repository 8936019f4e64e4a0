import NamedLogic.World
import NamedLogic.Proofs.GeneratedNames
import NamedLogic.Proofs.NormalFormValues
import NamedLogic.Proofs.Rebinding
import NamedLogic.Proofs.Valuations

/-!
# The formulas of valuations

A valuation selects one row of the truth table over its names, and its formula
is the minterm of that row.  The literals are formed one after the other, and a
literal may be lost on the way: a later name of the valuation may be the very
one that was generated for an earlier negation, and is then taken over by an
atom.
-/

namespace NamedLogic

variable {V : Type} [TruthValue V]

/-! ## The row of a valuation -/

/-- The row of a truth table that the entries of a valuation select. -/
def Valuation.row (entries : List (String × V)) : Nat :=
  Nat.ofBits fun position : Fin entries.length =>
    TruthValue.designated entries[position].2

theorem Valuation.testBit_row
    (entries : List (String × V)) {position : Nat}
    (inside : position < entries.length) :
    (row entries).testBit position =
      TruthValue.designated entries[position].2 :=
  Nat.testBit_ofBits_lt _ _ inside

/-- A state agrees with the row of a valuation if it gives the names values of
the same designation. -/
theorem Valuation.agrees_row_iff
    {entries : List (String × V)} {state : String → Bool} :
    Tree.Agrees state (entries.map Prod.fst) (row entries) ↔
      ∀ entry ∈ entries, state entry.1 = TruthValue.designated entry.2 := by
  constructor
  · intro agrees entry member
    obtain ⟨position, inside, rfl⟩ := List.getElem_of_mem member
    have same := agrees position (by simpa using inside)
    rwa [List.getElem_map, testBit_row entries inside] at same
  · intro designations position inside
    rw [List.length_map] at inside
    rw [List.getElem_map, testBit_row entries inside]
    exact designations _ (List.getElem_mem inside)

namespace Registry

/-! ## Names kept apart -/

/-- No name generated for the negation of an entry is the name of a later entry.
The entries are gone through as their literals are formed. -/
def NamesApart : Registry → List (String × V) → Prop
  | _, [] => True
  | registry, entry :: entries =>
      (TruthValue.designated entry.2 = false →
        ((registry.after (atom entry.1)).generation .compound).string ∉
          entries.map Prod.fst) ∧
      NamesApart (registry.after (Valuation.literal entry)) entries

instance decidableNamesApart :
    (registry : Registry) → (entries : List (String × V)) →
      Decidable (registry.NamesApart entries)
  | _, [] => inferInstanceAs (Decidable True)
  | registry, entry :: entries =>
      have := decidableNamesApart
        (registry.after (Valuation.literal entry)) entries
      inferInstanceAs (Decidable (_ ∧ _))

/-- Names are apart if no name that comes after an undesignated one may still be
generated. -/
theorem Numbered.namesApart
    {registry : Registry} (numbered : registry.Numbered)
    {entries : List (String × V)}
    (apart : entries.Pairwise fun earlier later =>
      TruthValue.designated earlier.2 = false →
        ¬ registry.MayGenerate .compound later.1) :
    registry.NamesApart entries := by
  induction entries generalizing registry with
  | nil => exact trivial
  | cons entry entries inductionHypothesis =>
      obtain ⟨entryApart, apartRest⟩ := List.pairwise_cons.mp apart
      constructor
      · intro undesignated member
        obtain ⟨later, laterMember, same⟩ := List.mem_map.mp member
        have quiet := quiet_atom registry entry.1
        have generated :=
          (quiet.numbered numbered).mayGenerate_freshName .compound
        refine entryApart later laterMember undesignated ?_
        rw [same]
        exact generated.earlier (quiet.stem _) (quiet.counter _).ge
      · obtain ⟨_, generates⟩ := traced_literal entry registry
        have counted := generates.countsUp numbered
        refine inductionHypothesis counted.names (apartRest.imp ?_)
        intro earlier later generatedApart undesignated generated
        exact generatedApart undesignated
          (generated.earlier (counted.stem _) (counted.counter _))

/-- A name of the generated form is not in the way unless it is come to. -/
example :
    (replay []).NamesApart
      (Valuation.ofList [("E", false), ("F9", true)]).entries := by
  decide +kernel

/-! ## Literals -/

section Literals

variable {registry : Registry} (wellFormed : registry.WellFormed)

section Atoms

variable {key : Key} {node : Node} (stored : registry.node? key = some node)
  (body : node.body = .atom) (bound : registry.binding node.name = some key)

include wellFormed stored body bound

/-- A bound atom presents itself for as long as its name is not taken over. -/
theorem WellFormed.presents_atom
    {final : Registry} {taken : String → Prop}
    (later : registry.ExtendsExcept taken final)
    (kept : ¬ taken (registry.string node.name)) (levels : Nat) :
    final.Presents .named (levels + 1) key
      (.atom (registry.string node.name)) := by
  rw [← later.string_eq (wellFormed.named stored)]
  exact ⟨⟨node, later.nodes stored, unfold_atom body levels⟩,
    fun _ => ⟨node, later.nodes stored, later.bindings bound kept⟩⟩

/-- So does its negation, for as long as the generated name is not taken over
either. -/
theorem WellFormed.exists_yields_negatedAtom :
    ∃ negated after,
      registry.Yields (negation key) negated after ∧ after.WellFormed ∧
        registry.Extends after ∧
        ∀ {final : Registry} {taken : String → Prop},
          after.ExtendsExcept taken final →
          ¬ taken (registry.string node.name) →
          ¬ taken (registry.generation .compound).string →
          final.Presents .named 2 negated
            (.negation (.atom (registry.string node.name))) := by
  obtain ⟨negated, name, after, negating, added⟩ :=
    yields_negation wellFormed stored
  have insertion : registry.Yields
      (insertFresh .compound none (.negation node.name)) negated after := by
    obtain ⟨_, _, reading, insertion⟩ := yields_bind_iff.mp negating
    obtain ⟨⟨other, found, rfl⟩, rfl⟩ := yields_operandName_iff.mp reading
    rw [stored] at found
    obtain rfl := Option.some.inj found
    exact insertion
  have generated := string_of_insertFresh insertion added.stored
  refine ⟨negated, after, negating, added.wellFormed, added.extension, ?_⟩
  intro final taken later kept generatedKept
  have atomStored := added.extension.node? stored
  have atomBound := added.extension.bindings bound
  have called : after.string node.name = registry.string node.name :=
    added.extension.string_eq (wellFormed.named stored)
  have stillCalled : final.string node.name = registry.string node.name :=
    (later.string_eq (added.wellFormed.named atomStored)).trans called
  have atomStands : final.referent? node.name = some node :=
    (referent?_eq_some_iff node.name node).mpr
      ⟨key, later.bindings atomBound (called ▸ kept), later.nodes atomStored⟩
  have stillBound : final.binding name = some negated :=
    later.bindings added.bound (generated ▸ generatedKept)
  rw [← stillCalled]
  refine ⟨⟨_, later.nodes added.stored, ?_⟩,
    fun _ => ⟨_, later.nodes added.stored, stillBound⟩⟩
  rw [unfold_negation rfl, nameTree_of_referent atomStands, unfold_atom body]

end Atoms

include wellFormed

/-- A literal is always formed.  It presents its tree, and does so for as long
as neither its own name nor the one generated for it is taken over. -/
theorem WellFormed.exists_yields_literal
    {entry : String × V} (nonempty : entry.1 ≠ "") {row position : Nat}
    (bit : row.testBit position = TruthValue.designated entry.2) :
    ∃ literal after,
      registry.Yields (Valuation.literal entry) literal after ∧
        after.WellFormed ∧
        registry.ExtendsExcept (· = entry.1) after ∧
        ∀ {final : Registry} {taken : String → Prop},
          after.ExtendsExcept taken final → ¬ taken entry.1 →
          (TruthValue.designated entry.2 = false →
            ¬ taken ((registry.after (atom entry.1)).generation
              .compound).string) →
          final.Presents .named 2 literal
            (Tree.rowLiteral row (entry.1, position)) := by
  obtain ⟨string, value⟩ := entry
  obtain ⟨key, node, middle, making, middleWellFormed, extension, stored,
    isAtom, bound, rfl⟩ :=
      wellFormed.exists_yields_atom (by simpa using nonempty)
  have body := Node.body_eq_atom_of_isAtom isAtom
  unfold Valuation.literal Tree.rowLiteral
  rw [making.after_eq]
  cases designated : TruthValue.designated value with
  | true =>
      refine ⟨key, middle, making.bind (yields_pure_iff.mpr ⟨rfl, rfl⟩),
        middleWellFormed, extension, ?_⟩
      intro final taken later kept _
      rw [if_pos (bit.trans designated)]
      exact middleWellFormed.presents_atom stored body bound later kept 1
  | false =>
      obtain ⟨negated, after, negating, afterWellFormed, growth, presents⟩ :=
        middleWellFormed.exists_yields_negatedAtom stored body bound
      refine ⟨negated, after, making.bind negating, afterWellFormed,
        extension.trans wellFormed (growth.except _), ?_⟩
      intro final taken later kept generatedKept
      rw [if_neg (by simp [bit, designated])]
      exact presents later kept (generatedKept rfl)

/-- The literals of distinct names that are kept apart from generated ones
present the literals of the row. -/
theorem WellFormed.exists_yields_literals
    {entries : List (String × V)}
    (nonempty : ∀ entry ∈ entries, entry.1 ≠ "")
    (distinct : (entries.map Prod.fst).Nodup)
    (apart : registry.NamesApart entries) {row start : Nat}
    (bits : ∀ position, ∀ inside : position < entries.length,
      row.testBit (start + position) =
        TruthValue.designated entries[position].2) :
    ∃ literals after,
      registry.Yields (entries.mapM Valuation.literal) literals after ∧
        after.WellFormed ∧
        registry.ExtendsExcept (· ∈ entries.map Prod.fst) after ∧
        List.Forall₂ (after.Presents .named 2) literals
          (((entries.map Prod.fst).zipIdx start).map
            (Tree.rowLiteral row)) := by
  induction entries generalizing registry start with
  | nil =>
      exact ⟨[], registry, yields_pure_iff.mpr ⟨rfl, rfl⟩, wellFormed,
        (Extends.refl registry).except _, .nil⟩
  | cons entry entries inductionHypothesis =>
      obtain ⟨absent, distinctRest⟩ := List.nodup_cons.mp distinct
      obtain ⟨entryApart, apartRest⟩ := apart
      have bit := bits 0 (by simp)
      rw [Nat.add_zero, List.getElem_cons_zero] at bit
      obtain ⟨literal, middle, first, middleWellFormed, extension,
        presented⟩ := wellFormed.exists_yields_literal
          (nonempty entry List.mem_cons_self) bit
      rw [first.after_eq] at apartRest
      have bitsRest : ∀ position, ∀ inside : position < entries.length,
          row.testBit (start + 1 + position) =
            TruthValue.designated entries[position].2 := by
        intro position inside
        have shifted := bits (position + 1) (by simpa using inside)
        rwa [List.getElem_cons_succ,
          show start + (position + 1) = start + 1 + position by omega]
          at shifted
      obtain ⟨literals, after, rest, afterWellFormed, growth, shown⟩ :=
        inductionHypothesis middleWellFormed
          (fun other member => nonempty other
            (List.mem_cons_of_mem _ member))
          distinctRest apartRest bitsRest
      refine ⟨literal :: literals, after, ?_, afterWellFormed, ?_,
        .cons (presented growth absent entryApart) shown⟩
      · rw [List.mapM_cons]
        exact first.bind (rest.bind (yields_pure_iff.mpr ⟨rfl, rfl⟩))
      · refine ExtendsExcept.trans wellFormed (extension.mono ?_)
          (growth.mono fun _ member => List.mem_cons_of_mem _ member)
        rintro _ rfl
        exact List.mem_cons_self

end Literals

/-! ## The formula -/

/-- A valuation is described by a formula with a normal tree, which is true in
the states that agree with the valuation. -/
theorem WellFormed.exists_yields_toFormula
    {registry : Registry} (wellFormed : registry.WellFormed)
    {valuation : Valuation V} (entered : valuation.entries ≠ [])
    (nonempty : ∀ entry ∈ valuation.entries, entry.1 ≠ "")
    (apart : registry.NamesApart valuation.entries) :
    ∃ formula after tree,
      registry.Yields valuation.toFormula (some formula) after ∧
        after.settings = registry.settings ∧
        after.Shows 3 formula tree ∧ tree.Normal ∧
        (∀ literal ∈ tree.literals true,
          literal.1 ∈ valuation.entries.map Prod.fst) ∧
        ∀ state, tree.holds state ↔
          Tree.Agrees state (valuation.entries.map Prod.fst)
            (Valuation.row valuation.entries) := by
  let strings := valuation.entries.map Prod.fst
  let row := Valuation.row valuation.entries
  have distinct : strings.Nodup :=
    List.pairwise_map.mpr
      (valuation.ascending.imp fun before => String.ne_of_lt before)
  have bits : ∀ position, ∀ inside : position < valuation.entries.length,
      row.testBit (0 + position) =
        TruthValue.designated valuation.entries[position].2 := by
    intro position inside
    rw [Nat.zero_add]
    exact Valuation.testBit_row _ inside
  obtain ⟨literals, middle, forming, middleWellFormed, extension, shown⟩ :=
    wellFormed.exists_yields_literals nonempty distinct apart bits
  have count : literals.length = strings.length := by
    simpa [strings] using shown.length_eq
  match literals, shown with
  | [], _ => simp_all [strings]
  | [single], shown =>
      obtain ⟨string, only⟩ : ∃ string, strings = [string] :=
        List.length_eq_one_iff.mp count.symm
      change List.Forall₂ _ _ ((strings.zipIdx 0).map _) at shown
      rw [only] at shown
      obtain ⟨presents, _⟩ := List.forall₂_cons.mp shown
      refine ⟨single, middle, Tree.rowLiteral row (string, 0),
        forming.bind (yields_pure_iff.mpr ⟨rfl, rfl⟩), extension.settings,
        ?_, Tree.normal_rowLiteral row _, ?_, fun state => ?_⟩
      · exact (presents.more (Tree.normal_rowLiteral row _).settled
          (by omega)).shows
      · intro literal member
        rw [Tree.mem_literals_rowLiteral member]
        change string ∈ strings
        rw [only]
        exact List.mem_singleton_self string
      · change _ ↔ Tree.Agrees state strings row
        rw [only, Tree.holds_rowLiteral, beq_iff_eq]
        constructor
        · intro same position inside
          obtain rfl : position = 0 := by simpa using inside
          exact same
        · intro agrees
          exact agrees 0 (by simp)
  | first :: second :: rest, shown =>
      have several : 2 ≤ strings.length := by
        rw [← count]
        simp
      obtain ⟨formula, name, names, after, joining, added, shapes⟩ :=
        middleWellFormed.exists_yields_junction shown
          (Tree.irreducible_minterm distinct several row)
          fun _ member => (Tree.minterm_flat row member).1
      refine ⟨formula, after, Tree.minterm strings row,
        forming.bind (joining.bind (yields_pure_iff.mpr ⟨rfl, rfl⟩)),
        added.extension.settings.trans extension.settings, ?_,
        Tree.normal_minterm distinct several row, ?_, fun state =>
          Tree.holds_minterm_iff state row⟩
      · exact ⟨_, added.stored, by rw [unfold_junction rfl, shapes]; rfl⟩
      · exact fun literal => Tree.mem_literals_minterm

/-- A valuation and its formula agree. -/
theorem WellFormed.exists_describes
    {registry : Registry} (wellFormed : registry.WellFormed)
    (deep : 2 ≤ registry.settings.depthLimit.value)
    {valuation : Valuation V} (entered : valuation.entries ≠ [])
    (nonempty : ∀ entry ∈ valuation.entries, entry.1 ≠ "")
    (apart : registry.NamesApart valuation.entries) :
    ∃ formula final,
      registry.Yields valuation.toFormula (some formula) final ∧
        ∀ state : Valuation Bool,
          (∀ entry ∈ valuation.entries, state.contains entry.1) →
          ∃ truth : Bool, final.evaluate state formula = .ok (some truth) ∧
            (truth = true ↔ ∀ entry ∈ valuation.entries,
              (state.get? entry.1).map TruthValue.designated =
                some (TruthValue.designated entry.2)) := by
  obtain ⟨formula, final, tree, run, settings, shows, normal, literals,
    truth⟩ := wellFormed.exists_yields_toFormula entered nonempty apart
  refine ⟨formula, final, run, fun state given => ?_⟩
  have enough : 3 ≤ final.levels 0 := by
    rw [Registry.levels, settings]
    omega
  have presents : final.Presents .detached 3 formula tree :=
    ⟨shows, fun impossible => by cases impossible⟩
  obtain ⟨node, stored, shape⟩ :=
    (presents.more normal.settled enough).shows
  have gives : Tree.Gives state state.state (tree.literals true) := by
    intro literal member
    obtain ⟨entry, entryMember, same⟩ :=
      List.mem_map.mp (literals literal member)
    exact Valuation.get?_of_contains (same ▸ given entry entryMember)
  refine ⟨tree.holds state.state, ?_, ?_⟩
  · rw [final.evaluate_eq_value state stored, shape,
      normal.total.value_eq gives]
    rfl
  · rw [truth, Valuation.agrees_row_iff]
    refine forall₂_congr fun entry member => ?_
    rw [Valuation.get?_of_contains (given entry member), Option.map_some,
      Option.some.injEq]
    rfl

end Registry

/-! ## Current states -/

/-- The formula of the current state is formed in the registry of the world,
and nothing else changes. -/
theorem World.run_stateFormula
    {world : World} {formula : Option Key} {final : Registry}
    (run : world.registry.Yields world.current.valuation.toFormula formula
      final) :
    World.stateFormula.run.run world =
      (.ok formula, { world with registry := final }) := by
  change (let (result, registry) :=
      world.current.valuation.toFormula.run.run world.registry
    (result, { world with registry })) = _
  rw [run]

namespace Registry

/-- An assignment and its formula agree.  If at least two levels may be
descended, every valuation with entries of nonempty names that are kept apart
from generated ones is described by some formula, which is true in the classical
states that give every name a value of the same designation, and false in all
others that give every name a value.  In particular the formula of the current
state of a world is true on the current state.  Names are kept apart if none that
comes after an undesignated one may still be generated. -/
theorem Reachable.valuation_described
    {registry : Registry} (reachable : registry.Reachable)
    (deep : 2 ≤ registry.settings.depthLimit.value) :
    (∀ {V : Type} [TruthValue V] (valuation : Valuation V),
      valuation.entries ≠ [] → (∀ entry ∈ valuation.entries, entry.1 ≠ "") →
      registry.NamesApart valuation.entries →
      ∃ formula final,
        registry.Yields valuation.toFormula (some formula) final ∧
          ∀ state : Valuation Bool,
            (∀ entry ∈ valuation.entries, state.contains entry.1) →
            ∃ truth : Bool,
              final.evaluate state formula = .ok (some truth) ∧
              (truth = true ↔ ∀ entry ∈ valuation.entries,
                (state.get? entry.1).map TruthValue.designated =
                  some (TruthValue.designated entry.2))) ∧
    (∀ world : World, world.registry = registry →
      world.current.valuation.entries ≠ [] →
      (∀ entry ∈ world.current.valuation.entries, entry.1 ≠ "") →
      registry.NamesApart world.current.valuation.entries →
      ∃ formula final,
        World.stateFormula.run.run world = (.ok (some formula), final) ∧
          final.value formula = .ok (some true)) ∧
    ∀ {V : Type} [TruthValue V] (entries : List (String × V)),
      (entries.Pairwise fun earlier later =>
        TruthValue.designated earlier.2 = false →
          ¬ registry.MayGenerate .compound later.1) →
      registry.NamesApart entries := by
  refine ⟨?_, ?_, fun _ => reachable.wellFormed.numbered.namesApart⟩
  · intro V _ valuation entered nonempty apart
    exact reachable.wellFormed.exists_describes deep entered nonempty apart
  · rintro world rfl entered nonempty apart
    obtain ⟨formula, final, run, describes⟩ :=
      reachable.wellFormed.exists_describes deep entered nonempty apart
    have given : ∀ entry ∈ world.current.valuation.entries,
        world.current.valuation.contains entry.1 := by
      intro entry member
      rw [Valuation.contains, Valuation.get?_of_mem member]
      rfl
    obtain ⟨truth, evaluated, agrees⟩ :=
      describes world.current.valuation given
    have isTrue : truth = true := agrees.mpr fun entry member => by
      rw [Valuation.get?_of_mem member, Option.map_some]
    exact ⟨formula, _, World.run_stateFormula run, isTrue ▸ evaluated⟩

/-- A valuation making one name false and another one true is described by a
formula that is true on it, and false on the state making both true. -/
theorem valuation_described_of_mixed_state :
    let registry := replay [.atom "p"]
    let mixed : Valuation Bool := Valuation.ofList [("p", false), ("q", true)]
    let both : Valuation Bool := Valuation.ofList [("p", true), ("q", true)]
    ∃ formula final, registry.Yields mixed.toFormula (some formula) final ∧
      final.evaluate mixed formula = .ok (some true) ∧
      final.evaluate both formula = .ok (some false) := by
  intro registry mixed both
  have reachable : registry.Reachable := reachable_replay _
  obtain ⟨described, _, keptApart⟩ :=
    reachable.valuation_described (by decide +kernel)
  have otherwise : ∀ entry ∈ mixed.entries,
      ¬ (registry.settings.stem .compound).toList <+: entry.1.toList := by
    decide +kernel
  have apart : registry.NamesApart mixed.entries := by
    refine keptApart _ (List.pairwise_of_forall_mem_list ?_)
    intro _ _ later member _ generated
    exact otherwise later member generated.begins_with_stem
  obtain ⟨formula, final, run, describes⟩ :=
    described mixed (by decide +kernel) (by decide +kernel) apart
  refine ⟨formula, final, run, ?_, ?_⟩
  · obtain ⟨truth, evaluated, agrees⟩ := describes mixed (by decide +kernel)
    rw [evaluated, agrees.mpr (by decide +kernel)]
  · obtain ⟨truth, evaluated, agrees⟩ := describes both (by decide +kernel)
    have never : ¬ truth = true := agrees.not.mpr (by decide +kernel)
    rw [evaluated, Bool.eq_false_of_not_eq_true never]

/-- The first name of a valuation is negated under a generated name, which then
turns out to be the second name.  The formula retains the second name alone, and
is true also where the first name has the other value. -/
theorem taken_over_while_described :
    let registry := replay []
    let valuation : Valuation Bool :=
      Valuation.ofList [("F1", false), ("F2", true)]
    let both : Valuation Bool := Valuation.ofList [("F1", true), ("F2", true)]
    let final := registry.after valuation.toFormula
    registry.Reachable ∧ 2 ≤ registry.settings.depthLimit.value ∧
      (∀ entry ∈ valuation.entries, entry.1 ≠ "") ∧
      ¬ registry.NamesApart valuation.entries ∧
      (valuation.toFormula.run.run registry).1 = .ok (some ⟨4⟩) ∧
      (∀ entry ∈ valuation.entries, both.contains entry.1) ∧
      final.evaluate both ⟨4⟩ = .ok (some true) ∧
      valuation.get? "F1" = some false ∧ both.get? "F1" = some true := by
  intro registry valuation both final
  exact ⟨reachable_replay _, by decide +kernel, by decide +kernel,
    by decide +kernel, by decide +kernel, by decide +kernel,
    by decide +kernel, by decide +kernel, by decide +kernel⟩

end Registry

end NamedLogic
