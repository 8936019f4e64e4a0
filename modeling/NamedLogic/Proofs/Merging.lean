import NamedLogic.Proofs.Valuations
import NamedLogic.Proofs.Variables

/-!
# Merging and comparing assignments

A merger enters the values of the second assignment, one after the other, into a
copy of the first; the order in which they are entered does not matter, because no
name has two values.  A comparison counts the entries that two assignments share,
and so does not depend on which of the two is gone through.
-/

namespace NamedLogic

namespace Valuation

variable {V : Type} {first second : Valuation V}

/-! ## Entering values -/

/-- Entering the values of an ascending list of entries. -/
theorem get?_foldl_insert
    {entries : List (String × V)}
    (ascending : entries.Pairwise fun first second => first.1 < second.1)
    (valuation : Valuation V) (name : String) :
    (entries.foldl
      (fun valuation entry => valuation.insert entry.1 entry.2)
        valuation).get? name =
      (entries.lookup name).or (valuation.get? name) := by
  induction entries generalizing valuation with
  | nil => simp
  | cons entry entries inductionHypothesis =>
      obtain ⟨below, restAscending⟩ := List.pairwise_cons.mp ascending
      rw [List.foldl_cons, inductionHypothesis restAscending, get?_insert,
        lookup_cons_eq_ite]
      by_cases same : name = entry.1
      · -- The name occurs nowhere further on, where all names are greater.
        have absent : entries.lookup name = none := by
          rw [List.lookup_eq_none_iff]
          intro later member
          have greater := below later member
          rw [bne_iff_ne, same]
          exact String.ne_of_lt greater
        rw [absent, if_pos same, if_pos same]
        rfl
      · simp [same]

/-- A merger gives the second value of a name, or else the first. -/
theorem get?_merge (first second : Valuation V) (name : String) :
    (first.merge second).get? name =
      (second.get? name).or (first.get? name) :=
  get?_foldl_insert second.ascending first name

/-- The values of two entries of one valuation may be entered in either order. -/
theorem insert_insert_comm
    {entry other : String × V} (here : entry ∈ second.entries)
    (there : other ∈ second.entries) (valuation : Valuation V) :
    (valuation.insert entry.1 entry.2).insert other.1 other.2 =
      (valuation.insert other.1 other.2).insert entry.1 entry.2 := by
  apply eq_of_get?_eq
  intro name
  rw [get?_insert, get?_insert, get?_insert, get?_insert]
  by_cases one : name = entry.1
  · by_cases two : name = other.1
    · have values : some other.2 = some entry.2 := by
        rw [← get?_of_mem here, ← get?_of_mem there, ← one, ← two]
      simp [← one, ← two, values]
    · simp [← one, two]
  · simp [one]

/-- The order in which the values are entered does not matter. -/
theorem foldl_insert_eq_merge
    {order : List (String × V)} (permuted : order.Perm second.entries) :
    order.foldl (fun valuation entry => valuation.insert entry.1 entry.2)
      first = first.merge second := by
  apply permuted.foldl_eq'
  intro entry here other there valuation
  exact insert_insert_comm (permuted.mem_iff.mp here)
    (permuted.mem_iff.mp there) valuation

theorem merge_assoc (first second third : Valuation V) :
    (first.merge second).merge third =
      first.merge (second.merge third) := by
  apply eq_of_get?_eq
  intro name
  simp only [get?_merge, Option.or_assoc]

theorem merge_self (valuation : Valuation V) :
    valuation.merge valuation = valuation := by
  apply eq_of_get?_eq
  intro name
  rw [get?_merge, Option.or_self]

/-! ## Counting what is shared -/

section Agreement

variable [DecidableEq V]

/-- The entries of the first valuation that are entries of the second. -/
def shared (first second : Valuation V) : List (String × V) :=
  first.entries.filter fun entry => second.get? entry.1 == some entry.2

theorem mem_shared_iff {entry : String × V} :
    entry ∈ first.shared second ↔
      entry ∈ first.entries ∧ entry ∈ second.entries := by
  rw [shared, List.mem_filter, beq_iff_eq]
  exact and_congr_right' mem_entries_iff.symm

/-- Both valuations share the same entries with the other one. -/
theorem shared_perm (first second : Valuation V) :
    (first.shared second).Perm (second.shared first) := by
  unfold shared
  rw [List.perm_ext_iff_of_nodup
    (first.nodup_entries.filter _) (second.nodup_entries.filter _)]
  intro entry
  change entry ∈ first.shared second ↔ entry ∈ second.shared first
  rw [mem_shared_iff, mem_shared_iff, and_comm]

theorem agreement?_eq (first second : Valuation V) :
    first.agreement? second =
      if (first.shared second).length = 0 then none
      else some (first.shared second).length := by
  unfold agreement?
  rw [List.countP_eq_length_filter]
  rfl

theorem agreement?_comm (first second : Valuation V) :
    first.agreement? second = second.agreement? first := by
  rw [agreement?_eq, agreement?_eq, (first.shared_perm second).length_eq]

theorem agreement?_eq_none_iff :
    first.agreement? second = none ↔
      ∀ name value, first.get? name = some value →
        second.get? name ≠ some value := by
  rw [agreement?_eq, ite_eq_left_iff]
  constructor
  · intro nothing name value given also
    have present : (name, value) ∈ first.shared second :=
      mem_shared_iff.mpr ⟨mem_entries_iff.mpr given, mem_entries_iff.mpr also⟩
    have positive := List.length_pos_of_mem present
    cases nothing (Nat.ne_of_gt positive)
  · intro different
    have empty : first.shared second = [] := by
      rw [List.eq_nil_iff_forall_not_mem]
      rintro ⟨name, value⟩ member
      obtain ⟨here, there⟩ := mem_shared_iff.mp member
      exact different name value (mem_entries_iff.mp here)
        (mem_entries_iff.mp there)
    simp [empty]

/-- Everything in the second valuation is in the merger. -/
theorem agreement?_merge (first second : Valuation V) :
    (first.merge second).agreement? second =
      if second.isEmpty then none else some second.size := by
  have all : second.shared (first.merge second) = second.entries := by
    rw [shared, List.filter_eq_self]
    rintro ⟨name, value⟩ member
    rw [beq_iff_eq, get?_merge, mem_entries_iff.mp member]
    rfl
  rw [agreement?_comm, agreement?_eq, all, isEmpty, size]
  simp [List.length_eq_zero_iff]

end Agreement

end Valuation

/-! ## Merging in a program -/

/-- A merger is put into its variable, and every other variable is left as it is. -/
theorem Program.step_merge
    {program : Program} {family : Family} {left right : Program.Place}
    {first second : Assignment family.Value}
    (here : program.read? family left = some first)
    (there : program.read? family right = some second)
    (target : Program.Place) :
    let after := program.step (.merge target family left right)
    after.own? family target =
        some ((first.merge second).run program.supply).1 ∧
      ∀ place, place ≠ target → after.held place = program.held place := by
  simp only [step, here, there]
  constructor
  · exact own?_make program target family _
  · intro place other
    rw [held_make, if_neg other]

namespace Assignment

variable {V : Type} [DecidableEq V]

/-- In a merger a name has the value of the second assignment, or else that of the
first, in whatever order the values of the second are entered.  Mergers are
associative and idempotent on values, and leave the assignments that are merged as
they are.  The agreement of two assignments is symmetric, is that of the second with
itself if the first is a merger with it, and fails exactly if no name has the same
value in both. -/
theorem merge_and_agreement_laws
    (first second third : Assignment V) (supply : IdSupply) :
    let merged := ((first.merge second).run supply).1
    (∀ name, merged.valuation.get? name =
      (second.valuation.get? name).or (first.valuation.get? name)) ∧
    (∀ order : List (String × V), order.Perm second.valuation.entries →
      order.foldl (fun valuation entry => valuation.insert entry.1 entry.2)
        first.valuation = merged.valuation) ∧
    (((first.merge second >>= fun both => both.merge third).run
        supply).1.valuation =
      ((second.merge third >>= fun both => first.merge both).run
        supply).1.valuation) ∧
    ((first.merge first).run supply).1.valuation = first.valuation ∧
    first.agreement? (some second) = second.agreement? (some first) ∧
    (merged.agreement? (some second) =
      if second.valuation.isEmpty then none
      else some second.valuation.size) ∧
    (first.agreement? (some second) = none ↔
      ∀ name value, first.valuation.get? name = some value →
        second.valuation.get? name ≠ some value) ∧
    ∀ (program : Program) (target left right : Program.Place)
      (family : Family) (one two : Assignment family.Value),
      program.read? family left = some one →
      program.read? family right = some two →
        let after := program.step (.merge target family left right)
        after.own? family target =
            some ((one.merge two).run program.supply).1 ∧
          ∀ place, place ≠ target →
            after.held place = program.held place :=
  ⟨first.valuation.get?_merge second.valuation,
    fun _ => Valuation.foldl_insert_eq_merge,
    first.valuation.merge_assoc second.valuation third.valuation,
    first.valuation.merge_self,
    first.valuation.agreement?_comm second.valuation,
    first.valuation.agreement?_merge second.valuation,
    Valuation.agreement?_eq_none_iff,
    fun _ target _ _ _ _ _ here there => Program.step_merge here there target⟩

/-- Two assignments that share no value are merged, with the values of the second
entered in descending order. -/
theorem merge_and_agreement_laws_of_conflict :
    let first : Assignment Bool :=
      { id := 0, valuation := .ofList [("a", true), ("b", false)] }
    let second : Assignment Bool :=
      { id := 1, valuation := .ofList [("b", true), ("c", true)] }
    let merged := ((first.merge second).run { next := 2 }).1
    let program := Program.run {}
      [.ofList 0 .classical [("a", true), ("b", false)],
        .ofList 1 .classical [("b", true), ("c", true)]]
    let after := program.step (.merge 2 .classical 0 1)
    merged.valuation.get? "b" = some true ∧
      [("c", true), ("b", true)].foldl
        (fun valuation entry => valuation.insert entry.1 entry.2)
          first.valuation = merged.valuation ∧
      merged.agreement? (some second) = some 2 ∧
      first.agreement? (some second) = none ∧
      second.valuation.get? "b" ≠ some false ∧
      after.own? .classical 2 = some merged ∧
      after.held 0 = program.held 0 ∧ after.held 1 = program.held 1 := by
  intro first second merged program after
  obtain ⟨values, orders, _, _, _, agreement, incomparable, places⟩ :=
    merge_and_agreement_laws first second first { next := 2 }
  have nothing : first.agreement? (some second) = none := by decide +kernel
  obtain ⟨made, kept⟩ := places program 2 0 1 .classical first second
    rfl rfl
  refine ⟨?_, orders _ (.swap _ _ _), agreement, nothing, ?_, made,
    kept 0 (by decide), kept 1 (by decide)⟩
  · rw [values]
    decide +kernel
  · apply incomparable.mp nothing
    decide +kernel

end Assignment

end NamedLogic
