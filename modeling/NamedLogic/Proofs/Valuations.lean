import NamedLogic.Valuation
import Mathlib.Data.List.Nodup
import Mathlib.Data.List.Perm.Basic
import Mathlib.Order.Basic

/-!
# Valuations as maps

A valuation is read by looking names up.  Each change of a valuation is described
by what is found afterwards, and two valuations in which the same is found are
equal, because both keep their entries in ascending order.
-/

namespace NamedLogic

namespace Valuation

variable {V : Type} {first second : Valuation V}

/-! ## Looking names up -/

theorem lookup_of_mem
    {entries : List (String × V)}
    (ascending : entries.Pairwise fun first second => first.1 < second.1)
    {entry : String × V} (member : entry ∈ entries) :
    entries.lookup entry.1 = some entry.2 := by
  induction entries with
  | nil => cases member
  | cons head rest inductionHypothesis =>
      obtain ⟨below, restAscending⟩ := List.pairwise_cons.mp ascending
      rcases List.mem_cons.mp member with rfl | later
      · exact List.lookup_cons_self
      · have different : entry.1 ≠ head.1 :=
          (String.ne_of_lt (below entry later)).symm
        rw [List.lookup_cons, beq_false_of_ne different]
        exact inductionHypothesis restAscending later

theorem get?_of_mem
    {valuation : Valuation V} {entry : String × V}
    (member : entry ∈ valuation.entries) :
    valuation.get? entry.1 = some entry.2 :=
  lookup_of_mem valuation.ascending member

/-- An entry is a name together with the value found for it. -/
theorem mem_entries_iff
    {valuation : Valuation V} {name : String} {value : V} :
    (name, value) ∈ valuation.entries ↔
      valuation.get? name = some value := by
  constructor
  · exact get?_of_mem
  · intro found
    obtain ⟨before, after, entries, _⟩ := List.lookup_eq_some_iff.mp found
    rw [entries]
    exact List.mem_append_right before List.mem_cons_self

theorem nodup_entries (valuation : Valuation V) :
    valuation.entries.Nodup := by
  apply valuation.ascending.imp
  rintro entry other below rfl
  exact String.lt_irrefl entry.1 below

/-- A valuation is determined by the values it gives. -/
theorem eq_of_get?_eq
    (same : ∀ name, first.get? name = second.get? name) :
    first = second := by
  have members : ∀ entry,
      entry ∈ first.entries ↔ entry ∈ second.entries := by
    rintro ⟨name, value⟩
    rw [mem_entries_iff, mem_entries_iff, same]
  have permuted : first.entries.Perm second.entries :=
    (List.perm_ext_iff_of_nodup first.nodup_entries
      second.nodup_entries).mpr members
  have entries : first.entries = second.entries := by
    apply List.Perm.eq_of_pairwise _ first.ascending second.ascending
      permuted
    intro entry other _ _ below above
    exact (String.lt_asymm below above).elim
  cases first
  cases second
  cases entries
  rfl

/-! ## Values after a change -/

theorem lookup_cons_eq_ite
    (entry : String × V) (entries : List (String × V)) (name : String) :
    (entry :: entries).lookup name =
      if name = entry.1 then some entry.2 else entries.lookup name := by
  rw [List.lookup_cons]
  by_cases same : name = entry.1
  · simp [same]
  · simp [beq_eq_false_iff_ne.mpr same, same]

theorem lookup_insertEntry
    (name other : String) (value : V) (entries : List (String × V)) :
    (insertEntry name value entries).lookup other =
      if other = name then some value else entries.lookup other := by
  induction entries with
  | nil => exact lookup_cons_eq_ite (name, value) [] other
  | cons entry entries inductionHypothesis =>
      rw [insertEntry]
      split
      · exact lookup_cons_eq_ite (name, value) (entry :: entries) other
      · split
        · next after =>
            rw [lookup_cons_eq_ite, lookup_cons_eq_ite, inductionHypothesis]
            by_cases same : other = name
            · -- The name comes after the entry, and so is another one.
              subst same
              have different : ¬ other = entry.1 := fun equal =>
                String.lt_irrefl entry.1 (equal ▸ after)
              rw [if_neg different, if_pos rfl, if_pos rfl]
            · rw [if_neg same, if_neg same]
        · next notBefore notAfter =>
            have same : name = entry.1 :=
              String.le_antisymm (String.not_lt.mp notAfter)
                (String.not_lt.mp notBefore)
            rw [lookup_cons_eq_ite, lookup_cons_eq_ite, ← same]
            by_cases equal : other = name
            · rw [if_pos equal, if_pos equal]
            · rw [if_neg equal, if_neg equal, if_neg equal]

theorem get?_insert
    (valuation : Valuation V) (name other : String) (value : V) :
    (valuation.insert name value).get? other =
      if other = name then some value else valuation.get? other :=
  lookup_insertEntry name other value valuation.entries

theorem lookup_filter_ne
    (name other : String) (entries : List (String × V)) :
    (entries.filter fun entry => entry.1 != name).lookup other =
      if other = name then none else entries.lookup other := by
  induction entries with
  | nil => simp
  | cons entry entries inductionHypothesis =>
      rw [List.filter_cons, lookup_cons_eq_ite]
      by_cases erased : entry.1 = name
      · simp only [erased, bne_self_eq_false, Bool.false_eq_true, if_false]
        rw [inductionHypothesis]
        by_cases same : other = name
        · simp [same]
        · simp [same]
      · simp only [bne_iff_ne.mpr erased, if_true]
        rw [lookup_cons_eq_ite, inductionHypothesis]
        by_cases same : other = entry.1
        · simp [same, erased]
        · simp [same]

theorem get?_erase
    (valuation : Valuation V) (name other : String) :
    (valuation.erase name).get? other =
      if other = name then none else valuation.get? other :=
  lookup_filter_ne name other valuation.entries

/-- A name that is set has the value it was given, if any, and every other name
keeps its own. -/
theorem get?_assign
    (valuation : Valuation V) (name other : String) (value : Option V) :
    (valuation.assign name value).get? other =
      if other = name then value else valuation.get? other := by
  cases value with
  | none => exact get?_erase valuation name other
  | some value => exact get?_insert valuation name other value

/-! ## Valuations that give more values -/

/-- Every value that the first valuation gives is given by the second. -/
def Extends (first second : Valuation V) : Prop :=
  ∀ string value, first.get? string = some value →
    second.get? string = some value

theorem Extends.refl (valuation : Valuation V) :
    valuation.Extends valuation :=
  fun _ _ => id

theorem Extends.trans
    {third : Valuation V} (early : first.Extends second)
    (late : second.Extends third) : first.Extends third :=
  fun name value given => late name value (early name value given)

/-- A name without a value may be given one. -/
theorem Extends.insert
    (extension : first.Extends second)
    {name : String} (unvalued : first.get? name = none) (value : V) :
    first.Extends (second.insert name value) := by
  intro other present given
  have different : other ≠ name := by
    rintro rfl
    rw [unvalued] at given
    cases given
  rw [get?_insert, if_neg different]
  exact extension other present given

end Valuation

end NamedLogic
