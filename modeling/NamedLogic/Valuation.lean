/-!
# Valuations

A valuation gives values to finitely many names, here by their strings.  Its
entries are kept in ascending order of names, so that two valuations giving
the same values are equal.
-/

namespace NamedLogic

/-- A finite partial map from names to values. -/
structure Valuation (V : Type) where
  entries : List (String × V) := []
  ascending : entries.Pairwise fun first second => first.1 < second.1 := by
    exact List.Pairwise.nil

namespace Valuation

variable {V : Type}

/-- Enter a value in an ascending list of entries, in the place of any entry of
the same name. -/
def insertEntry (name : String) (value : V) :
    List (String × V) → List (String × V)
  | [] => [(name, value)]
  | entry :: rest =>
      if name < entry.1 then
        (name, value) :: entry :: rest
      else if entry.1 < name then
        entry :: insertEntry name value rest
      else
        (name, value) :: rest

theorem name_mem_insertEntry
    {name : String} {value : V} {entries : List (String × V)}
    {entry : String × V} (member : entry ∈ insertEntry name value entries) :
    entry.1 = name ∨ entry ∈ entries := by
  induction entries with
  | nil =>
      simp only [insertEntry, List.mem_singleton] at member
      exact Or.inl (congrArg Prod.fst member)
  | cons head rest induction =>
      simp only [insertEntry] at member
      split at member
      · rcases List.mem_cons.mp member with rfl | member
        · exact Or.inl rfl
        · exact Or.inr member
      · split at member
        · rcases List.mem_cons.mp member with rfl | member
          · exact Or.inr (List.mem_cons_self ..)
          · exact (induction member).imp_right (List.mem_cons_of_mem _)
        · rcases List.mem_cons.mp member with rfl | member
          · exact Or.inl rfl
          · exact Or.inr (List.mem_cons_of_mem _ member)

theorem pairwise_insertEntry
    (name : String) (value : V) {entries : List (String × V)}
    (ordered : entries.Pairwise fun first second => first.1 < second.1) :
    (insertEntry name value entries).Pairwise
      fun first second => first.1 < second.1 := by
  induction entries with
  | nil => exact List.pairwise_singleton _ _
  | cons head rest induction =>
      have ⟨below, restOrdered⟩ := List.pairwise_cons.mp ordered
      simp only [insertEntry]
      split
      · rename_i before
        refine List.pairwise_cons.mpr ⟨?_, ordered⟩
        intro entry member
        rcases List.mem_cons.mp member with rfl | member
        · exact before
        · exact String.lt_trans before (below entry member)
      · split
        · rename_i after
          refine List.pairwise_cons.mpr ⟨?_, induction restOrdered⟩
          intro entry member
          rcases name_mem_insertEntry member with same | member
          · exact same ▸ after
          · exact below entry member
        · rename_i notBefore notAfter
          have same : name = head.1 :=
            String.le_antisymm (String.not_lt.mp notAfter)
              (String.not_lt.mp notBefore)
          refine List.pairwise_cons.mpr ⟨?_, restOrdered⟩
          intro entry member
          exact same ▸ below entry member

/-- The valuation that gives no values. -/
def empty : Valuation V := {}

/-- The value given to a name, if any. -/
def get? (valuation : Valuation V) (name : String) : Option V :=
  valuation.entries.lookup name

/-- Whether a name is given a value. -/
def contains (valuation : Valuation V) (name : String) : Bool :=
  (valuation.get? name).isSome

/-- The number of names given a value. -/
def size (valuation : Valuation V) : Nat :=
  valuation.entries.length

/-- Whether no name is given a value. -/
def isEmpty (valuation : Valuation V) : Bool :=
  valuation.entries.isEmpty

/-- Give a name a value, in the place of any value it has. -/
def insert
    (valuation : Valuation V) (name : String) (value : V) : Valuation V where
  entries := insertEntry name value valuation.entries
  ascending := pairwise_insertEntry name value valuation.ascending

/-- Take the value of a name away. -/
def erase (valuation : Valuation V) (name : String) : Valuation V where
  entries := valuation.entries.filter fun entry => entry.1 != name
  ascending := valuation.ascending.filter _

/-- Give a name a value, or take its value away. -/
def assign
    (valuation : Valuation V) (name : String) : Option V → Valuation V
  | some value => valuation.insert name value
  | none => valuation.erase name

/-- The valuation of a list of entries.  The last entry of a name counts. -/
def ofList (entries : List (String × V)) : Valuation V :=
  entries.foldl
    (fun valuation entry => valuation.insert entry.1 entry.2) empty

/-- The values of both valuations, with those of the second winning. -/
def merge (first second : Valuation V) : Valuation V :=
  second.entries.foldl
    (fun valuation entry => valuation.insert entry.1 entry.2) first

/-- The number of names given equal values by both valuations, unless it is
zero. -/
def agreement? [DecidableEq V] (first second : Valuation V) : Option Nat :=
  let count := first.entries.countP fun entry =>
    second.get? entry.1 == some entry.2
  if count = 0 then none else some count

end Valuation

end NamedLogic
