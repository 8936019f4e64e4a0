import NamedLogic.Simplification.Pairing
import Mathlib.Data.List.Nodup
import Mathlib.Data.List.Perm.Subperm

/-!
# The operands struck out by comparing pairs

Suppose that equality of operands is an equivalence, and that opposition
respects it, never chains, and leaves at most one class of operands opposed to
any given one.  Then the outer pass is decided exactly if a conjunction has
opposed operands, and an invariant says which operands have been struck out
after each turn.
-/

namespace NamedLogic

namespace Pairing

variable {α β : Type}

/-! ## The inner pass -/

section Inner

variable {opposed equal : α → α → Bool}

/-- An operand not struck out, elsewhere than at the given position, to which
the left operand is opposed. -/
def Clashes
    (opposed : α → α → Bool) (left : α) (position : Nat)
    (operands : List (α × Nat)) (struck : List Nat) : Prop :=
  ∃ right ∈ operands,
    right.2 ≠ position ∧ right.2 ∉ struck ∧ opposed left right.1

theorem clashes_cons_iff
    {left : α} {position : Nat} {right : α × Nat}
    {operands : List (α × Nat)} {struck : List Nat} :
    Clashes opposed left position (right :: operands) struck ↔
      (right.2 ≠ position ∧ right.2 ∉ struck ∧ opposed left right.1) ∨
        Clashes opposed left position operands struck := by
  simp [Clashes]

/-- Striking out another operand does not matter to the operands that
follow. -/
theorem clashes_cons_struck_iff
    {left : α} {position other : Nat} {operands : List (α × Nat)}
    {struck : List Nat} (elsewhere : ∀ right ∈ operands, right.2 ≠ other) :
    Clashes opposed left position operands (other :: struck) ↔
      Clashes opposed left position operands struck := by
  constructor
  · rintro ⟨right, member, apart, free, against⟩
    exact ⟨right, member, apart,
      fun present => free (List.mem_cons_of_mem _ present), against⟩
  · rintro ⟨right, member, apart, free, against⟩
    refine ⟨right, member, apart, ?_, against⟩
    simpa [elsewhere right member] using free

theorem clashes_cons_own_iff
    {left : α} {position : Nat} {operands : List (α × Nat)}
    {struck : List Nat} :
    Clashes opposed left position operands (position :: struck) ↔
      Clashes opposed left position operands struck := by
  constructor
  · rintro ⟨right, member, apart, free, against⟩
    exact ⟨right, member, apart,
      fun present => free (List.mem_cons_of_mem _ present), against⟩
  · rintro ⟨right, member, apart, free, against⟩
    exact ⟨right, member, apart, by simp [apart, free], against⟩

theorem strikeAgainst_cons
    (connective : Connective) (left : α) (position : Nat)
    (right : α) (other : Nat) (operands : List (α × Nat))
    (struck : List Nat) :
    strikeAgainst connective opposed equal left position
        ((right, other) :: operands) struck =
      if position = other ∨ other ∈ struck then
        strikeAgainst connective opposed equal left position operands struck
      else if opposed left right then
        match connective with
        | .conjunction => none
        | .disjunction =>
            strikeAgainst connective opposed equal left position operands
              (other :: position :: struck)
      else if equal left right then
        strikeAgainst connective opposed equal left position operands
          (other :: struck)
      else
        strikeAgainst connective opposed equal left position operands
          struck :=
  rfl

/-- A clash decides a conjunction. -/
theorem strikeAgainst_eq_none_iff
    {connective : Connective} {left : α} {position : Nat}
    {operands : List (α × Nat)} {struck : List Nat}
    (distinct : (operands.map Prod.snd).Nodup) :
    strikeAgainst connective opposed equal left position operands struck =
        none ↔
      connective = .conjunction ∧
        Clashes opposed left position operands struck := by
  induction operands generalizing struck with
  | nil => simp [strikeAgainst, Clashes]
  | cons right operands inductionHypothesis =>
      obtain ⟨right, other⟩ := right
      obtain ⟨fresh, rest⟩ := List.nodup_cons.mp distinct
      have elsewhere : ∀ operand ∈ operands, operand.2 ≠ other := by
        rintro operand member rfl
        exact fresh (List.mem_map.mpr ⟨operand, member, rfl⟩)
      rw [strikeAgainst_cons, clashes_cons_iff]
      split
      · rename_i skipped
        rw [inductionHypothesis rest]
        have silent : ¬ (other ≠ position ∧ other ∉ struck ∧
            opposed left right) := by
          rintro ⟨apart, free, _⟩
          rcases skipped with same | present
          · exact apart same.symm
          · exact free present
        simp [silent]
      · rename_i considered
        push Not at considered
        have apart : other ≠ position := considered.1.symm
        split
        · rename_i against
          cases connective with
          | conjunction => simp [apart, considered.2, against]
          | disjunction =>
              simp only [reduceCtorEq, false_and, iff_false]
              rw [inductionHypothesis rest]
              simp
        · rename_i compatible
          have silent : ¬ (other ≠ position ∧ other ∉ struck ∧
              opposed left right) := fun clash => compatible clash.2.2
          split
          · rw [inductionHypothesis rest, clashes_cons_struck_iff elsewhere]
            simp [compatible]
          · rw [inductionHypothesis rest]
            simp [compatible]

/-- The positions struck out by one inner pass. -/
theorem mem_strikeAgainst_iff
    {connective : Connective} {left : α} {position : Nat}
    {operands : List (α × Nat)} {struck after : List Nat}
    (distinct : (operands.map Prod.snd).Nodup)
    (passed : strikeAgainst connective opposed equal left position operands
      struck = some after) (other : Nat) :
    other ∈ after ↔
      other ∈ struck ∨
        (∃ right ∈ operands, right.2 = other ∧ other ≠ position ∧
          (opposed left right.1 ∨ equal left right.1)) ∨
        (other = position ∧
          Clashes opposed left position operands struck) := by
  induction operands generalizing struck with
  | nil =>
      obtain rfl := Option.some.inj passed
      simp [Clashes]
  | cons right operands inductionHypothesis =>
      obtain ⟨right, own⟩ := right
      obtain ⟨fresh, rest⟩ := List.nodup_cons.mp distinct
      have elsewhere : ∀ operand ∈ operands, operand.2 ≠ own := by
        rintro operand member rfl
        exact fresh (List.mem_map.mpr ⟨operand, member, rfl⟩)
      rw [strikeAgainst_cons] at passed
      rw [clashes_cons_iff]
      simp only [List.exists_mem_cons_iff]
      split at passed
      · rename_i skipped
        rw [inductionHypothesis rest passed]
        grind
      · rename_i considered
        push Not at considered
        split at passed
        · rename_i against
          cases connective with
          | conjunction => cases passed
          | disjunction =>
              rw [inductionHypothesis rest passed,
                clashes_cons_struck_iff elsewhere, clashes_cons_own_iff]
              grind
        · rename_i compatible
          split at passed
          · rw [inductionHypothesis rest passed,
              clashes_cons_struck_iff elsewhere]
            grind
          · rw [inductionHypothesis rest passed]
            grind

end Inner

/-! ## What is left, whatever the operands -/

section Survivors

variable {opposed equal : α → α → Bool} {connective : Connective}

/-- Whatever was struck out stays so, and an operand left to the end is equal to
no other one left to the end. -/
theorem unequal_of_strike
    {placed todo : List (α × Nat)} {struck final : List Nat}
    (distinct : (placed.map Prod.snd).Nodup)
    (passed : strike connective opposed equal placed todo struck =
      some final) :
    struck ⊆ final ∧ ∀ left ∈ todo, left.2 ∉ final →
      ∀ right ∈ placed, right.2 ≠ left.2 → right.2 ∉ final →
        equal left.1 right.1 = false := by
  induction todo generalizing struck with
  | nil =>
      obtain rfl := Option.some.inj passed
      exact ⟨fun _ => id, by simp⟩
  | cons first todo inductionHypothesis =>
      rw [strike] at passed
      split at passed
      · rename_i already
        obtain ⟨kept, unequal⟩ := inductionHypothesis passed
        refine ⟨kept, List.forall_mem_cons.mpr ⟨fun left => ?_, unequal⟩⟩
        exact (left (kept already)).elim
      · obtain ⟨middle, turn, rest⟩ := Option.bind_eq_some_iff.mp passed
        obtain ⟨kept, unequal⟩ := inductionHypothesis rest
        have marks := mem_strikeAgainst_iff distinct turn
        refine ⟨fun other old => kept ((marks other).mpr (Or.inl old)),
          List.forall_mem_cons.mpr ⟨fun _ right member apart free => ?_,
            unequal⟩⟩
        by_contra same
        refine free (kept ((marks right.2).mpr (Or.inr (Or.inl
          ⟨right, member, rfl, apart, Or.inr ?_⟩))))
        simpa using same

/-- The operands left keep their order, and no two of them are equal. -/
theorem pairwise_of_reduce?
    {operands remaining : List α}
    (reduced : reduce? connective opposed equal operands =
      some remaining) :
    remaining.Sublist operands ∧
      remaining.Pairwise fun first second =>
        equal first second = false := by
  obtain ⟨final, passed, rfl⟩ := Option.map_eq_some_iff.mp reduced
  have positions : operands.zipIdx.Pairwise fun first second =>
      first.2 ≠ second.2 := by
    rw [← List.pairwise_map, List.zipIdx_map_snd]
    exact List.nodup_range'
  obtain ⟨_, unequal⟩ :=
    unequal_of_strike (List.pairwise_map.mpr positions) passed
  constructor
  · have kept := (List.filter_sublist (p := fun operand : α × Nat =>
      decide (operand.2 ∉ final)) (l := operands.zipIdx)).map Prod.fst
    rwa [List.zipIdx_map_fst] at kept
  · refine List.pairwise_map.mpr ((positions.filter _).imp_of_mem ?_)
    intro first second firstMember secondMember apart
    obtain ⟨firstPlaced, firstLeft⟩ := List.mem_filter.mp firstMember
    obtain ⟨secondPlaced, secondLeft⟩ := List.mem_filter.mp secondMember
    exact unequal first firstPlaced (by simpa using firstLeft) second
      secondPlaced apart.symm (by simpa using secondLeft)

end Survivors

/-! ## The outer pass -/

/-- Equality is an equivalence that opposition respects.  What an operand is
opposed to is opposed to nothing, and operands opposed to the same operand are
equal. -/
structure Lawful (opposed equal : α → α → Bool) : Prop where
  refl : ∀ operand, equal operand operand
  symm : ∀ {first second}, equal first second → equal second first
  trans : ∀ {first second third}, equal first second →
    equal second third → equal first third
  left : ∀ {first second other}, equal first second →
    opposed first other → opposed second other
  right : ∀ {first second other}, equal first second →
    opposed other first → opposed other second
  unchained : ∀ {first second third}, opposed first second →
    ¬ opposed second third
  unique : ∀ {first second other}, opposed first other →
    opposed second other → equal first second

namespace Lawful

variable {opposed equal : α → α → Bool} (lawful : Lawful opposed equal)

include lawful

theorem irreflexive (operand : α) : ¬ opposed operand operand :=
  fun against => lawful.unchained against against

end Lawful

section Outer

variable {opposed equal : α → α → Bool}

/-- The operands struck out once each of the first operands has been the left
of its pairs: those equal to an earlier one of them, those to which one of them
is opposed, and those of them which are opposed to anything. -/
def Spent
    (opposed equal : α → α → Bool) (placed visited : List (α × Nat))
    (operand : α × Nat) : Prop :=
  (∃ earlier ∈ visited,
      earlier.2 < operand.2 ∧ equal earlier.1 operand.1) ∨
    (∃ left ∈ visited, opposed left.1 operand.1) ∨
    (operand ∈ visited ∧ ∃ right ∈ placed, opposed operand.1 right.1)

variable (lawful : Lawful opposed equal)
  {placed visited : List (α × Nat)} {left : α × Nat}
  (ordered : ∀ earlier ∈ visited, earlier.2 < left.2)

include lawful

/-- An operand struck out before its turn adds nothing on its turn. -/
theorem spent_append_of_spent
    (ordered : ∀ earlier ∈ visited, earlier.2 < left.2)
    (spent : Spent opposed equal placed visited left)
    (operand : α × Nat) :
    Spent opposed equal placed (visited ++ [left]) operand ↔
      Spent opposed equal placed visited operand := by
  have absent : left ∉ visited := fun member =>
    Nat.lt_irrefl _ (ordered left member)
  constructor
  · rintro (⟨earlier, member, before, same⟩ | ⟨other, member, against⟩ |
      ⟨member, right, placedRight, against⟩)
    · rcases List.mem_append.mp member with old | new
      · exact Or.inl ⟨earlier, old, before, same⟩
      · obtain rfl := List.mem_singleton.mp new
        rcases spent with ⟨first, old, beforeLeft, alike⟩ |
          ⟨other, old, against⟩ | ⟨present, _⟩
        · exact Or.inl ⟨first, old, Nat.lt_trans beforeLeft before,
            lawful.trans alike same⟩
        · exact Or.inr (Or.inl ⟨other, old, lawful.right same against⟩)
        · exact (absent present).elim
    · rcases List.mem_append.mp member with old | new
      · exact Or.inr (Or.inl ⟨other, old, against⟩)
      · obtain rfl := List.mem_singleton.mp new
        rcases spent with ⟨first, old, _, alike⟩ |
          ⟨negative, _, conflict⟩ | ⟨present, _⟩
        · exact Or.inr (Or.inl
            ⟨first, old, lawful.left (lawful.symm alike) against⟩)
        · exact (lawful.unchained conflict against).elim
        · exact (absent present).elim
    · rcases List.mem_append.mp member with old | new
      · exact Or.inr (Or.inr ⟨old, right, placedRight, against⟩)
      · obtain rfl := List.mem_singleton.mp new
        exact spent
  · rintro (⟨earlier, member, before, same⟩ | ⟨other, member, against⟩ |
      ⟨member, partner⟩)
    · exact Or.inl
        ⟨earlier, List.mem_append_left _ member, before, same⟩
    · exact Or.inr (Or.inl ⟨other, List.mem_append_left _ member, against⟩)
    · exact Or.inr (Or.inr ⟨List.mem_append_left _ member, partner⟩)

omit lawful in
/-- Operands in order of position, split at one of them. -/
theorem mem_visited_or_later
    {rest : List (α × Nat)}
    (sorted : (visited ++ left :: rest).Pairwise fun first second =>
      first.2 < second.2)
    {operand : α × Nat} (member : operand ∈ visited ++ left :: rest) :
    (operand ∈ visited ∧ operand.2 < left.2) ∨ operand = left ∨
      left.2 < operand.2 := by
  obtain ⟨_, later, before⟩ := List.pairwise_append.mp sorted
  rcases List.mem_append.mp member with old | new
  · exact Or.inl ⟨old, before operand old left List.mem_cons_self⟩
  · rcases List.mem_cons.mp new with own | after
    · exact Or.inr (Or.inl own)
    · exact Or.inr (Or.inr ((List.pairwise_cons.mp later).1 operand after))

/-- The first operand of a class. -/
theorem exists_first
    (operand : α × Nat) (member : operand ∈ placed) :
    ∃ first ∈ placed, equal first.1 operand.1 ∧
      ∀ earlier ∈ placed, earlier.2 < first.2 →
        ¬ equal earlier.1 first.1 := by
  induction position : operand.2 using Nat.strongRecOn
    generalizing operand with
  | ind position inductionHypothesis =>
      by_cases preceded : ∃ earlier ∈ placed,
          earlier.2 < operand.2 ∧ equal earlier.1 operand.1
      · obtain ⟨earlier, present, before, same⟩ := preceded
        obtain ⟨first, firstMember, alike, least⟩ := inductionHypothesis
          earlier.2 (position ▸ before) earlier present rfl
        exact ⟨first, firstMember, lawful.trans alike same, least⟩
      · push Not at preceded
        exact ⟨operand, member, lawful.refl operand.1, fun earlier present
          before same => preceded earlier present before same⟩

section Turn

variable {rest : List (α × Nat)} {struck : List Nat}
  (split : placed = visited ++ left :: rest)
  (sorted : placed.Pairwise fun first second => first.2 < second.2)
  (unspent : ¬ Spent opposed equal placed visited left)

include split sorted unspent

/-- An operand that is left on its turn clashes with whatever it is opposed to,
since the first operand of that class is left as well. -/
theorem clashes_iff_of_unspent
    (marks : ∀ operand ∈ placed,
      operand.2 ∈ struck ↔ Spent opposed equal placed visited operand) :
    Clashes opposed left.1 left.2 placed struck ↔
      ∃ right ∈ placed, opposed left.1 right.1 := by
  constructor
  · rintro ⟨right, member, _, _, against⟩
    exact ⟨right, member, against⟩
  · rintro ⟨right, member, against⟩
    obtain ⟨first, firstMember, alike, least⟩ :=
      exists_first lawful right member
    have conflict : opposed left.1 first.1 :=
      lawful.right (lawful.symm alike) against
    refine ⟨first, firstMember, ?_, ?_, conflict⟩
    · intro same
      subst split
      rcases mem_visited_or_later sorted firstMember with
        ⟨_, before⟩ | own | after
      · omega
      · exact lawful.irreflexive left.1 (own ▸ conflict)
      · omega
    · rw [marks first firstMember]
      rintro (⟨earlier, old, before, same⟩ | ⟨other, old, opposing⟩ |
        ⟨_, partner, _, chained⟩)
      · exact least earlier (split ▸ List.mem_append_left _ old) before same
      · have before := (List.pairwise_append.mp (split ▸ sorted)).2.2 other
          old left List.mem_cons_self
        exact unspent
          (Or.inl ⟨other, old, before, lawful.unique opposing conflict⟩)
      · exact lawful.unchained conflict chained

/-- What the turn of an operand that is left strikes out. -/
theorem spent_append_of_unspent
    {operand : α × Nat} (member : operand ∈ placed) :
    Spent opposed equal placed (visited ++ [left]) operand ↔
      Spent opposed equal placed visited operand ∨
        (operand ≠ left ∧
          (opposed left.1 operand.1 ∨ equal left.1 operand.1)) ∨
        (operand = left ∧ ∃ right ∈ placed, opposed left.1 right.1) := by
  constructor
  · rintro (⟨earlier, present, before, same⟩ | ⟨other, present, against⟩ |
      ⟨present, partner⟩)
    · rcases List.mem_append.mp present with old | new
      · exact Or.inl (Or.inl ⟨earlier, old, before, same⟩)
      · obtain rfl := List.mem_singleton.mp new
        refine Or.inr (Or.inl ⟨?_, Or.inr same⟩)
        rintro rfl
        exact Nat.lt_irrefl _ before
    · rcases List.mem_append.mp present with old | new
      · exact Or.inl (Or.inr (Or.inl ⟨other, old, against⟩))
      · obtain rfl := List.mem_singleton.mp new
        refine Or.inr (Or.inl ⟨?_, Or.inl against⟩)
        rintro rfl
        exact lawful.irreflexive _ against
    · rcases List.mem_append.mp present with old | new
      · exact Or.inl (Or.inr (Or.inr ⟨old, partner⟩))
      · obtain rfl := List.mem_singleton.mp new
        exact Or.inr (Or.inr ⟨rfl, partner⟩)
  · rintro (spent | ⟨other, against | same⟩ | ⟨rfl, partner⟩)
    · rcases spent with ⟨earlier, old, before, same⟩ |
        ⟨other, old, against⟩ | ⟨old, partner⟩
      · exact Or.inl ⟨earlier, List.mem_append_left _ old, before, same⟩
      · exact Or.inr (Or.inl ⟨other, List.mem_append_left _ old, against⟩)
      · exact Or.inr (Or.inr ⟨List.mem_append_left _ old, partner⟩)
    · exact Or.inr (Or.inl ⟨left, by simp, against⟩)
    · subst split
      rcases mem_visited_or_later sorted member with
        ⟨old, before⟩ | own | after
      · exact (unspent
          (Or.inl ⟨operand, old, before, lawful.symm same⟩)).elim
      · exact (other own).elim
      · exact Or.inl ⟨left, by simp, after, same⟩
    · exact Or.inr (Or.inr ⟨by simp, partner⟩)

end Turn

/-- An operand opposed to another is left until its turn, as long as none of
its class had a turn before. -/
theorem not_spent_of_quiet
    (quiet : ∀ earlier ∈ visited, ∀ right ∈ placed,
      ¬ opposed earlier.1 right.1)
    (fresh : left ∉ visited) {right : α × Nat} (member : right ∈ placed)
    (against : opposed left.1 right.1) :
    ¬ Spent opposed equal placed visited left := by
  rintro (⟨earlier, old, _, same⟩ | ⟨other, _, opposing⟩ | ⟨old, _⟩)
  · exact quiet earlier old right member
      (lawful.left (lawful.symm same) against)
  · exact lawful.unchained opposing against
  · exact fresh old

/-! ### Invariant of the outer pass -/

/-- The outer pass has given some operands their turn without being decided, and
has struck out the operands spent by then. -/
structure Passed
    (connective : Connective) (opposed equal : α → α → Bool)
    (placed visited : List (α × Nat)) (struck : List Nat) : Prop where
  marks : ∀ operand ∈ placed,
    operand.2 ∈ struck ↔ Spent opposed equal placed visited operand
  quiet : connective = .conjunction → ∀ earlier ∈ visited,
    ∀ right ∈ placed, ¬ opposed earlier.1 right.1

omit lawful in
theorem passed_nil
    (connective : Connective) (placed : List (α × Nat)) :
    Passed connective opposed equal placed [] [] where
  marks operand _ := by simp [Spent]
  quiet _ earlier member := by cases member

namespace Passed

variable {connective : Connective} {rest : List (α × Nat)}
  {struck after : List Nat}
  (passed : Passed connective opposed equal placed visited struck)

include passed

omit lawful in
theorem quiet_append
    (silent : connective = .conjunction → ∀ right ∈ placed,
      ¬ opposed left.1 right.1)
    (conjunction : connective = .conjunction) :
    ∀ earlier ∈ visited ++ [left], ∀ right ∈ placed,
      ¬ opposed earlier.1 right.1 := by
  intro earlier old right member
  rcases List.mem_append.mp old with before | own
  · exact passed.quiet conjunction earlier before right member
  · obtain rfl := List.mem_singleton.mp own
    exact silent conjunction right member

/-- An operand struck out before its turn is passed over. -/
theorem skip
    (ordered : ∀ earlier ∈ visited, earlier.2 < left.2)
    (member : left ∈ placed) (present : left.2 ∈ struck) :
    Passed connective opposed equal placed (visited ++ [left]) struck := by
  have spent := (passed.marks left member).mp present
  have fresh : left ∉ visited := fun old =>
    Nat.lt_irrefl _ (ordered left old)
  refine ⟨fun operand among => ?_, passed.quiet_append ?_⟩
  · rw [passed.marks operand among,
      spent_append_of_spent lawful ordered spent operand]
  · intro conjunction right rightMember against
    exact not_spent_of_quiet lawful (passed.quiet conjunction) fresh
      rightMember against spent

/-- An operand left on its turn strikes out what it spends. -/
theorem turn
    (split : placed = visited ++ left :: rest)
    (sorted : placed.Pairwise fun first second => first.2 < second.2)
    (absent : left.2 ∉ struck)
    (strikes : strikeAgainst connective opposed equal left.1 left.2 placed
      struck = some after) :
    Passed connective opposed equal placed (visited ++ [left]) after := by
  have leftMember : left ∈ placed := by simp [split]
  have unspent := mt (passed.marks left leftMember).mpr absent
  have distinct : (placed.map Prod.snd).Nodup :=
    List.pairwise_map.mpr (sorted.imp Nat.ne_of_lt)
  have clash :=
    clashes_iff_of_unspent lawful split sorted unspent passed.marks
  refine ⟨fun operand member => ?_, passed.quiet_append ?_⟩
  · have same : operand.2 = left.2 ↔ operand = left :=
      ⟨fun equal => List.inj_on_of_nodup_map distinct member leftMember
        equal, fun equal => equal ▸ rfl⟩
    rw [mem_strikeAgainst_iff distinct strikes, clash,
      spent_append_of_unspent lawful split sorted unspent member,
      passed.marks operand member, ← same]
    refine or_congr_right (or_congr_left ?_)
    constructor
    · rintro ⟨right, rightMember, equal, other, related⟩
      obtain rfl :=
        List.inj_on_of_nodup_map distinct rightMember member equal
      exact ⟨mt same.mpr other, related⟩
    · rintro ⟨other, related⟩
      exact ⟨operand, member, rfl, mt same.mp other, related⟩
  · intro conjunction right member against
    have decided : strikeAgainst connective opposed equal left.1 left.2
        placed struck = none :=
      (strikeAgainst_eq_none_iff distinct).mpr
        ⟨conjunction, clash.mpr ⟨right, member, against⟩⟩
    rw [strikes] at decided
    cases decided

/-- An operand left on its turn that decides the pass is opposed to another
operand of a conjunction. -/
theorem decided
    (split : placed = visited ++ left :: rest)
    (sorted : placed.Pairwise fun first second => first.2 < second.2)
    (absent : left.2 ∉ struck)
    (decides : strikeAgainst connective opposed equal left.1 left.2 placed
      struck = none) :
    connective = .conjunction ∧
      ∃ right ∈ placed, opposed left.1 right.1 := by
  have leftMember : left ∈ placed := by simp [split]
  have unspent := mt (passed.marks left leftMember).mpr absent
  have distinct : (placed.map Prod.snd).Nodup :=
    List.pairwise_map.mpr (sorted.imp Nat.ne_of_lt)
  obtain ⟨conjunction, clashes⟩ :=
    (strikeAgainst_eq_none_iff distinct).mp decides
  exact ⟨conjunction, (clashes_iff_of_unspent lawful split sorted unspent
    passed.marks).mp clashes⟩

/-- The outer pass is decided exactly if a conjunction has opposed operands, and
otherwise passes over all operands. -/
theorem strike_spec
    (todo : List (α × Nat)) (split : placed = visited ++ todo)
    (sorted : placed.Pairwise fun first second => first.2 < second.2) :
    (strike connective opposed equal placed todo struck = none ∧
        connective = .conjunction ∧
        ∃ left ∈ placed, ∃ right ∈ placed, opposed left.1 right.1) ∨
      ∃ final, strike connective opposed equal placed todo struck =
          some final ∧
        Passed connective opposed equal placed placed final := by
  induction todo generalizing visited struck with
  | nil =>
      obtain rfl : placed = visited := by simpa using split
      exact Or.inr ⟨struck, rfl, passed⟩
  | cons left rest inductionHypothesis =>
      have ordered : ∀ earlier ∈ visited, earlier.2 < left.2 :=
        fun earlier old => (List.pairwise_append.mp (split ▸ sorted)).2.2
          earlier old left List.mem_cons_self
      have leftMember : left ∈ placed := by simp [split]
      have next : placed = (visited ++ [left]) ++ rest := by simp [split]
      by_cases present : left.2 ∈ struck
      · rw [strike, if_pos present]
        exact inductionHypothesis
          (passed.skip lawful ordered leftMember present) next
      · rw [strike, if_neg present]
        cases strikes : strikeAgainst connective opposed equal left.1 left.2
            placed struck with
        | none =>
            obtain ⟨conjunction, clash⟩ :=
              passed.decided lawful split sorted present strikes
            exact Or.inl ⟨rfl, conjunction, left, leftMember, clash⟩
        | some after =>
            exact inductionHypothesis
              (passed.turn lawful split sorted present strikes) next

end Passed

end Outer

end Pairing

end NamedLogic
