import NamedLogic.Proofs.PairReduction

/-!
# What comparing all pairs leaves

Of operands compared in pairs, those with an opposed partner are dropped, and
of the others the first of each class is kept, in order.  Neither repeating an
operand nor replacing the operands one by one by what they stand for makes a
difference.
-/

namespace NamedLogic

namespace Pairing

variable {α β : Type}

/-! ## What remains -/

/-- The operands which are equal to no operand before them. -/
def firsts (equal : α → α → Bool) : List α → List α
  | [] => []
  | operand :: operands =>
      operand :: (firsts equal operands).filter fun other =>
        !equal operand other

/-- Whether an operand has an opposed partner among the operands. -/
def cancelled
    (opposed : α → α → Bool) (operands : List α) (operand : α) : Bool :=
  operands.any fun other => opposed operand other || opposed other operand

/-- The first operands of the classes without opposed partners. -/
def remaining (opposed equal : α → α → Bool) (operands : List α) : List α :=
  firsts equal (operands.filter fun operand =>
    !cancelled opposed operands operand)

/-- Whether two of the operands are opposed. -/
def Conflicting (opposed : α → α → Bool) (operands : List α) : Prop :=
  ∃ left ∈ operands, ∃ right ∈ operands, opposed left right

section Remaining

variable {opposed equal : α → α → Bool}

theorem firsts_sublist (operands : List α) :
    (firsts equal operands).Sublist operands := by
  induction operands with
  | nil => exact List.Sublist.refl []
  | cons operand operands inductionHypothesis =>
      exact (List.filter_sublist.trans inductionHypothesis).cons_cons operand

theorem cancelled_iff {operands : List α} {operand : α} :
    cancelled opposed operands operand ↔ ∃ other ∈ operands,
      opposed operand other ∨ opposed other operand := by
  simp [cancelled]

theorem not_cancelled_of_not_conflicting
    {operands : List α} {operand : α}
    (compatible : ¬ Conflicting opposed operands)
    (member : operand ∈ operands) :
    ¬ cancelled opposed operands operand := by
  rw [cancelled_iff]
  rintro ⟨other, present, forward | backward⟩
  · exact compatible ⟨operand, member, other, present, forward⟩
  · exact compatible ⟨other, present, operand, member, backward⟩

theorem mem_remaining
    {operands : List α} {operand : α}
    (member : operand ∈ remaining opposed equal operands) :
    operand ∈ operands ∧ ¬ cancelled opposed operands operand := by
  have kept := (firsts_sublist _).subset member
  simpa using List.mem_filter.mp kept

theorem pairwise_firsts (operands : List α) :
    (firsts equal operands).Pairwise fun first second =>
      ¬ equal first second := by
  induction operands with
  | nil => exact List.Pairwise.nil
  | cons operand operands inductionHypothesis =>
      refine List.pairwise_cons.mpr ⟨?_, inductionHypothesis.filter _⟩
      intro other member
      simpa using (List.mem_filter.mp member).2

/-- What remains has no two equal operands. -/
theorem pairwise_remaining (operands : List α) :
    (remaining opposed equal operands).Pairwise fun first second =>
      ¬ equal first second :=
  pairwise_firsts _

/-- What remains has no opposed operands. -/
theorem not_conflicting_remaining (operands : List α) :
    ¬ Conflicting opposed (remaining opposed equal operands) := by
  rintro ⟨left, leftMember, right, rightMember, against⟩
  obtain ⟨_, free⟩ := mem_remaining leftMember
  obtain ⟨present, _⟩ := mem_remaining rightMember
  exact free (cancelled_iff.mpr ⟨right, present, Or.inl against⟩)

theorem firsts_eq_self
    {operands : List α}
    (distinct : operands.Pairwise fun first second =>
      ¬ equal first second) :
    firsts equal operands = operands := by
  induction operands with
  | nil => rfl
  | cons operand operands inductionHypothesis =>
      obtain ⟨apart, rest⟩ := List.pairwise_cons.mp distinct
      rw [firsts, inductionHypothesis rest]
      refine congrArg _ (List.filter_eq_self.mpr fun other member => ?_)
      simpa using apart other member

theorem filter_cancelled_eq_self
    {operands : List α} (compatible : ¬ Conflicting opposed operands) :
    (operands.filter fun operand => !cancelled opposed operands operand) =
      operands := by
  refine List.filter_eq_self.mpr fun operand member => ?_
  simpa using not_cancelled_of_not_conflicting compatible member

/-- Nothing is dropped from operands that are neither equal nor opposed. -/
theorem remaining_eq_self
    {operands : List α}
    (distinct : operands.Pairwise fun first second =>
      ¬ equal first second)
    (compatible : ¬ Conflicting opposed operands) :
    remaining opposed equal operands = operands := by
  rw [remaining, filter_cancelled_eq_self compatible,
    firsts_eq_self distinct]

/-- Filtering by what equal operands share commutes with keeping the first of
each class. -/
theorem filter_firsts
    (keep : α → Bool)
    (respects : ∀ {first second}, equal first second →
      keep second → keep first)
    (operands : List α) :
    (firsts equal operands).filter keep =
      firsts equal (operands.filter keep) := by
  induction operands with
  | nil => rfl
  | cons operand operands inductionHypothesis =>
      by_cases stays : keep operand
      · rw [firsts, List.filter_cons_of_pos stays,
          List.filter_cons_of_pos stays, firsts, ← inductionHypothesis,
          List.filter_comm]
      · rw [firsts, List.filter_cons_of_neg stays,
          List.filter_cons_of_neg stays, ← inductionHypothesis,
          List.filter_filter]
        refine List.filter_congr fun other _ => ?_
        cases keeps : keep other with
        | false => rfl
        | true =>
            cases same : equal operand other with
            | false => rfl
            | true => exact (stays (respects same keeps)).elim

variable (lawful : Lawful opposed equal)

include lawful

/-- The first operand of a class stands for all of it. -/
theorem exists_mem_firsts
    {operands : List α} {operand : α} (member : operand ∈ operands) :
    ∃ first ∈ firsts equal operands, equal first operand := by
  induction operands with
  | nil => cases member
  | cons head operands inductionHypothesis =>
      by_cases same : equal head operand
      · exact ⟨head, List.mem_cons_self, same⟩
      · rcases List.mem_cons.mp member with rfl | later
        · exact (same (lawful.refl operand)).elim
        · obtain ⟨first, present, alike⟩ := inductionHypothesis later
          refine ⟨first, List.mem_cons_of_mem _ ?_, alike⟩
          refine List.mem_filter.mpr ⟨present, ?_⟩
          rw [Bool.not_eq_true', Bool.eq_false_iff]
          exact fun alikeHead => same (lawful.trans alikeHead alike)

theorem exists_mem_remaining
    {operands : List α} {operand : α} (member : operand ∈ operands)
    (free : ¬ cancelled opposed operands operand) :
    ∃ first ∈ remaining opposed equal operands, equal first operand :=
  exists_mem_firsts lawful (List.mem_filter.mpr ⟨member, by simpa using free⟩)

/-! ## The pass over all pairs -/

omit lawful in
/-- Keeping the operands without an equal one at an earlier position. -/
theorem map_filter_zipIdx_eq_firsts
    (keep : α → Bool)
    (respects : ∀ {first second}, equal first second →
      keep second → keep first)
    (kept : α × Nat → Bool) (operands : List α) (start : Nat)
    (spec : ∀ placed ∈ operands.zipIdx start, kept placed ↔
      keep placed.1 ∧ ∀ earlier ∈ operands.zipIdx start,
        earlier.2 < placed.2 → ¬ equal earlier.1 placed.1) :
    ((operands.zipIdx start).filter kept).map Prod.fst =
      firsts equal (operands.filter keep) := by
  classical
  induction operands generalizing start kept with
  | nil => rfl
  | cons operand operands inductionHypothesis =>
      rw [List.zipIdx_cons] at spec
      have later : ∀ placed ∈ operands.zipIdx (start + 1),
          start < placed.2 := fun placed member =>
        (List.mem_zipIdx member).1
      -- After the head, an operand is kept if the rest alone would keep it
      -- and the head is not equal to it.
      let keptLater : α × Nat → Bool := fun placed =>
        keep placed.1 && decide (∀ earlier ∈ operands.zipIdx (start + 1),
          earlier.2 < placed.2 → ¬ equal earlier.1 placed.1)
      have rest := inductionHypothesis keptLater (start + 1) fun placed _ =>
        by simp [keptLater]
      have tail : ((operands.zipIdx (start + 1)).filter kept).map Prod.fst =
          (firsts equal (operands.filter keep)).filter fun other =>
            !equal operand other := by
        rw [← rest, List.filter_map, List.filter_filter]
        refine congrArg _ (List.filter_congr fun placed member => ?_)
        rw [Bool.eq_iff_iff, spec placed (List.mem_cons_of_mem _ member)]
        simp only [List.forall_mem_cons, later placed member,
          forall_const, keptLater, Function.comp_apply, Bool.and_eq_true,
          Bool.not_eq_true', decide_eq_true_eq, Bool.not_eq_true]
        tauto
      have head := spec (operand, start) List.mem_cons_self
      rw [List.zipIdx_cons, List.filter_cons, List.filter_cons]
      by_cases stays : keep operand
      · have keptHead : kept (operand, start) := head.mpr
          ⟨stays, fun earlier member before => by
            rcases List.mem_cons.mp member with rfl | after
            · exact (Nat.lt_irrefl _ before).elim
            · have := later earlier after
              simp only at before
              omega⟩
        rw [if_pos keptHead, if_pos stays, List.map_cons, tail, firsts]
      · have droppedHead : ¬ kept (operand, start) :=
          fun present => stays (head.mp present).1
        rw [if_neg droppedHead, if_neg stays, tail]
        refine List.filter_eq_self.mpr fun other member => ?_
        have keeps : keep other := (List.mem_filter.mp
          ((firsts_sublist _).subset member)).2
        rw [Bool.not_eq_true', Bool.eq_false_iff]
        exact fun same => stays (respects same keeps)

theorem cancelled_of_equal
    {operands : List α} {first second : α} (same : equal first second)
    (dropped : cancelled opposed operands first) :
    cancelled opposed operands second := by
  obtain ⟨other, member, against⟩ := cancelled_iff.mp dropped
  exact cancelled_iff.mpr ⟨other, member,
    against.imp (lawful.left same) (lawful.right same)⟩

omit lawful in
theorem pairwise_zipIdx (operands : List α) :
    operands.zipIdx.Pairwise fun first second => first.2 < second.2 := by
  rw [← List.pairwise_map, List.zipIdx_map_snd]
  exact List.pairwise_lt_range'

omit lawful in
theorem exists_placed
    {operands : List α} {operand : α} (member : operand ∈ operands) :
    ∃ placed ∈ operands.zipIdx, placed.1 = operand := by
  have present : operand ∈ operands.zipIdx.map Prod.fst := by
    rwa [List.zipIdx_map_fst]
  exact List.mem_map.mp present

omit lawful in
/-- After the turns of all operands, those spent are the ones that repeat an
earlier one, and the cancelled ones. -/
theorem spent_zipIdx_iff
    {operands : List α} {placed : α × Nat}
    (member : placed ∈ operands.zipIdx) :
    Spent opposed equal operands.zipIdx operands.zipIdx placed ↔
      (∃ earlier ∈ operands.zipIdx,
        earlier.2 < placed.2 ∧ equal earlier.1 placed.1) ∨
        cancelled opposed operands placed.1 := by
  rw [Spent, cancelled_iff]
  refine or_congr_right ?_
  constructor
  · rintro (⟨left, present, against⟩ | ⟨_, right, present, against⟩)
    · exact ⟨left.1, List.fst_mem_of_mem_zipIdx present, Or.inr against⟩
    · exact ⟨right.1, List.fst_mem_of_mem_zipIdx present, Or.inl against⟩
  · rintro ⟨other, present, against⟩
    obtain ⟨there, thereMember, rfl⟩ := exists_placed present
    rcases against with forward | backward
    · exact Or.inr ⟨member, there, thereMember, forward⟩
    · exact Or.inl ⟨there, thereMember, backward⟩

/-- The comparison of all pairs decides a conjunction with opposed operands,
and otherwise leaves the first operands of the classes without opposed
partners. -/
theorem reduce?_spec (connective : Connective) (operands : List α) :
    (reduce? connective opposed equal operands = none ∧
        connective = .conjunction ∧ Conflicting opposed operands) ∨
      (reduce? connective opposed equal operands =
          some (remaining opposed equal operands) ∧
        (connective = .conjunction → ¬ Conflicting opposed operands)) := by
  have start : Passed connective opposed equal operands.zipIdx [] [] :=
    passed_nil connective _
  rcases start.strike_spec lawful operands.zipIdx rfl
      (pairwise_zipIdx operands) with
    ⟨decided, conjunction, left, leftMember, right, rightMember, against⟩ |
      ⟨final, ended, marks, quiet⟩
  · refine Or.inl ⟨?_, conjunction, left.1,
      List.fst_mem_of_mem_zipIdx leftMember, right.1,
      List.fst_mem_of_mem_zipIdx rightMember, against⟩
    rw [reduce?, decided, Option.map_none]
  · refine Or.inr ⟨?_, ?_⟩
    · rw [reduce?, ended, Option.map_some]
      refine congrArg some (map_filter_zipIdx_eq_firsts _ ?_ _ operands 0 ?_)
      · intro first second same keeps
        rw [Bool.not_eq_true', Bool.eq_false_iff] at keeps ⊢
        exact fun dropped => keeps (cancelled_of_equal lawful same dropped)
      · intro placed member
        rw [decide_eq_true_eq, marks placed member, spent_zipIdx_iff member,
          Bool.not_eq_true', Bool.eq_false_iff]
        push Not
        exact and_comm
    · rintro conjunction ⟨left, leftMember, right, rightMember, against⟩
      obtain ⟨first, firstMember, rfl⟩ := exists_placed leftMember
      obtain ⟨second, secondMember, rfl⟩ := exists_placed rightMember
      exact quiet conjunction first firstMember second secondMember against

/-! ## Repeated operands -/

omit lawful in
theorem mem_append_cons_iff_of_mem
    {front back : List α} {operand : α} (repeated : operand ∈ front)
    {other : α} :
    other ∈ front ++ operand :: back ↔ other ∈ front ++ back := by
  simp only [List.mem_append, List.mem_cons]
  constructor
  · rintro (before | rfl | after)
    · exact Or.inl before
    · exact Or.inl repeated
    · exact Or.inr after
  · exact Or.imp_right Or.inr

/-- A repeated operand does not matter. -/
theorem firsts_append_cons_of_mem
    {front back : List α} {operand : α} (repeated : operand ∈ front) :
    firsts equal (front ++ operand :: back) =
      firsts equal (front ++ back) := by
  induction front with
  | nil => cases repeated
  | cons head front inductionHypothesis =>
      rw [List.cons_append, List.cons_append, firsts, firsts]
      refine congrArg _ ?_
      by_cases same : equal head operand
      · have respects : ∀ {first second}, equal first second →
            !equal head second → !equal head first := by
          intro first second alike apart
          rw [Bool.not_eq_true', Bool.eq_false_iff] at apart ⊢
          exact fun other => apart (lawful.trans other alike)
        rw [filter_firsts (fun other => !equal head other) respects,
          filter_firsts (fun other => !equal head other) respects,
          List.filter_append, List.filter_append,
          List.filter_cons_of_neg (by simpa using same)]
      · rcases List.mem_cons.mp repeated with rfl | later
        · exact (same (lawful.refl operand)).elim
        · rw [inductionHypothesis later]

theorem remaining_append_cons_of_mem
    {front back : List α} {operand : α} (repeated : operand ∈ front) :
    remaining opposed equal (front ++ operand :: back) =
      remaining opposed equal (front ++ back) := by
  have same : ∀ other, cancelled opposed (front ++ operand :: back) other =
      cancelled opposed (front ++ back) other := by
    intro other
    rw [Bool.eq_iff_iff, cancelled_iff, cancelled_iff]
    simp only [mem_append_cons_iff_of_mem repeated]
  rw [remaining, remaining]
  simp only [same, List.filter_append]
  cases dropped : cancelled opposed (front ++ back) operand with
  | true => rw [List.filter_cons_of_neg (by simp [dropped])]
  | false =>
      rw [List.filter_cons_of_pos (by simp [dropped])]
      exact firsts_append_cons_of_mem lawful
        (List.mem_filter.mpr ⟨repeated, by simp [dropped]⟩)

omit lawful in
theorem conflicting_append_cons_of_mem_iff
    {front back : List α} {operand : α} (repeated : operand ∈ front) :
    Conflicting opposed (front ++ operand :: back) ↔
      Conflicting opposed (front ++ back) := by
  simp only [Conflicting, mem_append_cons_iff_of_mem repeated]

/-- Repeating an operand does not change what the comparison leaves. -/
theorem reduce?_append_cons_of_mem
    (connective : Connective) {front back : List α} {operand : α}
    (repeated : operand ∈ front) :
    reduce? connective opposed equal (front ++ operand :: back) =
      reduce? connective opposed equal (front ++ back) := by
  rcases reduce?_spec lawful connective (front ++ back) with
    ⟨decided, conjunction, conflict⟩ | ⟨reduced, compatible⟩ <;>
  rcases reduce?_spec lawful connective (front ++ operand :: back) with
    ⟨decided', conjunction', conflict'⟩ | ⟨reduced', compatible'⟩
  · rw [decided, decided']
  · rw [conflicting_append_cons_of_mem_iff repeated] at compatible'
    exact (compatible' conjunction conflict).elim
  · rw [conflicting_append_cons_of_mem_iff repeated] at conflict'
    exact (compatible conjunction' conflict').elim
  · rw [reduced, reduced', remaining_append_cons_of_mem lawful repeated]

end Remaining

/-! ## Operands standing for others -/

section Map

variable {opposed equal : α → α → Bool} {opposed' equal' : β → β → Bool}
  {meaning : α → β}

theorem strikeAgainst_map
    (connective : Connective) {left : α} (position : Nat)
    {operands : List (α × Nat)} (struck : List Nat)
    (opposes : ∀ right ∈ operands,
      opposed left right.1 = opposed' (meaning left) (meaning right.1))
    (equates : ∀ right ∈ operands,
      equal left right.1 = equal' (meaning left) (meaning right.1)) :
    strikeAgainst connective opposed' equal' (meaning left) position
        (operands.map (Prod.map meaning id)) struck =
      strikeAgainst connective opposed equal left position operands
        struck := by
  induction operands generalizing struck with
  | nil => rfl
  | cons right operands inductionHypothesis =>
      obtain ⟨right, other⟩ := right
      have rest := fun struck => inductionHypothesis struck
        (fun right member =>
          opposes right (List.mem_cons_of_mem _ member))
        (fun right member =>
          equates right (List.mem_cons_of_mem _ member))
      rw [List.map_cons, Prod.map_apply, strikeAgainst_cons,
        strikeAgainst_cons, ← opposes _ List.mem_cons_self,
        ← equates _ List.mem_cons_self]
      simp only [id, rest]

theorem strike_map
    (connective : Connective) {operands todo : List (α × Nat)}
    (struck : List Nat)
    (opposes : ∀ left ∈ todo, ∀ right ∈ operands,
      opposed left.1 right.1 =
        opposed' (meaning left.1) (meaning right.1))
    (equates : ∀ left ∈ todo, ∀ right ∈ operands,
      equal left.1 right.1 = equal' (meaning left.1) (meaning right.1)) :
    strike connective opposed' equal'
        (operands.map (Prod.map meaning id))
        (todo.map (Prod.map meaning id)) struck =
      strike connective opposed equal operands todo struck := by
  induction todo generalizing struck with
  | nil => rfl
  | cons left todo inductionHypothesis =>
      have rest := funext fun struck => inductionHypothesis struck
        (fun left member => opposes left (List.mem_cons_of_mem _ member))
        (fun left member => equates left (List.mem_cons_of_mem _ member))
      have pass := strikeAgainst_map connective left.2 struck
        (opposes left List.mem_cons_self) (equates left List.mem_cons_self)
      obtain ⟨left, position⟩ := left
      rw [List.map_cons, Prod.map_apply, strike, strike]
      simp only [id, pass, rest]

/-- What comparing all pairs leaves depends on the operands only through
whatever settles their equality and opposition. -/
theorem reduce?_map
    (connective : Connective) {operands : List α}
    (opposes : ∀ left ∈ operands, ∀ right ∈ operands,
      opposed left right = opposed' (meaning left) (meaning right))
    (equates : ∀ left ∈ operands, ∀ right ∈ operands,
      equal left right = equal' (meaning left) (meaning right)) :
    reduce? connective opposed' equal' (operands.map meaning) =
      (reduce? connective opposed equal operands).map
        (List.map meaning) := by
  have among : ∀ {placed}, placed ∈ operands.zipIdx → placed.1 ∈ operands :=
    fun member => List.fst_mem_of_mem_zipIdx member
  rw [reduce?, reduce?, List.zipIdx_map, strike_map connective []
    (fun left leftMember right rightMember =>
      opposes left.1 (among leftMember) right.1 (among rightMember))
    (fun left leftMember right rightMember =>
      equates left.1 (among leftMember) right.1 (among rightMember)),
    Option.map_map]
  refine congrArg₂ _ (funext fun struck => ?_) rfl
  simp only [Function.comp_apply, List.filter_map, List.map_map]
  rfl

/-- Only equality and opposition of the operands among each other matter. -/
theorem reduce?_congr
    {other otherEqual : α → α → Bool} (connective : Connective)
    {operands : List α}
    (opposes : ∀ left ∈ operands, ∀ right ∈ operands,
      opposed left right = other left right)
    (equates : ∀ left ∈ operands, ∀ right ∈ operands,
      equal left right = otherEqual left right) :
    reduce? connective other otherEqual operands =
      reduce? connective opposed equal operands := by
  have same := reduce?_map connective opposes equates
  simpa using same

variable (meaning)

theorem firsts_map (operands : List α) :
    firsts equal' (operands.map meaning) =
      (firsts (fun first second => equal' (meaning first) (meaning second))
        operands).map meaning := by
  induction operands with
  | nil => rfl
  | cons operand operands inductionHypothesis =>
      rw [List.map_cons, firsts, firsts, inductionHypothesis,
        List.filter_map, List.map_cons]
      rfl

theorem cancelled_map (operands : List α) (operand : α) :
    cancelled opposed' (operands.map meaning) (meaning operand) =
      cancelled
        (fun first second => opposed' (meaning first) (meaning second))
        operands operand := by
  rw [cancelled, List.any_map]
  rfl

theorem remaining_map (operands : List α) :
    remaining opposed' equal' (operands.map meaning) =
      (remaining
        (fun first second => opposed' (meaning first) (meaning second))
        (fun first second => equal' (meaning first) (meaning second))
        operands).map meaning := by
  rw [remaining, List.filter_map, firsts_map, remaining]
  simp only [Function.comp_def, cancelled_map]

theorem conflicting_map_iff {operands : List α} :
    Conflicting opposed' (operands.map meaning) ↔
      Conflicting
        (fun first second => opposed' (meaning first) (meaning second))
        operands := by
  simp [Conflicting]

end Map

end Pairing

end NamedLogic
