import NamedLogic.Proofs.TreeSoundness

/-!
# Operands up to structural equality

What is collected in a junction depends, up to structural equality, only on the
classes of alike trees that its operands make up.  Whether two operands are
opposed, and which of them have an opposed partner, are questions about classes,
and of every class without one a single operand is kept.  So neither the order of
the operands matters, nor how often each of them occurs.
-/

namespace NamedLogic

namespace Tree

/-- Each tree of either list is like some tree of the other. -/
structure SameClasses (firsts seconds : List Tree) : Prop where
  forth : ∀ first ∈ firsts, ∃ second ∈ seconds, first.alike second
  back : ∀ second ∈ seconds, ∃ first ∈ firsts, second.alike first

namespace SameClasses

variable {firsts seconds thirds fourths : List Tree}

theorem symm (same : SameClasses firsts seconds) :
    SameClasses seconds firsts :=
  ⟨same.back, same.forth⟩

theorem of_mem_iff
    (normal : ∀ first ∈ firsts, first.Normal)
    (same : ∀ tree, tree ∈ firsts ↔ tree ∈ seconds) :
    SameClasses firsts seconds where
  forth first member :=
    ⟨first, (same first).mp member, (normal first member).alike_refl⟩
  back second member := by
    have present := (same second).mpr member
    exact ⟨second, present, (normal second present).alike_refl⟩

theorem append
    (left : SameClasses firsts seconds) (right : SameClasses thirds fourths) :
    SameClasses (firsts ++ thirds) (seconds ++ fourths) := by
  constructor <;> intro tree member <;>
    rcases List.mem_append.mp member with before | after
  · obtain ⟨other, present, toOther⟩ := left.forth tree before
    exact ⟨other, List.mem_append_left _ present, toOther⟩
  · obtain ⟨other, present, toOther⟩ := right.forth tree after
    exact ⟨other, List.mem_append_right _ present, toOther⟩
  · obtain ⟨other, present, toOther⟩ := left.back tree before
    exact ⟨other, List.mem_append_left _ present, toOther⟩
  · obtain ⟨other, present, toOther⟩ := right.back tree after
    exact ⟨other, List.mem_append_right _ present, toOther⟩

theorem flatMap
    {items : List Tree} {left right : Tree → List Tree}
    (same : ∀ item ∈ items, SameClasses (left item) (right item)) :
    SameClasses (items.flatMap left) (items.flatMap right) := by
  induction items with
  | nil => exact ⟨nofun, nofun⟩
  | cons item items inductionHypothesis =>
      rw [List.flatMap_cons, List.flatMap_cons]
      exact (same item List.mem_cons_self).append <|
        inductionHypothesis fun other member =>
          same other (List.mem_cons_of_mem _ member)

end SameClasses

/-! ## Opposition of classes -/

section Opposition

variable {firsts seconds : List Tree}

/-- Trees like opposed normal trees are opposed. -/
theorem Normal.opposed_of_alike
    {left right otherLeft otherRight : Tree}
    (leftNormal : left.Normal) (rightNormal : right.Normal)
    (against : left.opposed right) (sameLeft : left.alike otherLeft)
    (sameRight : right.alike otherRight) :
    otherLeft.opposed otherRight := by
  obtain ⟨string, rfl, rfl⟩ := leftNormal.opposed_iff.mp against
  obtain rfl := atom_alike_iff.mp sameRight
  obtain ⟨_, rfl, inner⟩ := negation_alike_iff.mp sameLeft
  obtain rfl := atom_alike_iff.mp inner
  exact leftNormal.opposed_iff.mpr ⟨string, rfl, rfl⟩

variable (same : SameClasses firsts seconds)
  (normal : ∀ first ∈ firsts, first.Normal)

include same normal

theorem SameClasses.conflicting
    (conflict : Pairing.Conflicting opposed firsts) :
    Pairing.Conflicting opposed seconds := by
  obtain ⟨left, leftMember, right, rightMember, against⟩ := conflict
  obtain ⟨otherLeft, leftPresent, sameLeft⟩ := same.forth left leftMember
  obtain ⟨otherRight, rightPresent, sameRight⟩ :=
    same.forth right rightMember
  exact ⟨otherLeft, leftPresent, otherRight, rightPresent,
    (normal left leftMember).opposed_of_alike (normal right rightMember)
      against sameLeft sameRight⟩

/-- A tree like one with an opposed partner has an opposed partner. -/
theorem SameClasses.cancelled
    {tree other : Tree} (treeNormal : tree.Normal)
    (toOther : tree.alike other)
    (struck : Pairing.cancelled opposed firsts tree) :
    Pairing.cancelled opposed seconds other := by
  obtain ⟨partner, member, against⟩ := Pairing.cancelled_iff.mp struck
  obtain ⟨image, present, toImage⟩ := same.forth partner member
  have partnerNormal := normal partner member
  refine Pairing.cancelled_iff.mpr ⟨image, present, against.imp ?_ ?_⟩
  · intro forward
    exact treeNormal.opposed_of_alike partnerNormal forward toOther toImage
  · intro backward
    exact partnerNormal.opposed_of_alike treeNormal backward toImage toOther

end Opposition

/-! ## What remains of classes -/

section Remaining

variable {firsts seconds : List Tree}

/-- An operand remaining of a list is like one that remains of any list with
the same classes. -/
theorem SameClasses.exists_mem_remaining
    (same : SameClasses firsts seconds)
    (firstsNormal : ∀ first ∈ firsts, first.Normal)
    (secondsNormal : ∀ second ∈ seconds, second.Normal)
    {first : Tree} (member : first ∈ Pairing.remaining opposed alike firsts) :
    ∃ second ∈ Pairing.remaining opposed alike seconds,
      first.alike second := by
  obtain ⟨present, free⟩ := Pairing.mem_remaining member
  obtain ⟨image, among, toImage⟩ := same.forth first present
  have imageNormal := secondsNormal image among
  have toFirst := (firstsNormal first present).alike_symm toImage
  obtain ⟨kept, keptMember, fromKept⟩ :=
    exists_mem_remaining_normal secondsNormal among fun struck => free <|
      same.symm.cancelled secondsNormal imageNormal toFirst struck
  have keptNormal := secondsNormal kept (Pairing.mem_remaining keptMember).1
  exact ⟨kept, keptMember,
    alike_trans toImage (keptNormal.alike_symm fromKept)⟩

theorem SameClasses.remaining
    (same : SameClasses firsts seconds)
    (firstsNormal : ∀ first ∈ firsts, first.Normal)
    (secondsNormal : ∀ second ∈ seconds, second.Normal) :
    SameClasses (Pairing.remaining opposed alike firsts)
      (Pairing.remaining opposed alike seconds) where
  forth _ := same.exists_mem_remaining firstsNormal secondsNormal
  back _ := same.symm.exists_mem_remaining secondsNormal firstsNormal

/-- Distinct trees are no more than those of a list with the same classes. -/
theorem SameClasses.length_le
    (same : SameClasses firsts seconds)
    (distinct : firsts.Pairwise fun first second => ¬ first.alike second)
    (normal : ∀ first ∈ firsts, first.Normal) :
    firsts.length ≤ seconds.length := by
  have apart := pairwise_apart distinct fun first member =>
    (normal first member).alike_symm
  by_contra more
  obtain _ | ⟨head, firsts⟩ := firsts
  · exact more (Nat.zero_le _)
  obtain ⟨headApart, restApart⟩ := List.pairwise_cons.mp apart
  have enough : seconds.length ≤ firsts.length := by
    rw [List.length_cons] at more
    omega
  obtain ⟨image, present, toImage⟩ := same.forth head List.mem_cons_self
  -- The others alone already match every tree of the second list.
  obtain ⟨other, member, toSame⟩ := exists_alike_of_distinct enough
    (fun first member => same.forth first (List.mem_cons_of_mem _ member))
    restApart image present
  exact headApart other member image toImage toSame

end Remaining

/-! ## Outcomes that agree -/

/-- Two simplifications agree if nothing remains of either, or two trees each
of which is like the other. -/
def OutcomesAgree : Option Tree → Option Tree → Prop :=
  Option.Rel fun first second =>
    first.alike second ∧ second.alike first

namespace OutcomesAgree

variable {first second third : Option Tree}

theorem symm (agree : OutcomesAgree first second) :
    OutcomesAgree second first := by
  cases agree with
  | none => exact .none
  | some same => exact .some same.symm

theorem trans
    (left : OutcomesAgree first second)
    (right : OutcomesAgree second third) : OutcomesAgree first third := by
  cases left with
  | none => exact right
  | some same =>
      cases right with
      | some again =>
          exact .some ⟨alike_trans same.1 again.1, alike_trans again.2 same.2⟩

theorem map_dual
    (firstNormal : ∀ tree ∈ first, tree.Normal)
    (secondNormal : ∀ tree ∈ second, tree.Normal)
    (agree : OutcomesAgree first second) :
    OutcomesAgree (first.map dual) (second.map dual) := by
  cases agree with
  | none => exact .none
  | some same =>
      refine .some ⟨?_, ?_⟩
      · rw [(firstNormal _ rfl).alike_dual]
        exact same.1
      · rw [(secondNormal _ rfl).alike_dual]
        exact same.2

end OutcomesAgree

section Collecting

variable {connective : Connective} {firsts seconds : List Tree}
  (firstsNormal : ∀ first ∈ firsts, first.Normal)
  (secondsNormal : ∀ second ∈ seconds, second.Normal)

include firstsNormal secondsNormal

theorem SameClasses.settle_agree
    (same : SameClasses firsts seconds)
    (firstsDistinct : firsts.Pairwise fun first second =>
      ¬ first.alike second)
    (secondsDistinct : seconds.Pairwise fun first second =>
      ¬ first.alike second) :
    OutcomesAgree (settle connective (some firsts))
      (settle connective (some seconds)) := by
  have sameLength : firsts.length = seconds.length :=
    Nat.le_antisymm (same.length_le firstsDistinct firstsNormal)
      (same.symm.length_le secondsDistinct secondsNormal)
  match firsts, seconds, sameLength with
  | [], [], _ => exact .none
  | [first], [second], _ =>
      obtain ⟨_, present, toSecond⟩ :=
        same.forth first (List.mem_singleton_self first)
      obtain rfl := List.mem_singleton.mp present
      have normal := firstsNormal first (List.mem_singleton_self first)
      exact .some ⟨toSecond, normal.alike_symm toSecond⟩
  | _ :: _ :: _, _ :: _ :: _, sameLength =>
      exact .some
        ⟨junction_alike_iff.mpr ⟨_, rfl, sameLength, same.forth⟩,
          junction_alike_iff.mpr ⟨_, rfl, sameLength.symm, same.back⟩⟩

/-- What is collected from normal trees depends only on the classes they
contribute. -/
theorem SameClasses.collect_agree
    (same : SameClasses (firsts.flatMap (contributed connective))
      (seconds.flatMap (contributed connective))) :
    OutcomesAgree (collect connective firsts)
      (collect connective seconds) := by
  have leftNormal : ∀ part ∈ firsts.flatMap (contributed connective),
      part.Normal := fun _ member =>
    (normal_of_mem_flatMap_contributed firstsNormal member).1
  have rightNormal : ∀ part ∈ seconds.flatMap (contributed connective),
      part.Normal := fun _ member =>
    (normal_of_mem_flatMap_contributed secondsNormal member).1
  rw [collect, collect]
  rcases reduce?_normal_spec leftNormal connective with
    ⟨left, conjunction, conflict⟩ | ⟨left, compatible⟩ <;>
  rcases reduce?_normal_spec rightNormal connective with
    ⟨right, conjunction', conflict'⟩ | ⟨right, compatible'⟩
  · rw [left, right]
    exact .none
  · exact (compatible' conjunction
      (same.conflicting leftNormal conflict)).elim
  · exact (compatible conjunction'
      (same.symm.conflicting rightNormal conflict')).elim
  · rw [left, right]
    refine (same.remaining leftNormal rightNormal).settle_agree ?_ ?_
      (Pairing.pairwise_remaining _) (Pairing.pairwise_remaining _)
    · exact fun part member => leftNormal part (Pairing.mem_remaining member).1
    · exact fun part member =>
        rightNormal part (Pairing.mem_remaining member).1

end Collecting

end Tree

end NamedLogic
