import NamedLogic.Proofs.ClassicalValues
import NamedLogic.Proofs.ReachedParts
import NamedLogic.Proofs.Surroundings
import Mathlib.Data.List.Perm.Subperm
import Mathlib.Data.List.ReduceOption

/-!
# Descents that come to an end

A registry stores finitely many nodes.  So a descent that never comes back to a
node it left passes each of them at most once, and the tree of the node it
started from is not cut off if there is a level for every stored node.
-/

namespace NamedLogic

/-! ## Chains of steps -/

section Chains

variable {α : Type} {step : α → α → Prop}

/-- Every chain of steps from a point passes fewer points than the bound, the
first one not counted. -/
def ChainsWithin (step : α → α → Prop) : (bound : Nat) → α → Prop
  | 0, _ => False
  | bound + 1, point =>
      ∀ next, step point next → ChainsWithin step bound next

theorem ChainsWithin.succ
    {bound : Nat} {point : α} (within : ChainsWithin step bound point) :
    ChainsWithin step (bound + 1) point := by
  induction bound generalizing point with
  | zero => exact within.elim
  | succ bound inductionHypothesis =>
      exact fun next taken => inductionHypothesis (within next taken)

/-- Fewer steps make shorter chains. -/
theorem ChainsWithin.of_imp
    {fewer : α → α → Prop}
    (among : ∀ point next, fewer point next → step point next)
    {bound : Nat} {point : α} (within : ChainsWithin step bound point) :
    ChainsWithin fewer bound point := by
  induction bound generalizing point with
  | zero => exact within.elim
  | succ bound inductionHypothesis =>
      exact fun next taken =>
        inductionHypothesis (within next (among point next taken))

theorem ChainsWithin.of_reached
    {bound : Nat} {start point : α} (within : ChainsWithin step bound start)
    (reached : Relation.ReflTransGen step start point) :
    ChainsWithin step bound point := by
  induction reached with
  | refl => exact within
  | tail _ taken inductionHypothesis =>
      cases bound with
      | zero => exact inductionHypothesis.elim
      | succ bound => exact (inductionHypothesis _ taken).succ

/-- Where a point that returns to itself is reached, no bound will do. -/
theorem not_chainsWithin_of_cycle
    {start point : α} (reached : Relation.ReflTransGen step start point)
    (returns : Relation.TransGen step point point) (bound : Nat) :
    ¬ ChainsWithin step bound start := by
  intro within
  have around := within.of_reached reached
  clear within reached
  induction bound with
  | zero => exact around
  | succ bound inductionHypothesis =>
      obtain ⟨next, taken, path⟩ := Relation.TransGen.head'_iff.mp returns
      exact inductionHypothesis ((around next taken).of_reached path)

/-- The induction is on the bound, and the chain behind the point carries it.
Its points are distinct, since no point reached returns to itself, and so it
cannot outgrow the list. -/
theorem chainsWithin_of_chain
    {points : List α} {start : α}
    (closed : ∀ point ∈ points, ∀ next, step point next → next ∈ points)
    (acyclic : ∀ point, Relation.ReflTransGen step start point →
      ¬ Relation.TransGen step point point)
    {bound : Nat} {behind : List α} {point : α}
    (distinct : behind.Nodup) (within : behind ⊆ points)
    (member : point ∈ points)
    (leads : ∀ earlier ∈ behind, Relation.TransGen step earlier point)
    (reached : Relation.ReflTransGen step start point)
    (enough : points.length ≤ bound + behind.length) :
    ChainsWithin step bound point := by
  have longer : (point :: behind).Nodup :=
    List.nodup_cons.mpr
      ⟨fun again => acyclic point reached (leads point again), distinct⟩
  have inside : point :: behind ⊆ points :=
    List.cons_subset.mpr ⟨member, within⟩
  induction bound generalizing behind point with
  | zero =>
      have fits := (longer.subperm inside).length_le
      rw [List.length_cons] at fits
      omega
  | succ bound inductionHypothesis =>
      intro next taken
      have nextMember := closed point member next taken
      have nextReached := reached.tail taken
      have nextLeads : ∀ earlier ∈ point :: behind,
          Relation.TransGen step earlier next := by
        intro earlier among
        rcases List.mem_cons.mp among with rfl | before
        · exact .single taken
        · exact (leads earlier before).tail taken
      refine inductionHypothesis longer inside nextMember nextLeads
        nextReached ?_ ?_ ?_
      · rw [List.length_cons]
        omega
      · exact List.nodup_cons.mpr
          ⟨fun again => acyclic next nextReached (nextLeads next again),
            longer⟩
      · exact List.cons_subset.mpr ⟨nextMember, inside⟩

/-- Within a finite list that no step leaves, chains are bounded wherever no
point reached returns to itself. -/
theorem chainsWithin_of_acyclic
    {points : List α} {start : α}
    (closed : ∀ point ∈ points, ∀ next, step point next → next ∈ points)
    (acyclic : ∀ point, Relation.ReflTransGen step start point →
      ¬ Relation.TransGen step point point)
    (member : start ∈ points) :
    ChainsWithin step points.length start :=
  chainsWithin_of_chain closed acyclic List.nodup_nil
    (List.nil_subset points) member (by simp) .refl (Nat.le_refl _)

end Chains

/-- A tree with a connective or an atom at its root. -/
def Tree.Solid : Tree → Prop
  | unresolved _ | absent | beyond => False
  | _ => True

namespace Registry

variable {registry : Registry} {node part : Node}

/-! ## Stored nodes -/

/-- The nodes stored, in the order of their keys. -/
def stock (registry : Registry) : List Node :=
  registry.nodes.toList.reduceOption

theorem mem_stock_iff :
    node ∈ registry.stock ↔ ∃ key, registry.node? key = some node := by
  rw [stock, List.reduceOption_mem_iff, Array.mem_toList_iff,
    Array.mem_iff_getElem?]
  constructor
  · rintro ⟨position, found⟩
    exact ⟨⟨position⟩, by rw [node?, found, Option.join_some]⟩
  · rintro ⟨key, found⟩
    exact ⟨key.id, Option.join_eq_some_iff.mp found⟩

theorem length_stock (registry : Registry) :
    registry.stock.length = registry.nodeCount := by
  rw [stock, List.reduceOption_length_eq, nodeCount, ← Array.countP_toList,
    List.countP_eq_length_filter]

theorem mem_stock_of_referent
    {name : Name} (stands : registry.referent? name = some node) :
    node ∈ registry.stock := by
  obtain ⟨key, _, stored⟩ := (referent?_eq_some_iff name node).mp stands
  exact mem_stock_iff.mpr ⟨key, stored⟩

/-- One step leads to a stored node. -/
theorem Descends.mem_stock
    (step : registry.Descends node part) : part ∈ registry.stock := by
  cases step with
  | operand _ stands => exact mem_stock_of_referent stands
  | generated _ present => exact mem_stock_iff.mpr ⟨_, present⟩

theorem Leads.mem_stock
    (leads : registry.Leads node part) : part ∈ registry.stock := by
  cases leads with
  | descends step => exact step.mem_stock
  | namesake _ _ stands => exact mem_stock_of_referent stands

theorem Meets.mem_stock
    (meets : registry.Meets node part) (stored : node ∈ registry.stock) :
    part ∈ registry.stock := by
  induction meets with
  | here => exact stored
  | further step _ inductionHypothesis => exact inductionHypothesis step.mem_stock

theorem ComesTo.mem_stock
    (comes : registry.ComesTo node part) (stored : node ∈ registry.stock) :
    part ∈ registry.stock := by
  cases comes with
  | refl => exact stored
  | tail _ leads => exact leads.mem_stock

/-! ## Descents that never come back -/

theorem meets_iff_reflTransGen :
    registry.Meets node part ↔
      Relation.ReflTransGen registry.Descends node part := by
  constructor
  · intro meets
    induction meets with
    | here => exact .refl
    | further step _ inductionHypothesis => exact .head step inductionHypothesis
  · intro path
    induction path using Relation.ReflTransGen.head_induction_on with
    | refl => exact .here part
    | head step _ inductionHypothesis => exact .further step inductionHypothesis

/-- No node met from the given one is met again from one of its successors. -/
def Acyclic (registry : Registry) (node : Node) : Prop :=
  ∀ part next, registry.Meets node part → registry.Descends part next →
    ¬ registry.Meets next part

theorem Acyclic.chainsWithin
    (acyclic : registry.Acyclic node) (stored : node ∈ registry.stock) :
    ChainsWithin registry.Descends registry.nodeCount node := by
  rw [← length_stock]
  refine chainsWithin_of_acyclic (fun _ _ _ step => step.mem_stock) ?_ stored
  intro part reached returns
  obtain ⟨next, step, path⟩ := Relation.TransGen.head'_iff.mp returns
  exact acyclic part next (meets_iff_reflTransGen.mpr reached) step
    (meets_iff_reflTransGen.mpr path)

section Ranked

variable {nodes : List Node} {rank : Node → Nat}
  (lower : ∀ node ∈ nodes, ∀ next ∈ registry.successors node,
    next ∈ nodes ∧ rank next < rank node)

include lower

/-- A rank that every step lowers bounds what one comes to. -/
theorem ComesTo.ranked
    (comes : registry.ComesTo node part) (member : node ∈ nodes) :
    part ∈ nodes ∧ rank part ≤ rank node := by
  induction comes with
  | refl => exact ⟨member, le_rfl⟩
  | tail _ leads inductionHypothesis =>
      have ⟨there, bounded⟩ := inductionHypothesis
      have ⟨nextThere, less⟩ := lower _ there _ leads.mem_successors
      exact ⟨nextThere, by omega⟩

theorem Meets.ranked
    (meets : registry.Meets node part) (member : node ∈ nodes) :
    part ∈ nodes ∧ rank part ≤ rank node := by
  have comes : registry.ComesTo node part :=
    (meets_iff_reflTransGen.mp meets).lift id fun _ _ => Leads.descends
  exact comes.ranked lower member

theorem not_returns_of_ranked (member : node ∈ nodes) :
    ¬ Relation.TransGen registry.Leads node node := by
  intro returns
  have ⟨next, leads, path⟩ := Relation.TransGen.head'_iff.mp returns
  have ⟨there, less⟩ := lower node member next leads.mem_successors
  have ⟨_, bounded⟩ := ComesTo.ranked lower path there
  omega

theorem acyclic_of_ranked (member : node ∈ nodes) :
    registry.Acyclic node := by
  intro part next meets step back
  have ⟨there, _⟩ := meets.ranked lower member
  apply not_returns_of_ranked lower there
  have path : registry.ComesTo next part :=
    (meets_iff_reflTransGen.mp back).lift id fun _ _ => Leads.descends
  exact Relation.TransGen.head' (Leads.descends step) path

end Ranked

/-! ## Trees of bounded descents -/

/-- Whatever is missing in a node, its tree shows it in a place that meets the
condition. -/
structure Tolerates
    (registry : Registry) (meets : Tree → Prop) (node : Node) : Prop where
  name : ∀ name ∈ node.lookups, registry.referent? name = none →
    meets (.unresolved (registry.string name))
  side : ∀ antecedent consequent,
    node.body = .implication antecedent consequent →
      antecedent = none ∨ consequent = none → meets .absent
  formula : ∀ atoms rows recorded, node.body = .dnf atoms rows recorded →
    recorded.bind registry.node? = none → meets .absent

/-- A condition is met everywhere in the tree of a node if the trees of the nodes
met meet it at their roots, so does whatever is missing in these nodes, and the
tree either is not cut off or may be. -/
theorem every_unfold
    {meets : Tree → Prop} {levels : Nat}
    (cut : meets .beyond ∨ ChainsWithin registry.Descends levels node)
    (roots : ∀ part, registry.Meets node part →
      ∀ below, meets (registry.unfold (below + 1) part))
    (tolerates : ∀ part, registry.Meets node part →
      registry.Tolerates meets part) :
    (registry.unfold levels node).Every meets := by
  induction levels generalizing node with
  | zero => exact cut.elim id False.elim
  | succ levels inductionHypothesis =>
      have root := roots node (.here node) levels
      have missing := tolerates node (.here node)
      have next : ∀ next, registry.Descends node next →
          (registry.unfold levels next).Every meets :=
        fun next step => inductionHypothesis
          (cut.imp_right fun within => within next step)
          (fun part rest => roots part (.further step rest))
          fun part rest => tolerates part (.further step rest)
      have names : ∀ name ∈ node.lookups,
          (registry.nameTree levels name).Every meets := by
        intro name named
        cases stands : registry.referent? name with
        | some operand =>
            rw [nameTree_of_referent stands]
            exact next operand (.operand named stands)
        | none =>
            rw [nameTree_of_no_referent stands]
            exact missing.name name named stands
      cases body : node.body with
      | atom =>
          rw [unfold_atom body] at root ⊢
          exact root
      | negation operand =>
          rw [unfold_negation body] at root ⊢
          exact ⟨root, names operand (Node.mem_lookups_of_negation body)⟩
      | junction connective operands =>
          rw [unfold_junction body] at root ⊢
          rw [Tree.every_junction_iff]
          refine ⟨root, List.forall_mem_map.mpr ?_⟩
          exact fun name member =>
            names name (Node.mem_lookups_of_junction body member)
      | implication antecedent consequent =>
          have sides : ∀ side : Option Name,
              (∀ name ∈ side, name ∈ node.lookups) →
                (side = none → meets .absent) →
                  (registry.sideTree levels side).Every meets := by
            intro side named lacking
            cases side with
            | none => exact lacking rfl
            | some name => exact names name (named name rfl)
          obtain ⟨left, right⟩ := Node.mem_lookups_of_implication body
          have lacking := missing.side antecedent consequent body
          rw [unfold_implication body] at root ⊢
          exact ⟨root, sides antecedent left fun none => lacking (Or.inl none),
            sides consequent right fun none => lacking (Or.inr none)⟩
      | dnf atoms rows recorded =>
          rw [unfold_dnf body] at root ⊢
          refine ⟨root, ?_⟩
          rw [recordedTree]
          cases present : recorded.bind registry.node? with
          | none => exact missing.formula atoms rows recorded body present
          | some formula =>
              obtain ⟨key, rfl, stored⟩ := Option.bind_eq_some_iff.mp present
              exact next formula (.generated body stored)

theorem solid_unfold (levels : Nat) (node : Node) :
    (registry.unfold (levels + 1) node).Solid := by
  cases body : node.body with
  | atom => rw [unfold_atom body]; trivial
  | negation => rw [unfold_negation body]; trivial
  | junction => rw [unfold_junction body]; trivial
  | implication => rw [unfold_implication body]; trivial
  | dnf => rw [unfold_dnf body]; trivial

/-- A condition that the connectives meet, and whatever is missing in the nodes
met, is met everywhere in the tree of a node if there are levels for the longest
descent from it. -/
theorem every_of_chainsWithin
    {meets : Tree → Prop} (solid : ∀ tree : Tree, tree.Solid → meets tree)
    {levels : Nat} (within : ChainsWithin registry.Descends levels node)
    (tolerates : ∀ part, registry.Meets node part →
      registry.Tolerates meets part) :
    (registry.unfold levels node).Every meets :=
  every_unfold (.inr within)
    (fun part _ below => solid _ (solid_unfold below part)) tolerates

/-- A node is unfolded completely if there are levels for the longest descent
from it. -/
theorem settled_of_chainsWithin
    {levels : Nat} (within : ChainsWithin registry.Descends levels node) :
    (registry.unfold levels node).Settled := by
  refine every_of_chainsWithin ?_ within fun part _ => ⟨?_, ?_, ?_⟩
  · rintro tree solid rfl
    exact solid
  · exact fun _ _ _ => nofun
  · exact fun _ _ _ _ => nofun
  · exact fun _ _ _ _ _ => nofun

end Registry

end NamedLogic
