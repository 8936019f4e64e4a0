import NamedLogic.Registry.Alike
import NamedLogic.Proofs.TreeSimplification
import NamedLogic.Proofs.Unfolding

/-!
# Unfolding to more levels

A tree that does not reach below the levels unfolded stays the same when more
levels are unfolded.  Structural equality of nodes is that of their trees, as
long as all names are bound and no formula is a generated one.
-/

namespace NamedLogic

namespace Tree

/-- A tree in which every name stands for something and no formula is the one
generated for a disjunctive normal form.  It may be cut off below. -/
def Resolved (tree : Tree) : Prop :=
  tree.Every fun
    | unresolved _ | generated _ => False
    | _ => True

/-- A tree that is not cut off below. -/
def Settled (tree : Tree) : Prop :=
  tree.Every (· ≠ beyond)

/-- A tree in which nothing is unresolved has no gaps. -/
theorem gaps_eq_nil_of_every
    {tree : Tree}
    (whole : tree.Every fun part => ∀ string, part ≠ unresolved string) :
    tree.gaps = [] := by
  induction tree using Tree.inductionOn with
  | atom | absent | beyond => rfl
  | unresolved string => exact (whole string rfl).elim
  | negation operand inductionHypothesis =>
      exact inductionHypothesis whole.2
  | junction connective operands inductionHypothesis =>
      obtain ⟨_, parts⟩ := every_junction_iff.mp whole
      refine List.eq_nil_iff_forall_not_mem.mpr fun string member => ?_
      obtain ⟨operand, present, gap⟩ := mem_gapsAmong.mp member
      rw [inductionHypothesis operand present (parts operand present)] at gap
      cases gap
  | implication antecedent consequent premise conclusion =>
      rw [gaps, premise whole.2.1, conclusion whole.2.2, List.append_nil]
  | generated formula inductionHypothesis =>
      exact inductionHypothesis whole.2

theorem Resolved.gaps_eq_nil {tree : Tree} (resolved : tree.Resolved) :
    tree.gaps = [] := by
  refine gaps_eq_nil_of_every (resolved.imp ?_)
  rintro _ isResolved string rfl
  exact isResolved

/-! ## Settled trees by their heads -/

theorem settled_atom (string : String) : (atom string).Settled := by
  simp [Settled, Every]

theorem settled_absent : Settled absent := by
  simp [Settled, Every]

theorem settled_negation_iff {operand : Tree} :
    (negation operand).Settled ↔ operand.Settled := by
  simp [Settled, Every]

theorem settled_junction_iff
    {connective : Connective} {operands : List Tree} :
    (junction connective operands).Settled ↔
      ∀ operand ∈ operands, operand.Settled := by
  simp [Settled, every_junction_iff]

theorem settled_implication_iff {antecedent consequent : Tree} :
    (implication antecedent consequent).Settled ↔
      antecedent.Settled ∧ consequent.Settled := by
  simp [Settled, Every]

/-! ## Negation normal forms -/

/-- A tree in negation normal form is built from atoms and negated atoms by
junctions. -/
inductive NegationNormal : Tree → Prop where
  | positive (string : String) : NegationNormal (atom string)
  | negative (string : String) : NegationNormal (negation (atom string))
  | joined
      {connective : Connective} {operands : List Tree}
      (parts : ∀ operand ∈ operands, operand.NegationNormal) :
      NegationNormal (junction connective operands)

theorem NegationNormal.of_negation
    {operand : Tree} (negationNormal : (negation operand).NegationNormal) :
    operand.NegationNormal := by
  cases negationNormal with
  | negative string => exact .positive string

theorem NegationNormal.of_junction
    {connective : Connective} {operands : List Tree}
    (negationNormal : (junction connective operands).NegationNormal) :
    ∀ operand ∈ operands, operand.NegationNormal := by
  cases negationNormal with
  | joined parts => exact parts

theorem Normal.negationNormal
    {tree : Tree} (normal : tree.Normal) : tree.NegationNormal := by
  induction normal with
  | positive string => exact .positive string
  | negative string => exact .negative string
  | joined _ _ inductionHypothesis => exact .joined inductionHypothesis

theorem NegationNormal.resolved
    {tree : Tree} (negationNormal : tree.NegationNormal) :
    tree.Resolved := by
  induction negationNormal with
  | positive => exact trivial
  | negative => exact ⟨trivial, trivial⟩
  | joined _ inductionHypothesis =>
      exact every_junction_iff.mpr ⟨trivial, inductionHypothesis⟩

theorem NegationNormal.settled
    {tree : Tree} (negationNormal : tree.NegationNormal) :
    tree.Settled := by
  induction negationNormal with
  | positive string => exact settled_atom string
  | negative string => exact settled_negation_iff.mpr (settled_atom string)
  | joined _ inductionHypothesis =>
      exact settled_junction_iff.mpr inductionHypothesis

theorem Normal.resolved {tree : Tree} (normal : tree.Normal) :
    tree.Resolved :=
  normal.negationNormal.resolved

theorem Normal.settled {tree : Tree} (normal : tree.Normal) :
    tree.Settled :=
  normal.negationNormal.settled

end Tree

namespace Registry

section Levels

variable {registry : Registry}

/-! ## Names in resolved trees -/

/-- A name in a resolved tree stands for something. -/
theorem exists_referent_of_resolved
    {levels : Nat} {name : Name}
    (resolved : (registry.nameTree levels name).Resolved) :
    ∃ operand, registry.referent? name = some operand ∧
      registry.nameTree levels name = registry.unfold levels operand := by
  cases stands : registry.referent? name with
  | some operand => exact ⟨operand, rfl, nameTree_of_referent stands levels⟩
  | none =>
      rw [nameTree_of_no_referent stands] at resolved
      exact resolved.elim

theorem body_ne_dnf_of_resolved
    {levels : Nat} {node : Node}
    (resolved : (registry.unfold (levels + 1) node).Resolved)
    (atoms : List Name) (rows : UInt64) (recorded : Option Key) :
    node.body ≠ .dnf atoms rows recorded := by
  intro body
  rw [unfold_dnf body] at resolved
  exact resolved.1

theorem unfold_junction_resolved_iff
    {node : Node} {connective : Connective} {operands : List Name}
    (body : node.body = .junction connective operands) (levels : Nat) :
    (registry.unfold (levels + 1) node).Resolved ↔
      ∀ name ∈ operands, (registry.nameTree levels name).Resolved := by
  rw [unfold_junction body, Tree.Resolved, Tree.every_junction_iff]
  simp [Tree.Resolved]

/-! ## More levels -/

theorem nameTree_succ
    {levels : Nat}
    (nodes : ∀ node : Node, (registry.unfold levels node).Settled →
      registry.unfold (levels + 1) node = registry.unfold levels node)
    {name : Name} (settled : (registry.nameTree levels name).Settled) :
    registry.nameTree (levels + 1) name = registry.nameTree levels name := by
  cases stands : registry.referent? name with
  | some operand =>
      rw [nameTree_of_referent stands] at settled
      rw [nameTree_of_referent stands, nameTree_of_referent stands,
        nodes operand settled]
  | none =>
      rw [nameTree_of_no_referent stands, nameTree_of_no_referent stands]

theorem sideTree_succ
    {levels : Nat}
    (names : ∀ name, (registry.nameTree levels name).Settled →
      registry.nameTree (levels + 1) name = registry.nameTree levels name)
    {side : Option Name} (settled : (registry.sideTree levels side).Settled) :
    registry.sideTree (levels + 1) side = registry.sideTree levels side := by
  cases side with
  | none => rfl
  | some name => exact names name settled

theorem recordedTree_succ
    {levels : Nat}
    (nodes : ∀ node : Node, (registry.unfold levels node).Settled →
      registry.unfold (levels + 1) node = registry.unfold levels node)
    {recorded : Option Key}
    (settled : (registry.recordedTree levels recorded).Settled) :
    registry.recordedTree (levels + 1) recorded =
      registry.recordedTree levels recorded := by
  rw [recordedTree] at settled ⊢
  rw [recordedTree]
  cases found : recorded.bind registry.node? with
  | none => rfl
  | some formula =>
      rw [found] at settled
      exact nodes formula settled

/-- A tree that is not cut off is the same with one more level. -/
theorem unfold_succ_of_settled
    {levels : Nat} {node : Node}
    (settled : (registry.unfold levels node).Settled) :
    registry.unfold (levels + 1) node = registry.unfold levels node := by
  induction levels generalizing node with
  | zero => exact (settled rfl).elim
  | succ levels inductionHypothesis =>
      have nodes : ∀ node : Node, (registry.unfold levels node).Settled →
          registry.unfold (levels + 1) node = registry.unfold levels node :=
        fun _ => inductionHypothesis
      cases body : node.body with
      | atom => rw [unfold_atom body, unfold_atom body]
      | negation operand =>
          rw [unfold_negation body] at settled
          rw [unfold_negation body, unfold_negation body,
            nameTree_succ nodes settled.2]
      | junction connective operands =>
          rw [unfold_junction body] at settled
          obtain ⟨_, parts⟩ := Tree.every_junction_iff.mp settled
          rw [unfold_junction body, unfold_junction body]
          refine congrArg _ (List.map_congr_left fun name member => ?_)
          exact nameTree_succ nodes
            (parts _ (List.mem_map_of_mem member))
      | implication antecedent consequent =>
          have names : ∀ name, (registry.nameTree levels name).Settled →
              registry.nameTree (levels + 1) name =
                registry.nameTree levels name :=
            fun _ => nameTree_succ nodes
          rw [unfold_implication body] at settled
          rw [unfold_implication body, unfold_implication body,
            sideTree_succ names settled.2.1, sideTree_succ names settled.2.2]
      | dnf atoms rows recorded =>
          rw [unfold_dnf body] at settled
          rw [unfold_dnf body, unfold_dnf body,
            recordedTree_succ nodes settled.2]

theorem unfold_eq_of_settled
    {small large : Nat} {node : Node}
    (settled : (registry.unfold small node).Settled)
    (more : small ≤ large) :
    registry.unfold large node = registry.unfold small node := by
  induction more with
  | refl => rfl
  | step _ inductionHypothesis =>
      rw [unfold_succ_of_settled (by rwa [inductionHypothesis]),
        inductionHypothesis]

/-! ## Fewer levels -/

theorem nameTree_resolved_of_succ
    {levels : Nat}
    (nodes : ∀ {node : Node},
      (registry.unfold (levels + 1) node).Resolved →
        (registry.unfold levels node).Resolved)
    {name : Name} (resolved : (registry.nameTree (levels + 1) name).Resolved) :
    (registry.nameTree levels name).Resolved := by
  obtain ⟨operand, stands, same⟩ := exists_referent_of_resolved resolved
  rw [same] at resolved
  rw [nameTree_of_referent stands]
  exact nodes resolved

/-- A resolved tree is resolved with one level less. -/
theorem resolved_of_succ
    {levels : Nat} {node : Node}
    (resolved : (registry.unfold (levels + 1) node).Resolved) :
    (registry.unfold levels node).Resolved := by
  induction levels generalizing node with
  | zero => exact trivial
  | succ levels inductionHypothesis =>
      have names : ∀ name,
          (registry.nameTree (levels + 1) name).Resolved →
            (registry.nameTree levels name).Resolved :=
        fun _ => nameTree_resolved_of_succ inductionHypothesis
      have sides : ∀ side,
          (registry.sideTree (levels + 1) side).Resolved →
            (registry.sideTree levels side).Resolved := by
        intro side resolvedSide
        cases side with
        | none => exact trivial
        | some name => exact names name resolvedSide
      cases body : node.body with
      | atom =>
          rw [unfold_atom body]
          exact trivial
      | negation operand =>
          rw [unfold_negation body] at resolved
          rw [unfold_negation body]
          exact ⟨trivial, names operand resolved.2⟩
      | junction connective operands =>
          rw [unfold_junction_resolved_iff body] at resolved ⊢
          exact fun name member => names name (resolved name member)
      | implication antecedent consequent =>
          rw [unfold_implication body] at resolved
          rw [unfold_implication body]
          exact ⟨trivial, sides antecedent resolved.2.1,
            sides consequent resolved.2.2⟩
      | dnf => exact (body_ne_dnf_of_resolved resolved _ _ _ body).elim

/-! ## Structural equality -/

/-- Whether the formulas two sides stand for are alike. -/
def sidesAlike
    (registry : Registry) (levels : Nat) (first second : Option Name) :
    Bool :=
  match first.bind registry.referent?, second.bind registry.referent? with
  | some first, some second => registry.nodesAlike levels first second
  | none, none => true
  | _, _ => false

theorem nodesAlike_succ (levels : Nat) (left right : Node) :
    registry.nodesAlike (levels + 1) left right =
      match left.body, right.body with
      | .dnf _ _ generated, _ =>
          match generated.bind registry.node? with
          | some formula => registry.nodesAlike levels formula right
          | none => false
      | _, .dnf _ _ generated =>
          match generated.bind registry.node? with
          | some formula => registry.nodesAlike levels left formula
          | none => false
      | .atom, .atom => left.name == right.name
      | .negation first, .negation second =>
          registry.sidesAlike levels (some first) (some second)
      | .junction leftConnective firsts, .junction rightConnective seconds =>
          leftConnective == rightConnective &&
            firsts.length == seconds.length &&
            firsts.all fun first =>
              seconds.any fun second =>
                registry.sidesAlike levels (some first) (some second)
      | .implication firstAntecedent firstConsequent,
          .implication secondAntecedent secondConsequent =>
          registry.sidesAlike levels firstAntecedent secondAntecedent &&
            registry.sidesAlike levels firstConsequent secondConsequent
      | _, _ => false := by
  rw [nodesAlike]
  rfl

/-- A disjunctive normal form is compared through the formula generated from
it. -/
theorem nodesAlike_dnf_left
    {left : Node} {atoms : List Name} {rows : UInt64} {recorded : Option Key}
    (body : left.body = .dnf atoms rows recorded) (levels : Nat)
    (right : Node) :
    registry.nodesAlike (levels + 1) left right =
      (recorded.bind registry.node?).any fun formula =>
        registry.nodesAlike levels formula right := by
  rw [nodesAlike_succ, body]
  dsimp only
  cases recorded.bind registry.node? <;> rfl

theorem nodesAlike_dnf_right
    {left right : Node}
    (plain : ∀ atoms rows recorded, left.body ≠ .dnf atoms rows recorded)
    {atoms : List Name} {rows : UInt64} {recorded : Option Key}
    (body : right.body = .dnf atoms rows recorded) (levels : Nat) :
    registry.nodesAlike (levels + 1) left right =
      (recorded.bind registry.node?).any fun formula =>
        registry.nodesAlike levels left formula := by
  rw [nodesAlike_succ, body]
  cases shape : left.body with
  | dnf => exact (plain _ _ _ shape).elim
  | _ =>
      dsimp only
      cases recorded.bind registry.node? <;> rfl

theorem unfold_alike_absent (levels : Nat) (node : Node) :
    (registry.unfold levels node).alike .absent = false := by
  cases shape : registry.unfold levels node with
  | unresolved string =>
      exact (unfold_ne_unresolved levels node string shape).elim
  | absent => exact (unfold_ne_absent levels node shape).elim
  | _ => rfl

theorem absent_alike_unfold (levels : Nat) (node : Node) :
    Tree.absent.alike (registry.unfold levels node) = false := by
  cases shape : registry.unfold levels node with
  | unresolved string =>
      exact (unfold_ne_unresolved levels node string shape).elim
  | absent => exact (unfold_ne_absent levels node shape).elim
  | _ => rfl

/-- Resolved sides are alike exactly if their trees are. -/
theorem sidesAlike_eq_alike
    {levels : Nat}
    (nodes : ∀ {left right : Node} {leftKey rightKey : Key},
      registry.node? leftKey = some left →
      registry.node? rightKey = some right →
      (registry.unfold levels left).Resolved →
      (registry.unfold levels right).Resolved →
        registry.nodesAlike levels left right =
          (registry.unfold levels left).alike
            (registry.unfold levels right))
    {first second : Option Name}
    (firstResolved : (registry.sideTree levels first).Resolved)
    (secondResolved : (registry.sideTree levels second).Resolved) :
    registry.sidesAlike levels first second =
      (registry.sideTree levels first).alike
        (registry.sideTree levels second) := by
  rcases first with _ | first <;> rcases second with _ | second
  · rfl
  · obtain ⟨right, rightStands, rightTree⟩ :=
      exists_referent_of_resolved secondResolved
    simp [sidesAlike, sideTree, rightStands, rightTree, absent_alike_unfold]
  · obtain ⟨left, leftStands, leftTree⟩ :=
      exists_referent_of_resolved firstResolved
    simp [sidesAlike, sideTree, leftStands, leftTree, unfold_alike_absent]
  · obtain ⟨left, leftStands, leftTree⟩ :=
      exists_referent_of_resolved firstResolved
    obtain ⟨right, rightStands, rightTree⟩ :=
      exists_referent_of_resolved secondResolved
    obtain ⟨_, _, leftStored⟩ := (referent?_eq_some_iff _ _).mp leftStands
    obtain ⟨_, _, rightStored⟩ :=
      (referent?_eq_some_iff _ _).mp rightStands
    simp only [sideTree, Option.map_some, Option.getD_some] at *
    rw [leftTree] at firstResolved ⊢
    rw [rightTree] at secondResolved ⊢
    simp only [sidesAlike, Option.bind_some, leftStands, rightStands]
    exact nodes leftStored rightStored firstResolved secondResolved

/-- Each of some names is like one of others exactly if this holds of the
trees. -/
theorem all_any_sidesAlike_eq
    {levels : Nat} {firsts seconds : List Name}
    (sides : ∀ first ∈ firsts, ∀ second ∈ seconds,
      registry.sidesAlike levels (some first) (some second) =
        (registry.nameTree levels first).alike
          (registry.nameTree levels second)) :
    (firsts.all fun first => seconds.any fun second =>
        registry.sidesAlike levels (some first) (some second)) =
      Tree.allAlike (firsts.map (registry.nameTree levels))
        (seconds.map (registry.nameTree levels)) := by
  rw [Bool.eq_iff_iff, Tree.allAlike_iff, List.all_eq_true]
  simp only [List.any_eq_true, List.mem_map, exists_exists_and_eq_and,
    forall_exists_index, and_imp, forall_apply_eq_imp_iff₂]
  refine forall₂_congr fun first firstMember => exists_congr fun second =>
    and_congr_right fun secondMember => ?_
  rw [sides first firstMember second secondMember]

/-- Atoms are alike exactly if their strings are the same. -/
theorem WellFormed.name_beq_eq
    (wellFormed : registry.WellFormed)
    {left right : Node} {leftKey rightKey : Key}
    (leftStored : registry.node? leftKey = some left)
    (rightStored : registry.node? rightKey = some right) :
    (left.name == right.name) =
      (registry.string left.name == registry.string right.name) := by
  rw [Bool.eq_iff_iff, beq_iff_eq, beq_iff_eq]
  exact ⟨congrArg registry.string, wellFormed.string_injective
    (wellFormed.named leftStored) (wellFormed.named rightStored)⟩

/-- Nodes with resolved trees are alike exactly if their trees are. -/
theorem WellFormed.nodesAlike_eq_alike
    (wellFormed : registry.WellFormed) {levels : Nat}
    {left right : Node} {leftKey rightKey : Key}
    (leftStored : registry.node? leftKey = some left)
    (rightStored : registry.node? rightKey = some right)
    (leftResolved : (registry.unfold levels left).Resolved)
    (rightResolved : (registry.unfold levels right).Resolved) :
    registry.nodesAlike levels left right =
      (registry.unfold levels left).alike
        (registry.unfold levels right) := by
  induction levels generalizing left right leftKey rightKey with
  | zero => rfl
  | succ levels inductionHypothesis =>
      have sides := fun first second =>
        @sidesAlike_eq_alike registry levels inductionHypothesis first second
      have noDnf := body_ne_dnf_of_resolved rightResolved
      rw [nodesAlike_succ]
      cases leftBody : left.body with
      | atom =>
          rw [unfold_atom leftBody]
          cases rightBody : right.body with
          | atom =>
              rw [unfold_atom rightBody, Tree.alike]
              exact wellFormed.name_beq_eq leftStored rightStored
          | negation => rw [unfold_negation rightBody]; rfl
          | junction => rw [unfold_junction rightBody]; rfl
          | implication => rw [unfold_implication rightBody]; rfl
          | dnf => exact (noDnf _ _ _ rightBody).elim
      | negation first =>
          rw [unfold_negation leftBody] at leftResolved ⊢
          cases rightBody : right.body with
          | negation second =>
              rw [unfold_negation rightBody] at rightResolved ⊢
              rw [Tree.alike]
              exact sides (some first) (some second) leftResolved.2
                rightResolved.2
          | atom => rw [unfold_atom rightBody]; rfl
          | junction => rw [unfold_junction rightBody]; rfl
          | implication => rw [unfold_implication rightBody]; rfl
          | dnf => exact (noDnf _ _ _ rightBody).elim
      | junction leftConnective firsts =>
          rw [unfold_junction_resolved_iff leftBody] at leftResolved
          rw [unfold_junction leftBody]
          cases rightBody : right.body with
          | junction rightConnective seconds =>
              rw [unfold_junction_resolved_iff rightBody] at rightResolved
              have matched := all_any_sidesAlike_eq
                fun first firstMember second secondMember =>
                  sides (some first) (some second)
                    (leftResolved first firstMember)
                    (rightResolved second secondMember)
              rw [unfold_junction rightBody, Tree.alike, List.length_map,
                List.length_map, ← matched]
          | atom => rw [unfold_atom rightBody]; rfl
          | negation => rw [unfold_negation rightBody]; rfl
          | implication => rw [unfold_implication rightBody]; rfl
          | dnf => exact (noDnf _ _ _ rightBody).elim
      | implication antecedent consequent =>
          rw [unfold_implication leftBody] at leftResolved ⊢
          cases rightBody : right.body with
          | implication premise conclusion =>
              rw [unfold_implication rightBody] at rightResolved ⊢
              rw [Tree.alike]
              exact congrArg₂ and
                (sides antecedent premise leftResolved.2.1
                  rightResolved.2.1)
                (sides consequent conclusion leftResolved.2.2
                  rightResolved.2.2)
          | atom => rw [unfold_atom rightBody]; rfl
          | negation => rw [unfold_negation rightBody]; rfl
          | junction => rw [unfold_junction rightBody]; rfl
          | dnf => exact (noDnf _ _ _ rightBody).elim
      | dnf =>
          exact (body_ne_dnf_of_resolved leftResolved _ _ _ leftBody).elim

end Levels

end Registry

end NamedLogic
