import NamedLogic.Registry.Unfolding
import NamedLogic.Proofs.Extension

/-!
# Unfolding while a registry grows

The tree of a node is settled by the names in it that stand for something.  A
name that stands for nothing leaves a gap under its string.  When nodes and
bindings are added to a registry, a tree changes if and only if the string of
one of its gaps has become bound.
-/

namespace NamedLogic

namespace Tree

mutual

/-- The strings of the gaps in a tree. -/
def gaps : Tree → List String
  | atom _ => []
  | unresolved string => [string]
  | absent => []
  | negation operand => operand.gaps
  | junction _ operands => gapsAmong operands
  | implication antecedent consequent => antecedent.gaps ++ consequent.gaps
  | generated formula => formula.gaps
  | beyond => []

/-- The strings of the gaps in a list of trees. -/
def gapsAmong : List Tree → List String
  | [] => []
  | operand :: operands => operand.gaps ++ gapsAmong operands

end

theorem mem_gapsAmong {string : String} {operands : List Tree} :
    string ∈ gapsAmong operands ↔ ∃ operand ∈ operands,
      string ∈ operand.gaps := by
  induction operands with
  | nil => simp [gapsAmong]
  | cons operand operands inductionHypothesis =>
      simp [gapsAmong, inductionHypothesis]

end Tree

/-! ## Names looked up -/

namespace Node

variable {node : Node}

theorem mem_lookups_of_negation
    {operand : Name} (body : node.body = .negation operand) :
    operand ∈ node.lookups := by
  simp [lookups, body, Body.references]

theorem mem_lookups_of_junction
    {connective : Connective} {operands : List Name}
    (body : node.body = .junction connective operands) {name : Name}
    (member : name ∈ operands) : name ∈ node.lookups := by
  simpa [lookups, body, Body.references] using member

theorem mem_lookups_of_implication
    {antecedent consequent : Option Name}
    (body : node.body = .implication antecedent consequent) :
    (∀ name ∈ antecedent, name ∈ node.lookups) ∧
      ∀ name ∈ consequent, name ∈ node.lookups := by
  simp only [lookups, body, Body.references, Option.mem_def,
    List.mem_append, Option.mem_toList]
  exact ⟨fun _ => Or.inl, fun _ => Or.inr⟩

end Node

namespace Registry

/-! ## The trees of names -/

/-- The tree a name stands for, or a gap. -/
def nameTree (registry : Registry) (levels : Nat) (name : Name) : Tree :=
  match registry.referent? name with
  | some operand => registry.unfold levels operand
  | none => .unresolved (registry.string name)

theorem nameTree_of_referent
    {registry : Registry} {name : Name} {operand : Node}
    (stands : registry.referent? name = some operand) (levels : Nat) :
    registry.nameTree levels name = registry.unfold levels operand := by
  simp only [nameTree, stands]

theorem nameTree_of_no_referent
    {registry : Registry} {name : Name}
    (nothing : registry.referent? name = none) (levels : Nat) :
    registry.nameTree levels name = .unresolved (registry.string name) := by
  simp only [nameTree, nothing]

/-- The tree of a side of an implication. -/
def sideTree
    (registry : Registry) (levels : Nat) (side : Option Name) : Tree :=
  (side.map (registry.nameTree levels)).getD .absent

/-- The tree of the formula recorded for a disjunctive normal form. -/
def recordedTree
    (registry : Registry) (levels : Nat) (recorded : Option Key) : Tree :=
  ((recorded.bind registry.node?).map (registry.unfold levels)).getD .absent

section Equations

variable {registry : Registry} {node : Node}

@[simp] theorem unfold_zero (node : Node) :
    registry.unfold 0 node = .beyond :=
  rfl

theorem unfold_atom (body : node.body = .atom) (levels : Nat) :
    registry.unfold (levels + 1) node =
      .atom (registry.string node.name) := by
  obtain ⟨name, _⟩ := node
  cases body
  rfl

theorem unfold_negation
    {operand : Name} (body : node.body = .negation operand)
    (levels : Nat) :
    registry.unfold (levels + 1) node =
      .negation (registry.nameTree levels operand) := by
  obtain ⟨name, _⟩ := node
  cases body
  rfl

theorem unfold_junction
    {connective : Connective} {operands : List Name}
    (body : node.body = .junction connective operands) (levels : Nat) :
    registry.unfold (levels + 1) node =
      .junction connective (operands.map (registry.nameTree levels)) := by
  obtain ⟨name, _⟩ := node
  cases body
  rfl

theorem unfold_implication
    {antecedent consequent : Option Name}
    (body : node.body = .implication antecedent consequent)
    (levels : Nat) :
    registry.unfold (levels + 1) node =
      .implication (registry.sideTree levels antecedent)
        (registry.sideTree levels consequent) := by
  obtain ⟨name, _⟩ := node
  cases body
  rfl

theorem unfold_dnf
    {atoms : List Name} {rows : UInt64} {recorded : Option Key}
    (body : node.body = .dnf atoms rows recorded) (levels : Nat) :
    registry.unfold (levels + 1) node =
      .generated (registry.recordedTree levels recorded) := by
  simp only [unfold, body, recordedTree]
  cases recorded.bind registry.node? <;> rfl

/-- No node unfolds to a gap. -/
theorem unfold_ne_unresolved (levels : Nat) (node : Node) (string : String) :
    registry.unfold levels node ≠ .unresolved string := by
  cases levels with
  | zero => simp
  | succ levels =>
      cases body : node.body with
      | atom => simp [unfold_atom body]
      | negation => simp [unfold_negation body]
      | junction => simp [unfold_junction body]
      | implication => simp [unfold_implication body]
      | dnf => simp [unfold_dnf body]

theorem unfold_ne_absent (levels : Nat) (node : Node) :
    registry.unfold levels node ≠ .absent := by
  cases levels with
  | zero => simp
  | succ levels =>
      cases body : node.body with
      | atom => simp [unfold_atom body]
      | negation => simp [unfold_negation body]
      | junction => simp [unfold_junction body]
      | implication => simp [unfold_implication body]
      | dnf => simp [unfold_dnf body]

end Equations

/-! ## Trees in a larger registry -/

section Growth

variable {before after : Registry}

theorem nameTree_eq_iff
    (afterWellFormed : after.WellFormed)
    (extension : before.Extends after)
    {levels : Nat} {name : Name} (inside : name < before.strings.size)
    (operands : ∀ {key operand}, before.node? key = some operand →
      (after.unfold levels operand = before.unfold levels operand ↔
        ∀ string ∈ (before.unfold levels operand).gaps,
          after.get? string = none)) :
    after.nameTree levels name = before.nameTree levels name ↔
      ∀ string ∈ (before.nameTree levels name).gaps,
        after.get? string = none := by
  cases stands : before.referent? name with
  | some operand =>
      obtain ⟨key, _, stored⟩ := (referent?_eq_some_iff name operand).mp stands
      rw [nameTree_of_referent stands,
        nameTree_of_referent (extension.referent? stands)]
      exact operands stored
  | none =>
      have afterInside : name < after.strings.size :=
        Nat.lt_of_lt_of_le inside extension.strings_size_le
      have unbound : after.get? (before.string name) = none ↔
          after.referent? name = none := by
        rw [← extension.string_eq inside,
          afterWellFormed.get?_string afterInside,
          afterWellFormed.referent?_eq_none_iff]
      rw [nameTree_of_no_referent stands]
      simp only [Tree.gaps, List.mem_singleton, forall_eq, unbound]
      constructor
      · intro same
        cases captured : after.referent? name with
        | none => rfl
        | some operand =>
            rw [nameTree_of_referent captured] at same
            exact (unfold_ne_unresolved levels operand _ same).elim
      · intro nothing
        rw [nameTree_of_no_referent nothing, extension.string_eq inside]

theorem sideTree_eq_iff
    {levels : Nat} {side : Option Name}
    (names : ∀ name ∈ side.toList,
      (after.nameTree levels name = before.nameTree levels name ↔
        ∀ string ∈ (before.nameTree levels name).gaps,
          after.get? string = none)) :
    after.sideTree levels side = before.sideTree levels side ↔
      ∀ string ∈ (before.sideTree levels side).gaps,
        after.get? string = none := by
  cases side with
  | none => simp [sideTree, Tree.gaps]
  | some name => exact names name (by simp)

theorem recordedTree_eq_iff
    (extension : before.Extends after)
    {levels : Nat} {recorded : Option Key}
    (issued : ∀ key ∈ recorded, key.id < before.nodes.size)
    (formulas : ∀ {key formula}, before.node? key = some formula →
      (after.unfold levels formula = before.unfold levels formula ↔
        ∀ string ∈ (before.unfold levels formula).gaps,
          after.get? string = none)) :
    after.recordedTree levels recorded =
        before.recordedTree levels recorded ↔
      ∀ string ∈ (before.recordedTree levels recorded).gaps,
        after.get? string = none := by
  cases recorded with
  | none => simp [recordedTree, Tree.gaps]
  | some key =>
      have kept := extension.nodes (issued key rfl)
      cases stored : before.node? key with
      | none =>
          rw [stored] at kept
          simp [recordedTree, stored, kept, Tree.gaps]
      | some formula =>
          rw [stored] at kept
          simpa [recordedTree, stored, kept] using formulas stored

/-- While a registry grows, the tree of a node stored before changes if and
only if the string of one of its gaps becomes bound. -/
theorem unfold_eq_iff
    (beforeWellFormed : before.WellFormed)
    (afterWellFormed : after.WellFormed)
    (extension : before.Extends after) (levels : Nat)
    {key : Key} {node : Node} (stored : before.node? key = some node) :
    after.unfold levels node = before.unfold levels node ↔
      ∀ string ∈ (before.unfold levels node).gaps,
        after.get? string = none := by
  induction levels generalizing key node with
  | zero => simp [Tree.gaps]
  | succ levels inductionHypothesis =>
      have admits := beforeWellFormed.admits stored
      have names : ∀ name ∈ node.body.references,
          (after.nameTree levels name = before.nameTree levels name ↔
            ∀ string ∈ (before.nameTree levels name).gaps,
              after.get? string = none) :=
        fun name member => nameTree_eq_iff afterWellFormed extension
          (admits.references name member) inductionHypothesis
      cases body : node.body with
      | atom =>
          have inside := beforeWellFormed.named stored
          simp [unfold_atom body, extension.string_eq inside, Tree.gaps]
      | negation operand =>
          rw [unfold_negation body, unfold_negation body]
          simpa [Tree.gaps] using
            names operand (by simp [body, Body.references])
      | junction connective operands =>
          rw [body] at names
          rw [unfold_junction body, unfold_junction body, Tree.gaps]
          simp only [Tree.junction.injEq, true_and, List.map_inj_left,
            Tree.mem_gapsAmong, List.mem_map]
          constructor
          · rintro same string ⟨_, ⟨name, member, rfl⟩, gap⟩
            exact (names name member).mp (same name member) string gap
          · intro unbound name member
            refine (names name member).mpr fun string gap => ?_
            exact unbound string ⟨_, ⟨name, member, rfl⟩, gap⟩
      | implication antecedent consequent =>
          rw [body] at names
          have premise := sideTree_eq_iff fun name member =>
            names name (List.mem_append_left _ member)
          have conclusion := sideTree_eq_iff fun name member =>
            names name (List.mem_append_right _ member)
          rw [unfold_implication body, unfold_implication body, Tree.gaps]
          simp only [Tree.implication.injEq, premise, conclusion,
            List.forall_mem_append]
      | dnf atoms rows recorded =>
          rw [body] at admits
          have issued : ∀ key ∈ recorded, key.id < before.nodes.size :=
            admits.generated
          rw [unfold_dnf body, unfold_dnf body]
          simpa [Tree.gaps] using
            recordedTree_eq_iff extension issued inductionHypothesis

/-- A tree without gaps stays what it is. -/
theorem unfold_eq_of_gaps_eq_nil
    (beforeWellFormed : before.WellFormed)
    (afterWellFormed : after.WellFormed)
    (extension : before.Extends after) {levels : Nat}
    {key : Key} {node : Node} (stored : before.node? key = some node)
    (full : (before.unfold levels node).gaps = []) :
    after.unfold levels node = before.unfold levels node := by
  rw [unfold_eq_iff beforeWellFormed afterWellFormed extension levels
    stored, full]
  simp

end Growth

end Registry

end NamedLogic
