import NamedLogic.Proofs.ReachedParts
import NamedLogic.Proofs.TreeValue

/-!
# Registries that agree on what is met

A traversal reads little of a registry at a node: the strings of its names, what
the names looked up stand for, and the formula generated for it.  Two registries
that agree on this at every node met from a formula give it the same trees, and
so the same values, whatever else they hold.
-/

namespace NamedLogic

namespace Registry

/-- What a traversal reads at the node is the same in both registries. -/
structure AgreesAt (first second : Registry) (node : Node) : Prop where
  string : ∀ name ∈ node.name :: node.lookups,
    second.string name = first.string name
  referent : ∀ name ∈ node.lookups,
    second.referent? name = first.referent? name
  recorded : ∀ key ∈ node.body.generated?,
    second.node? key = first.node? key

section Agreement

variable {first second third : Registry} {node : Node}

theorem AgreesAt.trans
    (agrees : first.AgreesAt second node)
    (further : second.AgreesAt third node) : first.AgreesAt third node where
  string name member :=
    (further.string name member).trans (agrees.string name member)
  referent name named :=
    (further.referent name named).trans (agrees.referent name named)
  recorded key generated :=
    (further.recorded key generated).trans (agrees.recorded key generated)

/-- The names that a node looks up have the same trees if what they stand for
has. -/
theorem AgreesAt.nameTree_eq
    (agrees : first.AgreesAt second node) {levels : Nat}
    (nodes : ∀ next, first.Descends node next →
      second.unfold levels next = first.unfold levels next)
    {name : Name} (named : name ∈ node.lookups) :
    second.nameTree levels name = first.nameTree levels name := by
  have same := agrees.referent name named
  cases stands : first.referent? name with
  | some operand =>
      rw [stands] at same
      rw [nameTree_of_referent stands, nameTree_of_referent same]
      exact nodes operand (.operand named stands)
  | none =>
      rw [stands] at same
      rw [nameTree_of_no_referent stands, nameTree_of_no_referent same,
        agrees.string name (List.mem_cons_of_mem _ named)]

theorem unfold_eq_of_agrees
    (agrees : ∀ part, first.Meets node part → first.AgreesAt second part)
    (levels : Nat) :
    second.unfold levels node = first.unfold levels node := by
  induction levels generalizing node with
  | zero => rfl
  | succ levels inductionHypothesis =>
      have here := agrees node (.here node)
      have nodes : ∀ next, first.Descends node next →
          second.unfold levels next = first.unfold levels next :=
        fun next step => inductionHypothesis fun part rest =>
          agrees part (.further step rest)
      have names : ∀ {name : Name}, name ∈ node.lookups →
          second.nameTree levels name = first.nameTree levels name :=
        here.nameTree_eq nodes
      have sides : ∀ {side : Option Name},
          (∀ name ∈ side, name ∈ node.lookups) →
            second.sideTree levels side = first.sideTree levels side := by
        intro side among
        cases side with
        | none => rfl
        | some name => exact names (among name rfl)
      cases body : node.body with
      | atom =>
          rw [unfold_atom body, unfold_atom body,
            here.string _ List.mem_cons_self]
      | negation operand =>
          rw [unfold_negation body, unfold_negation body,
            names (Node.mem_lookups_of_negation body)]
      | junction connective operands =>
          rw [unfold_junction body, unfold_junction body]
          exact congrArg _ <| List.map_congr_left fun name member =>
            names (Node.mem_lookups_of_junction body member)
      | implication antecedent consequent =>
          obtain ⟨left, right⟩ := Node.mem_lookups_of_implication body
          rw [unfold_implication body, unfold_implication body, sides left,
            sides right]
      | dnf atoms rows recorded =>
          rw [unfold_dnf body, unfold_dnf body]
          unfold recordedTree
          cases recorded with
          | none => rfl
          | some key =>
              have same := here.recorded key (by rw [body]; rfl)
              rw [Option.bind_some, Option.bind_some, same]
              cases found : first.node? key with
              | none => rfl
              | some formula =>
                  rw [Option.map_some, Option.map_some,
                    nodes formula (.generated body found)]

/-- A formula stored in both registries has the same value in both, provided
that their traversals end at the same depth. -/
theorem evaluate_eq_of_agrees
    {V : Type} [Interpretation V] [Extensional V] (valuation : Valuation V)
    {key : Key} (stored : first.node? key = some node)
    (kept : second.node? key = some node)
    (levels : second.levels 0 = first.levels 0)
    (agrees : ∀ part, first.Meets node part → first.AgreesAt second part) :
    second.evaluate valuation key = first.evaluate valuation key := by
  rw [second.evaluate_eq_value valuation kept, levels,
    unfold_eq_of_agrees agrees, first.evaluate_eq_value valuation stored]

end Agreement

end Registry

end NamedLogic
