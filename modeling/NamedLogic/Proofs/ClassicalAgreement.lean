import NamedLogic.Proofs.BoundedDescent
import NamedLogic.Proofs.Persistence
import NamedLogic.Proofs.Representation
import NamedLogic.Proofs.TreeHeight

/-!
# The two logics on classical values

The two families read the connectives in different orders, and one may be spared
an operand that the other asks for.  Where nothing is missing and the atoms have
classical values, what the four-valued logic finds is nevertheless found by the
classical one, since the latter asks for no more operands.
-/

namespace NamedLogic

/-- The classical valuation read as a four-valued one. -/
def Valuation.fourValued (valuation : Valuation Bool) : Valuation Four where
  entries := valuation.entries.map fun entry => (entry.1, Four.ofBool entry.2)
  ascending := List.pairwise_map.mpr valuation.ascending

theorem Valuation.get?_fourValued
    (valuation : Valuation Bool) (string : String) :
    valuation.fourValued.get? string =
      (valuation.get? string).map Four.ofBool := by
  simp only [fourValued, get?]
  induction valuation.entries with
  | nil => rfl
  | cons entry entries inductionHypothesis =>
      rw [List.map_cons, List.lookup_cons, List.lookup_cons,
        inductionHypothesis]
      cases string == entry.1 <;> rfl

/-! ## Operands -/

/-- Whatever the four-valued evaluation finds is a classical value, which the
classical evaluation finds as well. -/
def Matches
    (four : Traversed (Option Four)) (classical : Traversed (Option Bool)) :
    Prop :=
  ∀ outcome, four = .ok outcome →
    ∃ truth, outcome = some (Four.ofBool truth) ∧
      classical = .ok (some truth)

theorem matches_ok (truth : Bool) :
    Matches (.ok (some (Four.ofBool truth))) (.ok (some truth)) := by
  rintro _ ⟨⟩
  exact ⟨truth, rfl, rfl⟩

theorem Matches.negate
    {four : Traversed (Option Four)} {classical : Traversed (Option Bool)}
    (matched : Matches four classical) :
    Matches (four.map (Option.map TruthValue.negate))
      (classical.map (Option.map TruthValue.negate)) := by
  cases four with
  | error cause => rintro _ ⟨⟩
  | ok value =>
      obtain ⟨truth, rfl, rfl⟩ := matched value rfl
      rintro _ ⟨⟩
      exact ⟨!truth, by cases truth <;> rfl, rfl⟩

section Readings

variable {α : Type} {four : α → Traversed (Option Four)}
  {classical : α → Traversed (Option Bool)}

/-- As long as the operands are true, both readings go on.  At the first false
one, both stop. -/
theorem matches_conjunction
    {operands : List α}
    (parts : ∀ operand ∈ operands, Matches (four operand) (classical operand)) :
    Matches (Belnap.conjunctionFrom four Four.truth operands)
      (Classical.conjunction classical operands) := by
  induction operands with
  | nil => exact matches_ok true
  | cons operand operands inductionHypothesis =>
      intro outcome found
      rw [Belnap.conjunctionFrom, Traversed.bind_eq_ok_iff] at found
      obtain ⟨value, evaluated, rest⟩ := found
      obtain ⟨truth, rfl, matched⟩ :=
        parts operand List.mem_cons_self value evaluated
      rw [Classical.conjunction, matched]
      cases truth with
      | false => exact matches_ok false outcome rest
      | true =>
          exact inductionHypothesis
            (fun other member => parts other (List.mem_cons_of_mem _ member))
            outcome rest

theorem matches_disjunction
    {operands : List α}
    (parts : ∀ operand ∈ operands, Matches (four operand) (classical operand)) :
    Matches (Belnap.disjunctionFrom four Four.falsity operands)
      (Classical.disjunction classical operands) := by
  induction operands with
  | nil => exact matches_ok false
  | cons operand operands inductionHypothesis =>
      intro outcome found
      rw [Belnap.disjunctionFrom, Traversed.bind_eq_ok_iff] at found
      obtain ⟨value, evaluated, rest⟩ := found
      obtain ⟨truth, rfl, matched⟩ :=
        parts operand List.mem_cons_self value evaluated
      rw [Classical.disjunction, matched]
      cases truth with
      | false =>
          exact inductionHypothesis
            (fun other member => parts other (List.mem_cons_of_mem _ member))
            outcome rest
      | true => exact matches_ok true outcome rest

/-- The four-valued reading asks for both sides, so that the antecedent is
evaluated also where the classical reading needs it after the consequent. -/
theorem matches_implication
    {antecedent consequent : α}
    (left : Matches (four antecedent) (classical antecedent))
    (right : Matches (four consequent) (classical consequent)) :
    Matches (Belnap.implication four antecedent consequent)
      (Classical.implication classical antecedent consequent) := by
  intro outcome found
  rw [Belnap.implication, Traversed.bind_eq_ok_iff] at found
  obtain ⟨_, premiseEvaluated, found⟩ := found
  obtain ⟨_, conclusionEvaluated, found⟩ := Traversed.bind_eq_ok_iff.mp found
  obtain ⟨premise, rfl, premiseMatched⟩ := left _ premiseEvaluated
  obtain ⟨conclusion, rfl, conclusionMatched⟩ := right _ conclusionEvaluated
  cases found
  refine ⟨!premise || conclusion, ?_, ?_⟩
  · cases premise <;> cases conclusion <;> rfl
  · rw [Classical.implication, conclusionMatched]
    cases conclusion with
    | true => rw [Bool.or_true]; rfl
    | false => rw [premiseMatched, Bool.or_false]; rfl

end Readings

/-! ## Nodes -/

namespace Registry

variable {registry : Registry} {node : Node}

/-- Nothing is missing in a node: its names stand for something, an implication
has both sides, and the formula generated for a disjunctive normal form is
stored. -/
def Supplied (registry : Registry) (node : Node) : Prop :=
  (∀ name ∈ node.lookups, (registry.referent? name).isSome) ∧
    match node.body with
    | .implication antecedent consequent =>
        antecedent.isSome ∧ consequent.isSome
    | .dnf _ _ recorded => (recorded.bind registry.node?).isSome
    | _ => True

instance (registry : Registry) (node : Node) :
    Decidable (registry.Supplied node) :=
  have : Decidable (match node.body with
      | .implication antecedent consequent =>
          antecedent.isSome ∧ consequent.isSome
      | .dnf _ _ recorded => (recorded.bind registry.node?).isSome
      | _ => True) :=
    match node.body with
    | .implication _ _ => inferInstanceAs (Decidable (_ ∧ _))
    | .dnf _ _ _ => inferInstanceAs (Decidable (_ = true))
    | .atom | .negation _ | .junction _ _ => .isTrue trivial
  inferInstanceAs (Decidable (_ ∧ _))

theorem Supplied.resolved
    (supplied : registry.Supplied node) {name : Name}
    (named : name ∈ node.lookups) :
    ∃ operand, registry.referent? name = some operand :=
  Option.isSome_iff_exists.mp (supplied.1 name named)

theorem Supplied.sided
    (supplied : registry.Supplied node)
    {antecedent consequent : Option Name}
    (body : node.body = .implication antecedent consequent) :
    (∃ premise, antecedent = some premise) ∧
      ∃ conclusion, consequent = some conclusion := by
  have sides := supplied.2
  rw [body] at sides
  exact sides.imp Option.isSome_iff_exists.mp Option.isSome_iff_exists.mp

theorem Supplied.generated
    (supplied : registry.Supplied node) {atoms : List Name} {rows : UInt64}
    {recorded : Option Key} (body : node.body = .dnf atoms rows recorded) :
    ∃ formula, recorded.bind registry.node? = some formula := by
  have present := supplied.2
  rw [body] at present
  exact Option.isSome_iff_exists.mp present

/-- A classical valuation gives the atom a value, if the node is one. -/
def Given
    (registry : Registry) (valuation : Valuation Bool) (node : Node) : Prop :=
  node.isAtom → valuation.contains (registry.string node.name)

/-- The induction is on the levels; both logics descend alike. -/
theorem matches_nodeValue
    {valuation : Valuation Bool} {levels : Nat}
    (supplied : ∀ part, registry.Meets node part → registry.Supplied part)
    (given : ∀ part, registry.Meets node part →
      registry.Given valuation part) :
    Matches (registry.nodeValue valuation.fourValued levels node)
      (registry.nodeValue valuation levels node) := by
  induction levels generalizing node with
  | zero => rintro _ ⟨⟩
  | succ levels inductionHypothesis =>
      have here := supplied node (.here node)
      have next : ∀ next, registry.Descends node next →
          Matches (registry.nodeValue valuation.fourValued levels next)
            (registry.nodeValue valuation levels next) :=
        fun next step => inductionHypothesis
          (fun part rest => supplied part (.further step rest))
          (fun part rest => given part (.further step rest))
      have names : ∀ name ∈ node.lookups,
          Matches (registry.sideValue valuation.fourValued levels (some name))
            (registry.sideValue valuation levels (some name)) := by
        intro name named
        obtain ⟨operand, stands⟩ := here.resolved named
        rw [sideValue_of_referent stands, sideValue_of_referent stands]
        exact next operand (.operand named stands)
      rw [nodeValue_succ, nodeValue_succ]
      cases body : node.body with
      | atom =>
          have contained := given node (.here node) (by rw [Node.isAtom, body])
          rw [Valuation.get?_fourValued,
            Valuation.get?_of_contains contained]
          exact matches_ok _
      | negation operand =>
          exact (names operand (Node.mem_lookups_of_negation body)).negate
      | junction connective operands =>
          have parts : ∀ name ∈ operands, Matches _ _ := fun name member =>
            names name (Node.mem_lookups_of_junction body member)
          cases connective with
          | conjunction => exact matches_conjunction parts
          | disjunction => exact matches_disjunction parts
      | implication antecedent consequent =>
          obtain ⟨⟨premise, rfl⟩, conclusion, rfl⟩ := here.sided body
          obtain ⟨premiseNamed, conclusionNamed⟩ :=
            Node.mem_lookups_of_implication body
          exact matches_implication (names premise (premiseNamed premise rfl))
            (names conclusion (conclusionNamed conclusion rfl))
      | dnf atoms rows recorded =>
          obtain ⟨formula, present⟩ := here.generated body
          obtain ⟨key, rfl, stored⟩ := Option.bind_eq_some_iff.mp present
          simp only [present]
          exact next formula (.generated body stored)

/-! ## Classical truth -/

theorem total_of_supplied
    {levels : Nat} (within : ChainsWithin registry.Descends levels node)
    (supplied : ∀ part, registry.Meets node part → registry.Supplied part) :
    (registry.unfold levels node).Total := by
  refine every_of_chainsWithin ?_ within fun part meets => ⟨?_, ?_, ?_⟩
  · intro tree solid
    cases tree <;> trivial
  · intro name named nothing
    obtain ⟨operand, stands⟩ := (supplied part meets).resolved named
    rw [nothing] at stands
    cases stands
  · intro antecedent consequent body lacking
    obtain ⟨⟨premise, rfl⟩, conclusion, rfl⟩ :=
      (supplied part meets).sided body
    rcases lacking with none | none <;> cases none
  · intro atoms rows recorded body nothing
    obtain ⟨formula, present⟩ := (supplied part meets).generated body
    rw [nothing] at present
    cases present

theorem nodeValue_persists_of_le
    {V : Type} [Interpretation V] [Persistent V] {valuation : Valuation V}
    {small large : Nat} (more : small ≤ large) :
    Persists (registry.nodeValue valuation small)
      (registry.nodeValue valuation large) := by
  induction more with
  | refl => exact fun _ _ => id
  | step _ inductionHypothesis =>
      exact fun node outcome found =>
        nodeValue_persists _ node outcome (inductionHypothesis node outcome found)

/-- Both logics are classical on total states.  If no descent from a stored
formula comes back and nothing is missing in the nodes met, the formula has one
tree, whatever the number of levels from a certain one on; and under a classical
valuation of all atoms met, whatever the four-valued logic finds is the truth of
that tree, and the classical logic finds it as well. -/
theorem logics_agree_on_total_state
    (registry : Registry) {key : Key} {node : Node}
    (stored : registry.node? key = some node)
    (acyclic : registry.Acyclic node)
    (supplied : ∀ part, registry.Meets node part → registry.Supplied part) :
    ∃ tree : Tree,
      (∀ levels, registry.nodeCount ≤ levels →
        registry.unfold levels node = tree) ∧
      tree.Total ∧
      ∀ valuation : Valuation Bool,
        (∀ part, registry.Meets node part → registry.Given valuation part) →
        ∀ outcome, registry.evaluate valuation.fourValued key = .ok outcome →
          outcome = some (Four.ofBool (tree.holds valuation.state)) ∧
          registry.evaluate valuation key =
            .ok (some (tree.holds valuation.state)) := by
  have within := acyclic.chainsWithin (mem_stock_iff.mpr ⟨key, stored⟩)
  have whole : ∀ levels, registry.nodeCount ≤ levels →
      registry.unfold levels node =
        registry.unfold registry.nodeCount node :=
    fun _ => unfold_eq_of_settled (settled_of_chainsWithin within)
  have total := total_of_supplied within supplied
  refine ⟨_, whole, total, fun valuation given outcome found => ?_⟩
  rw [evaluate, stored] at found ⊢
  obtain ⟨truth, rfl, classical⟩ :=
    matches_nodeValue supplied given outcome found
  -- With more levels, the value found is that of the whole tree.
  let levels := max (registry.levels 0) registry.nodeCount
  have deeper := nodeValue_persists_of_le
    (Nat.le_max_left _ _ : registry.levels 0 ≤ levels) node _ classical
  have gives : Tree.Gives valuation valuation.state
      ((registry.unfold registry.nodeCount node).literals true) := by
    intro literal member
    obtain ⟨atom, meets, body, same⟩ := exists_atom_of_mem_literals member
    exact Valuation.get?_of_contains
      (same ▸ given atom meets (by rw [Node.isAtom, body]))
  rw [nodeValue_eq_value, whole levels (Nat.le_max_right _ _),
    total.value_eq gives] at deeper
  obtain rfl := Option.some.inj (Except.ok.inj deeper)
  exact ⟨rfl, classical⟩

/-- An implication from a disjunctive normal form to a disjunction that shares
an atom with it and has an empty conjunction for an operand. -/
theorem logics_agree_on_shared_atom :
    let registry := replay
      [.atom "a", .atom "b", .dnf [⟨1⟩, ⟨2⟩] 6, .junction .conjunction [],
        .negation ⟨12⟩, .junction .disjunction [⟨13⟩, ⟨1⟩],
        .implication (some ⟨11⟩) (some ⟨14⟩)]
    let valuation := Valuation.ofList [("a", false), ("b", true)]
    registry.evaluate valuation.fourValued ⟨15⟩ =
        .ok (some Four.falsity) ∧
      registry.evaluate valuation ⟨15⟩ = .ok (some false) := by
  intro registry valuation
  let node : Node := { name := 14, body := .implication (some 10) (some 13) }
  have stored : registry.node? ⟨15⟩ = some node := by decide +kernel
  have member : node ∈ registry.stock := mem_stock_iff.mpr ⟨_, stored⟩
  -- Every step lowers the height of the tree.
  have lower : ∀ node ∈ registry.stock, ∀ next ∈ registry.successors node,
      next ∈ registry.stock ∧
        (registry.unfold 15 next).height <
          (registry.unfold 15 node).height := by
    decide +kernel
  have supplied : ∀ node ∈ registry.stock, registry.Supplied node := by
    decide +kernel
  have given : ∀ node ∈ registry.stock, node.isAtom →
      valuation.contains (registry.string node.name) := by
    decide +kernel
  obtain ⟨tree, shape, _, agree⟩ := registry.logics_agree_on_total_state stored
    (acyclic_of_ranked lower member)
    fun part meets => supplied part (meets.ranked lower member).1
  have found : registry.evaluate valuation.fourValued ⟨15⟩ =
      .ok (some Four.falsity) := by decide +kernel
  obtain ⟨_, classical⟩ := agree valuation
    (fun part meets => given part (meets.ranked lower member).1) _ found
  refine ⟨found, classical.trans ?_⟩
  rw [← shape 15 (by decide +kernel)]
  decide +kernel

end Registry

end NamedLogic
