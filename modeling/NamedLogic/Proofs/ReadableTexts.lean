import NamedLogic.Proofs.CompleteTrees
import NamedLogic.Proofs.Representation
import NamedLogic.Proofs.TreeText

/-!
# Texts that can be read in one way only

A text begins with a word, with a sign of its own for a gap, for a missing side
and for a negation, or with a bracket; and what follows a formula in a longer
text begins with a space or with a closing bracket.  So a text ends where the
formula does, and gives the tree back, provided its words are free of signs and
every junction shows which connective it has.
-/

namespace NamedLogic

/-! ## Signs and words -/

/-- The signs that texts are put together with. -/
def signs : List Char :=
  [' ', '(', ')', '¬', '∧', '∨', '→', '?', '∅', '…']

/-- A string that stands out from the signs around it. -/
def IsWord (string : String) : Prop :=
  string ≠ "" ∧ ∀ char ∈ string.toList, char ∉ signs

-- Only the characters of the string are to be looked at, not all there are.
instance (string : String) : Decidable (IsWord string) :=
  have : Decidable (∀ char ∈ string.toList, char ∉ signs) :=
    List.decidableBAll _ _
  inferInstanceAs (Decidable (_ ∧ _))

/-- The sign between the operands of a junction. -/
def Connective.sign : Connective → Char
  | .conjunction => '∧'
  | .disjunction => '∨'

theorem Connective.toList_separator (connective : Connective) :
    connective.separator.toList = [' ', connective.sign, ' '] := by
  cases connective <;> simp [separator, sign]

/-- What may follow a formula in a longer text. -/
def Closes (rest : List Char) : Prop :=
  ∀ char ∈ rest.head?, char = ' ' ∨ char = ')'

theorem closes_nil : Closes [] := by
  simp [Closes]

theorem closes_space (rest : List Char) : Closes (' ' :: rest) := by
  simp [Closes]

theorem closes_bracket (rest : List Char) : Closes (')' :: rest) := by
  simp [Closes]

theorem Closes.mem_signs
    {char : Char} {rest : List Char} (closes : Closes (char :: rest)) :
    char ∈ signs := by
  rcases closes char rfl with rfl | rfl <;> decide

/-- A word ends before the first sign. -/
theorem word_append_inj
    {word other rest otherRest : List Char}
    (plain : ∀ char ∈ word, char ∉ signs)
    (otherPlain : ∀ char ∈ other, char ∉ signs)
    (closes : Closes rest) (otherCloses : Closes otherRest)
    (same : word ++ rest = other ++ otherRest) :
    word = other ∧ rest = otherRest := by
  induction word generalizing other with
  | nil =>
      cases other with
      | nil => exact ⟨rfl, same⟩
      | cons char other =>
          rw [List.nil_append, List.cons_append] at same
          subst same
          exact (otherPlain char List.mem_cons_self closes.mem_signs).elim
  | cons char word inductionHypothesis =>
      cases other with
      | nil =>
          rw [List.nil_append, List.cons_append] at same
          subst same
          exact (plain char List.mem_cons_self otherCloses.mem_signs).elim
      | cons otherChar other =>
          obtain ⟨rfl, tails⟩ := List.cons.inj same
          obtain ⟨rfl, rests⟩ := inductionHypothesis
            (fun letter member => plain letter (List.mem_cons_of_mem _ member))
            (fun letter member =>
              otherPlain letter (List.mem_cons_of_mem _ member)) tails
          exact ⟨rfl, rests⟩

namespace Tree

/-! ## Readable trees -/

/-- A root that a text shows: a string in it is a word, and a junction has a
connective to be seen, as it joins several operands.  A disjunctive normal form
leaves no trace in a text. -/
def Spelled : Tree → Prop
  | atom string | unresolved string => IsWord string
  | junction _ operands => 2 ≤ operands.length
  | generated _ => False
  | absent | negation _ | implication _ _ | beyond => True

/-- A tree that a text shows in all its parts. -/
def Readable (tree : Tree) : Prop :=
  tree.Every Spelled

/-- The ways in which texts begin. -/
inductive Opening where
  | word
  | gap
  | missing
  | negation
  | bracket
  | abandoned

/-- How the text of a tree begins. -/
def opening : Tree → Opening
  | atom _ => .word
  | unresolved _ => .gap
  | absent => .missing
  | negation _ => .negation
  | junction _ _ | implication _ _ => .bracket
  | generated formula => formula.opening
  | beyond => .abandoned

/-- How a text begins, told by its first character. -/
def Opening.ofChar (char : Char) : Opening :=
  if char = '?' then .gap
  else if char = '∅' then .missing
  else if char = '¬' then .negation
  else if char = '(' then .bracket
  else if char = '…' then .abandoned
  else .word

theorem Opening.ofChar_of_not_mem_signs
    {char : Char} (plain : char ∉ signs) : ofChar char = .word := by
  simp only [signs, List.mem_cons, List.not_mem_nil, or_false, not_or] at plain
  simp [ofChar, plain]

/-- The first character of a text tells how the text begins. -/
theorem Readable.exists_opening
    {tree : Tree} (readable : tree.Readable) :
    ∃ char rest, tree.text.toList = char :: rest ∧
      Opening.ofChar char = tree.opening := by
  cases tree with
  | atom string =>
      obtain ⟨full, plain⟩ : IsWord string := readable
      cases letters : string.toList with
      | nil => exact (full (String.toList_eq_nil_iff.mp letters)).elim
      | cons char rest =>
          rw [letters] at plain
          exact ⟨char, rest, letters, Opening.ofChar_of_not_mem_signs
            (plain char List.mem_cons_self)⟩
  | unresolved string => exact ⟨'?', string.toList, by simp [text], rfl⟩
  | absent => exact ⟨'∅', [], by simp [text], rfl⟩
  | negation operand => exact ⟨'¬', operand.text.toList, by simp [text], rfl⟩
  | junction connective operands =>
      exact ⟨'(', (connective.separator.intercalate (texts operands)).toList ++
        [')'], by simp [text], rfl⟩
  | implication antecedent consequent =>
      exact ⟨'(', antecedent.text.toList ++
        ' ' :: '→' :: ' ' :: (consequent.text.toList ++ [')']),
        by simp [text], rfl⟩
  | generated => exact readable.1.elim
  | beyond => exact ⟨'…', [], by simp [text], rfl⟩

/-- Texts that begin alike are texts of trees that do. -/
theorem opening_eq_of_append
    {tree other : Tree} {rest otherRest : List Char}
    (readable : tree.Readable) (otherReadable : other.Readable)
    (same : tree.text.toList ++ rest = other.text.toList ++ otherRest) :
    tree.opening = other.opening := by
  obtain ⟨char, letters, begins, tells⟩ := readable.exists_opening
  obtain ⟨otherChar, otherLetters, otherBegins, otherTells⟩ :=
    otherReadable.exists_opening
  rw [begins, otherBegins] at same
  rw [← tells, ← otherTells, (List.cons.inj same).1]

/-! ## Trees in brackets -/

/-- A tree in brackets, with its first operand and all later ones, each with the
sign before it. -/
inductive Brackets : Tree → Tree → List (Char × Tree) → Prop where
  | junction (connective : Connective) (first : Tree) (later : List Tree) :
      Brackets (.junction connective (first :: later)) first
        (later.map fun operand => (connective.sign, operand))
  | implication (antecedent consequent : Tree) :
      Brackets (.implication antecedent consequent) antecedent
        [('→', consequent)]

/-- The characters of the later operands and of the signs before them. -/
def laterText (later : List (Char × Tree)) : List Char :=
  later.flatMap fun operand =>
    ' ' :: operand.1 :: ' ' :: operand.2.text.toList

theorem laterText_cons (sign : Char) (operand : Tree)
    (later : List (Char × Tree)) :
    laterText ((sign, operand) :: later) =
      ' ' :: sign :: ' ' :: (operand.text.toList ++ laterText later) := by
  simp [laterText]

theorem toList_text_junction
    (connective : Connective) (first : Tree) (later : List Tree) :
    (junction connective (first :: later)).text.toList =
      '(' :: (first.text.toList ++
        (laterText (later.map fun operand => (connective.sign, operand)) ++
          [')'])) := by
  have joined : (connective.separator.intercalate
      (texts (first :: later))).toList = first.text.toList ++
        laterText (later.map fun operand => (connective.sign, operand)) := by
    induction later generalizing first with
    | nil => simp [texts, laterText]
    | cons second later inductionHypothesis =>
        rw [texts, texts, String.intercalate_cons_cons, String.toList_append,
          String.toList_append, connective.toList_separator, ← texts,
          inductionHypothesis, List.map_cons, laterText_cons]
        simp
  rw [text, String.toList_append, String.toList_append, joined]
  simp

theorem Brackets.toList_text
    {tree first : Tree} {later : List (Char × Tree)}
    (brackets : Brackets tree first later) :
    tree.text.toList =
      '(' :: (first.text.toList ++ (laterText later ++ [')'])) := by
  cases brackets with
  | junction connective first later =>
      exact toList_text_junction connective first later
  | implication antecedent consequent => simp [text, laterText]

theorem sign_ne_arrow (connective : Connective) : connective.sign ≠ '→' := by
  cases connective <;> decide

theorem sign_injective : Function.Injective Connective.sign := by
  intro first second same
  cases first <;> cases second <;> first | rfl | cases same

/-- The signs before the later operands of a junction are its own. -/
theorem mem_map_sign
    {connective : Connective} {later : List Tree} {operand : Char × Tree}
    (member : operand ∈ later.map fun operand => (connective.sign, operand)) :
    operand.1 = connective.sign := by
  obtain ⟨_, _, rfl⟩ := List.mem_map.mp member
  rfl

/-- With a second operand, the sign before it tells which tree it is. -/
theorem Brackets.unique
    {tree other first : Tree} {later : List (Char × Tree)}
    (brackets : Brackets tree first later)
    (otherBrackets : Brackets other first later)
    (several : later ≠ []) : tree = other := by
  generalize same : later = otherLater at otherBrackets
  cases brackets with
  | junction connective first later =>
      obtain ⟨second, rest, rfl⟩ :=
        List.exists_cons_of_ne_nil (several ∘ List.map_eq_nil_iff.mpr)
      cases otherBrackets with
      | junction otherConnective _ otherLater =>
          have operands := congrArg (List.map Prod.snd) same
          rw [List.map_map, List.map_map] at operands
          obtain rfl : second :: rest = otherLater := by simpa using operands
          obtain ⟨signs, -⟩ := Prod.ext_iff.mp (List.cons.inj same).1
          rw [sign_injective signs]
      | implication _ consequent =>
          obtain ⟨signs, -⟩ := Prod.ext_iff.mp (List.cons.inj same).1
          exact (sign_ne_arrow connective signs).elim
  | implication antecedent consequent =>
      cases otherBrackets with
      | junction connective _ otherLater =>
          have arrow := mem_map_sign (same ▸ List.mem_singleton_self _)
          exact (sign_ne_arrow connective arrow.symm).elim
      | implication => cases same; rfl

/-- A readable tree whose text begins with a bracket has a second operand. -/
theorem Readable.exists_brackets
    {tree : Tree} (readable : tree.Readable)
    (opening : tree.opening = .bracket) :
    ∃ first later, Brackets tree first later ∧ later ≠ [] ∧
      first.Readable ∧ ∀ operand ∈ later, operand.2.Readable := by
  cases tree with
  | junction connective operands =>
      obtain ⟨several, parts⟩ := every_junction_iff.mp readable
      obtain _ | ⟨first, later⟩ := operands
      · cases several
      refine ⟨first, _, .junction connective first later, ?_,
        parts first List.mem_cons_self, List.forall_mem_map.mpr ?_⟩
      · rintro none
        rw [List.map_eq_nil_iff.mp none] at several
        exact Nat.lt_irrefl _ several
      · exact fun operand member => parts operand (List.mem_cons_of_mem _ member)
  | implication antecedent consequent =>
      obtain ⟨-, left, right⟩ := readable
      exact ⟨antecedent, _, .implication antecedent consequent,
        List.cons_ne_nil _ _, left, List.forall_mem_singleton.mpr right⟩
  | generated => exact readable.1.elim
  | _ => cases opening

theorem closes_laterText (later : List (Char × Tree)) (rest : List Char) :
    Closes (laterText later ++ ')' :: rest) := by
  cases later with
  | nil => exact closes_bracket rest
  | cons operand later => exact closes_space _

/-! ## Unique reading -/

/-- Wherever a text of this tree stands, no readable tree but this one can be
read there, and what follows is read as what follows. -/
def ReadsUniquely (tree : Tree) : Prop :=
  ∀ ⦃other : Tree⦄ ⦃rest otherRest : List Char⦄,
    other.Readable → Closes rest → Closes otherRest →
      tree.text.toList ++ rest = other.text.toList ++ otherRest →
        tree = other ∧ rest = otherRest

theorem laterText_append_inj
    {later otherLater : List (Char × Tree)} {rest otherRest : List Char}
    (unique : ∀ operand ∈ later, operand.2.ReadsUniquely)
    (otherReadable : ∀ operand ∈ otherLater, operand.2.Readable)
    (same : laterText later ++ ')' :: rest =
      laterText otherLater ++ ')' :: otherRest) :
    later = otherLater ∧ rest = otherRest := by
  induction later generalizing otherLater with
  | nil =>
      cases otherLater with
      | nil => exact ⟨rfl, (List.cons.inj same).2⟩
      | cons => cases same
  | cons operand later inductionHypothesis =>
      cases otherLater with
      | nil => cases same
      | cons otherOperand otherLater =>
          obtain ⟨sign, operand⟩ := operand
          obtain ⟨otherSign, otherOperand⟩ := otherOperand
          rw [List.forall_mem_cons] at unique otherReadable
          simp only [laterText_cons, List.cons_append, List.append_assoc,
            List.cons.injEq, true_and] at same
          obtain ⟨rfl, same⟩ := same
          obtain ⟨rfl, tails⟩ := unique.1 otherReadable.1
            (closes_laterText later rest) (closes_laterText _ _) same
          obtain ⟨rfl, rests⟩ :=
            inductionHypothesis unique.2 otherReadable.2 tails
          exact ⟨rfl, rests⟩

section ReadsUniquely

variable {tree : Tree}

/-- Only trees whose texts begin alike need to be compared. -/
theorem readsUniquely_of_opening
    (readable : tree.Readable)
    (alike : ∀ ⦃other : Tree⦄ ⦃rest otherRest : List Char⦄,
      other.Readable → other.opening = tree.opening →
        Closes rest → Closes otherRest →
          tree.text.toList ++ rest = other.text.toList ++ otherRest →
            tree = other ∧ rest = otherRest) :
    tree.ReadsUniquely := by
  intro other rest otherRest otherReadable closes otherCloses same
  exact alike otherReadable
    (opening_eq_of_append readable otherReadable same).symm closes otherCloses
    same

theorem readsUniquely_atom
    {string : String} (readable : (atom string).Readable) :
    (atom string).ReadsUniquely := by
  refine readsUniquely_of_opening readable ?_
  intro other rest otherRest otherReadable opening closes otherCloses same
  cases other with
  | atom otherString =>
      obtain ⟨letters, rests⟩ := word_append_inj readable.2 otherReadable.2
        closes otherCloses same
      exact ⟨congrArg atom (String.toList_inj.mp letters), rests⟩
  | generated => exact otherReadable.1.elim
  | _ => cases opening

theorem readsUniquely_unresolved
    {string : String} (readable : (unresolved string).Readable) :
    (unresolved string).ReadsUniquely := by
  refine readsUniquely_of_opening readable ?_
  intro other rest otherRest otherReadable opening closes otherCloses same
  cases other with
  | unresolved otherString =>
      rw [text, text, String.toList_append, String.toList_append,
        List.append_assoc, List.append_assoc] at same
      obtain ⟨letters, rests⟩ := word_append_inj readable.2 otherReadable.2
        closes otherCloses (List.append_cancel_left same)
      exact ⟨congrArg unresolved (String.toList_inj.mp letters), rests⟩
  | generated => exact otherReadable.1.elim
  | _ => cases opening

theorem readsUniquely_absent : absent.ReadsUniquely := by
  refine readsUniquely_of_opening trivial ?_
  intro other rest otherRest otherReadable opening _ _ same
  cases other with
  | absent => exact ⟨rfl, List.append_cancel_left same⟩
  | generated => exact otherReadable.1.elim
  | _ => cases opening

theorem readsUniquely_beyond : beyond.ReadsUniquely := by
  refine readsUniquely_of_opening trivial ?_
  intro other rest otherRest otherReadable opening _ _ same
  cases other with
  | beyond => exact ⟨rfl, List.append_cancel_left same⟩
  | generated => exact otherReadable.1.elim
  | _ => cases opening

/-- A negation reads uniquely if its operand does. -/
theorem ReadsUniquely.negation
    {operand : Tree} (unique : operand.ReadsUniquely)
    (readable : (negation operand).Readable) :
    (Tree.negation operand).ReadsUniquely := by
  refine readsUniquely_of_opening readable ?_
  intro other rest otherRest otherReadable opening closes otherCloses same
  cases other with
  | negation otherOperand =>
      rw [text, text, String.toList_append, String.toList_append,
        List.append_assoc, List.append_assoc] at same
      obtain ⟨rfl, rests⟩ := unique otherReadable.2 closes otherCloses
        (List.append_cancel_left same)
      exact ⟨rfl, rests⟩
  | generated => exact otherReadable.1.elim
  | _ => cases opening

/-- A tree in brackets reads uniquely if its operands do. -/
theorem Brackets.readsUniquely
    {first : Tree} {later : List (Char × Tree)}
    (brackets : Brackets tree first later) (several : later ≠ [])
    (readable : tree.Readable) (begins : tree.opening = .bracket)
    (firstUnique : first.ReadsUniquely)
    (laterUnique : ∀ operand ∈ later, operand.2.ReadsUniquely) :
    tree.ReadsUniquely := by
  refine readsUniquely_of_opening readable ?_
  intro other rest otherRest otherReadable opening closes otherCloses same
  obtain ⟨otherFirst, otherLater, otherBrackets, -, firstReadable,
    laterReadable⟩ := otherReadable.exists_brackets (opening.trans begins)
  simp only [brackets.toList_text, otherBrackets.toList_text,
    List.cons_append, List.append_assoc, List.nil_append, List.cons.injEq,
    true_and] at same
  obtain ⟨rfl, tails⟩ := firstUnique firstReadable
    (closes_laterText later rest) (closes_laterText _ _) same
  obtain ⟨rfl, rests⟩ := laterText_append_inj laterUnique laterReadable tails
  exact ⟨brackets.unique otherBrackets several, rests⟩

/-- Readable trees read uniquely.  The induction is on the tree. -/
theorem Readable.readsUniquely
    (readable : tree.Readable) : tree.ReadsUniquely := by
  induction tree using Tree.inductionOn with
  | atom string => exact readsUniquely_atom readable
  | unresolved string => exact readsUniquely_unresolved readable
  | absent => exact readsUniquely_absent
  | negation operand inductionHypothesis =>
      exact (inductionHypothesis readable.2).negation readable
  | junction connective operands inductionHypothesis =>
      obtain ⟨first, later, brackets, several, firstReadable, laterReadable⟩ :=
        readable.exists_brackets rfl
      refine brackets.readsUniquely several readable rfl ?_ ?_
      · cases brackets with
        | junction => exact inductionHypothesis _ List.mem_cons_self firstReadable
      · intro operand member
        have operandReadable := laterReadable operand member
        cases brackets with
        | junction =>
            obtain ⟨operand, among, rfl⟩ := List.mem_map.mp member
            exact inductionHypothesis operand (List.mem_cons_of_mem _ among)
              operandReadable
  | implication antecedent consequent left right =>
      exact (Brackets.implication antecedent consequent).readsUniquely
        (List.cons_ne_nil _ _) readable rfl (left readable.2.1)
        (List.forall_mem_singleton.mpr (right readable.2.2))
  | generated => exact readable.1.elim
  | beyond => exact readsUniquely_beyond

end ReadsUniquely

/-- Readable trees with the same text are the same. -/
theorem Readable.eq_of_text_eq
    {tree other : Tree} (readable : tree.Readable)
    (otherReadable : other.Readable) (same : tree.text = other.text) :
    tree = other :=
  (readable.readsUniquely otherReadable closes_nil closes_nil
    (congrArg (String.toList · ++ []) same)).1

/-- A single operand does not show which connective it has. -/
example : (junction .conjunction [atom "p"]).text =
    (junction .disjunction [atom "p"]).text := by
  decide +kernel

end Tree

namespace Registry

/-! ## Legible nodes -/

/-- A text shows what there is of the node itself: it is no disjunctive normal
form, a junction has several operands, and the strings of an atom and of names
that stand for nothing are words. -/
structure Spells (registry : Registry) (node : Node) : Prop where
  plain : ¬ node.isDnf
  several : ∀ junction ∈ node.junction?, 2 ≤ junction.2.length
  atom : node.isAtom → IsWord (registry.string node.name)
  gaps : ∀ name ∈ node.lookups, registry.referent? name = none →
    IsWord (registry.string name)

instance (registry : Registry) (node : Node) :
    Decidable (registry.Spells node) :=
  decidable_of_iff
    (¬ node.isDnf ∧ (∀ junction ∈ node.junction?, 2 ≤ junction.2.length) ∧
      (node.isAtom → IsWord (registry.string node.name)) ∧
        ∀ name ∈ node.lookups, registry.referent? name = none →
          IsWord (registry.string name))
    ⟨fun ⟨plain, several, atom, gaps⟩ => ⟨plain, several, atom, gaps⟩,
      fun ⟨plain, several, atom, gaps⟩ => ⟨plain, several, atom, gaps⟩⟩

/-- A node whose text shows its whole tree: a traversal from it does not reach the
depth limit, and the text shows every node met. -/
structure Legible (registry : Registry) (node : Node) : Prop where
  settled : (registry.unfold (registry.levels 0) node).Settled
  spells : ∀ part, registry.Meets node part → registry.Spells part

theorem Legible.readable
    {registry : Registry} {node : Node} (legible : registry.Legible node)
    (levels : Nat) : (registry.unfold levels node).Readable := by
  refine every_unfold (.inl trivial) ?_ fun part meets =>
    ⟨(legible.spells part meets).gaps, ?_, ?_⟩
  · intro part meets below
    obtain ⟨plain, several, atom, -⟩ := legible.spells part meets
    cases body : part.body with
    | atom =>
        rw [unfold_atom body]
        exact atom (by rw [Node.isAtom, body])
    | negation => rw [unfold_negation body]; trivial
    | junction connective operands =>
        rw [unfold_junction body, Tree.Spelled, List.length_map]
        exact several (connective, operands) (by rw [Node.junction?, body]; rfl)
    | implication => rw [unfold_implication body]; trivial
    | dnf => exact (plain (by rw [Node.isDnf, body])).elim
  · exact fun _ _ _ _ => trivial
  · exact fun _ _ _ _ _ => trivial

/-- A node is legible if all nodes of a list that no step leaves are spelled out,
and a rank that every step lowers keeps within the depth limit. -/
theorem legible_of_ranked
    {registry : Registry} {node : Node} {nodes : List Node} {rank : Node → Nat}
    (lower : ∀ node ∈ nodes, ∀ next ∈ registry.successors node,
      next ∈ nodes ∧ rank next < rank node)
    (spells : ∀ part ∈ nodes, registry.Spells part)
    (deep : registry.nodeCount ≤ registry.levels 0)
    (member : node ∈ nodes) (stored : node ∈ registry.stock) :
    registry.Legible node where
  settled := by
    have settled := settled_of_chainsWithin
      ((acyclic_of_ranked lower member).chainsWithin stored)
    rwa [unfold_eq_of_settled settled deep]
  spells part meets := spells part (meets.ranked lower member).1

/-- Legible formulas, also of different registries, have the same text exactly if
they unfold to the same tree. -/
theorem text_eq_iff_unfolds_alike
    {first second : Registry} {left right : Key} {leftNode rightNode : Node}
    (leftStored : first.node? left = some leftNode)
    (rightStored : second.node? right = some rightNode)
    (leftLegible : first.Legible leftNode)
    (rightLegible : second.Legible rightNode) :
    first.text left = second.text right ↔
      ∃ tree, first.Unfolds left tree ∧ second.Unfolds right tree := by
  have leftUnfolds := (unfolds_iff_of_stored leftStored).mpr
    ⟨leftLegible.settled, _, rfl⟩
  have rightUnfolds := (unfolds_iff_of_stored rightStored).mpr
    ⟨rightLegible.settled, _, rfl⟩
  rw [text_eq_text_unfold _ leftStored, text_eq_text_unfold _ rightStored]
  constructor
  · intro same
    have alike := (leftLegible.readable _).eq_of_text_eq
      (rightLegible.readable _) same
    exact ⟨_, leftUnfolds, alike ▸ rightUnfolds⟩
  · rintro ⟨tree, leftTree, rightTree⟩
    rw [leftUnfolds.unique leftTree, rightUnfolds.unique rightTree]

/-- A formula with a missing side, an operand that no longer stands for anything
and brackets within brackets, in two registries filled in different order. -/
theorem text_eq_iff_unfolds_alike_of_gap :
    let first := replay
      [.atom "p", .atom "q", .negation ⟨1⟩,
        .junction .disjunction [⟨3⟩, ⟨2⟩, ⟨1⟩], .implication none (some ⟨4⟩),
        .junction .conjunction [⟨5⟩, ⟨2⟩], .remove "q"]
    let second := replay
      [.freshAtom, .atom "q", .remove "q", .atom "p", .atom "q", .negation ⟨3⟩,
        .junction .disjunction [⟨5⟩, ⟨4⟩, ⟨3⟩], .implication none (some ⟨6⟩),
        .junction .conjunction [⟨7⟩, ⟨4⟩], .remove "q"]
    first.text ⟨6⟩ = "((∅ → (¬p ∨ ?q ∨ p)) ∧ ?q)" ∧
      ∃ tree, first.Unfolds ⟨6⟩ tree ∧ second.Unfolds ⟨8⟩ tree := by
  intro first second
  let firstNode : Node := { name := 5, body := .junction .conjunction [4, 1] }
  let secondNode : Node := { name := 6, body := .junction .conjunction [5, 1] }
  have firstStored : first.node? ⟨6⟩ = some firstNode := by decide +kernel
  have secondStored : second.node? ⟨8⟩ = some secondNode := by decide +kernel
  -- Every step leads to a lower name.
  have firstLower : ∀ node ∈ first.stock, ∀ next ∈ first.successors node,
      next ∈ first.stock ∧ next.name < node.name := by decide +kernel
  have secondLower : ∀ node ∈ second.stock, ∀ next ∈ second.successors node,
      next ∈ second.stock ∧ next.name < node.name := by decide +kernel
  have firstMember := mem_stock_iff.mpr ⟨_, firstStored⟩
  have secondMember := mem_stock_iff.mpr ⟨_, secondStored⟩
  have firstLegible : first.Legible firstNode :=
    legible_of_ranked firstLower (by decide +kernel) (by decide +kernel)
      firstMember firstMember
  have secondLegible : second.Legible secondNode :=
    legible_of_ranked secondLower (by decide +kernel) (by decide +kernel)
      secondMember secondMember
  exact ⟨by decide +kernel,
    (text_eq_iff_unfolds_alike firstStored secondStored firstLegible
      secondLegible).mp (by decide +kernel)⟩

end Registry

end NamedLogic
