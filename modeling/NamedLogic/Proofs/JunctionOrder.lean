import NamedLogic.Proofs.DnfGrowth

/-!
# Junctions in order

A junction is in order if none of its operands is repeated and none is the
junction itself.  Every way of adding to a junction or of renaming one looks out
for this, and nothing else but simplification writes down a list of operands.
-/

namespace NamedLogic

/-- A junction refers to no name twice, and not to its own. -/
def Node.InOrder (node : Node) : Prop :=
  ∀ connective operands, node.body = .junction connective operands →
    operands.Nodup ∧ node.name ∉ operands

/-- A node that is no junction is in order. -/
theorem Node.inOrder_of_not_junction
    {node : Node}
    (other : ∀ connective operands,
      node.body ≠ .junction connective operands) :
    node.InOrder :=
  fun connective operands body => (other connective operands body).elim

/-! ## The operands added -/

section Operands

variable {own : Name} {operands : List Name}

theorem nodup_appendOperand
    (distinct : operands.Nodup) (apart : own ∉ operands) (name : Name) :
    (appendOperand own operands name).2.Nodup ∧
      own ∉ (appendOperand own operands name).2 := by
  unfold appendOperand
  split
  · exact ⟨distinct, apart⟩
  · rename_i different
    split
    · exact ⟨distinct, apart⟩
    · rename_i absent
      have fresh : name ∉ operands := by simpa using absent
      refine ⟨List.nodup_append.mpr ⟨distinct, List.nodup_singleton name,
        ?_⟩, ?_⟩
      · rintro other member _ last rfl
        exact fresh (List.mem_singleton.mp last ▸ member)
      · intro member
        rcases List.mem_append.mp member with early | last
        · exact apart early
        · exact different (List.mem_singleton.mp last).symm

theorem nodup_foldl_appendOperand
    (distinct : operands.Nodup) (apart : own ∉ operands)
    (names : List Name) :
    (names.foldl (fun present name => (appendOperand own present name).2)
        operands).Nodup ∧
      own ∉ names.foldl
        (fun present name => (appendOperand own present name).2)
        operands := by
  induction names generalizing operands with
  | nil => exact ⟨distinct, apart⟩
  | cons name names inductionHypothesis =>
      obtain ⟨stillDistinct, stillApart⟩ :=
        nodup_appendOperand distinct apart name
      exact inductionHypothesis stillDistinct stillApart

theorem nodup_extendOperands
    (distinct : operands.Nodup) (apart : own ∉ operands)
    (connective : Connective) (addition : Node) :
    (extendOperands own connective operands addition).2.Nodup ∧
      own ∉ (extendOperands own connective operands addition).2 := by
  unfold extendOperands
  split
  · exact ⟨distinct, apart⟩
  · split
    · exact nodup_foldl_appendOperand distinct apart _
    · exact nodup_appendOperand distinct apart addition.name

end Operands

namespace Registry

/-- Every stored junction is in order. -/
def JunctionsInOrder (registry : Registry) : Prop :=
  ∀ key node, registry.node? key = some node → node.InOrder

/-- A change that keeps junctions in order. -/
def KeepsOrder (before after : Registry) : Prop :=
  before.JunctionsInOrder → after.JunctionsInOrder

theorem KeepsOrder.refl (registry : Registry) :
    registry.KeepsOrder registry := id

theorem KeepsOrder.trans
    {before middle after : Registry}
    (first : before.KeepsOrder middle) (second : middle.KeepsOrder after) :
    before.KeepsOrder after :=
  second ∘ first

theorem keepsOrder_bind
    {α β : Type} {registry : Registry} {update : Update α}
    {next : α → Update β}
    (first : registry.KeepsOrder (registry.after update))
    (rest : ∀ value middle, registry.Yields update value middle →
      middle.KeepsOrder (middle.after (next value))) :
    registry.KeepsOrder (registry.after (update >>= next)) :=
  after_bind_of_trans KeepsOrder KeepsOrder.trans first rest

/-! ## Changes of the tables -/

section Tables

variable {registry after : Registry}

/-- Only nodes matter. -/
theorem keepsOrder_of_nodes
    (same : ∀ key node, after.node? key = some node →
      registry.node? key = some node) :
    registry.KeepsOrder after :=
  fun inOrder key node stored => inOrder key node (same key node stored)

theorem keepsOrder_store
    {node : Node} (nodeInOrder : node.InOrder) :
    registry.KeepsOrder (registry.store node).2 := by
  intro inOrder key found stored
  rw [node?_store] at stored
  split at stored
  · exact Option.some.inj stored ▸ nodeInOrder
  · exact inOrder key found stored

theorem keepsOrder_replace
    {key : Key} {old node : Node} (there : registry.node? key = some old)
    (nodeInOrder : registry.JunctionsInOrder → node.InOrder) :
    registry.KeepsOrder (registry.replace key node) := by
  intro inOrder other found stored
  rw [node?_replace there] at stored
  split at stored
  · exact Option.some.inj stored ▸ nodeInOrder inOrder
  · exact inOrder other found stored

theorem keepsOrder_intern (string : String) :
    registry.KeepsOrder (registry.intern string).2 :=
  keepsOrder_of_nodes fun key node stored => by simpa using stored

theorem keepsOrder_drop (key : Key) :
    registry.KeepsOrder (registry.drop key) := by
  refine keepsOrder_of_nodes fun other node stored => ?_
  rw [node?_drop] at stored
  split at stored
  · cases stored
  · exact stored

end Tables

/-! ## Constructors -/

section Constructors

variable (registry : Registry)

/-- A new node that is in order under any name. -/
theorem keepsOrder_insertFresh
    (flavour : Flavour) (owner : Option Entity) {body : Body}
    (anyName : ∀ name, Node.InOrder { name, owner, body }) :
    registry.KeepsOrder
      (registry.after (insertFresh flavour owner body)) := by
  refine keepsOrder_bind (keepsOrder_of_nodes fun key node stored => ?_) ?_
  · exact (node?_freshName registry flavour key).symm.trans stored
  · intro name middle _
    exact keepsOrder_store (anyName name)

theorem keepsOrder_atom (string : String) :
    registry.KeepsOrder (registry.after (atom string)) := by
  unfold atom
  split
  · exact KeepsOrder.refl registry
  · refine keepsOrder_bind (keepsOrder_intern string) ?_
    intro name middle _
    rw [after_get_bind]
    split
    · exact KeepsOrder.refl middle
    · exact keepsOrder_store (Node.inOrder_of_not_junction (by simp))

theorem keepsOrder_freshAtom :
    registry.KeepsOrder (registry.after freshAtom) :=
  registry.keepsOrder_insertFresh .atom none fun _ =>
    Node.inOrder_of_not_junction (by simp)

theorem keepsOrder_negation (operand : Key) :
    registry.KeepsOrder (registry.after (negation operand)) :=
  after_operandName_bind (KeepsOrder registry) (KeepsOrder.refl registry)
    fun _ _ => registry.keepsOrder_insertFresh .compound none fun _ =>
      Node.inOrder_of_not_junction (by simp)

theorem keepsOrder_implication (antecedent consequent : Option Key) :
    registry.KeepsOrder
      (registry.after (implication antecedent consequent)) :=
  after_sideName_bind (KeepsOrder registry) (KeepsOrder.refl registry)
    fun _ _ => after_sideName_bind (KeepsOrder registry)
      (KeepsOrder.refl registry) fun _ _ =>
        registry.keepsOrder_insertFresh .compound none fun _ =>
          Node.inOrder_of_not_junction (by simp)

theorem keepsOrder_addOperand (junction operand : Key) :
    registry.KeepsOrder (registry.after (addOperand junction operand)) := by
  have same := KeepsOrder.refl registry
  refine after_stored_bind (KeepsOrder registry) same fun addition _ => ?_
  refine after_stored_bind (KeepsOrder registry) same fun target found => ?_
  split
  · rename_i connective operands body
    refine keepsOrder_replace found fun inOrder => ?_
    obtain ⟨distinct, apart⟩ := inOrder junction target found _ _ body
    intro other names same
    obtain ⟨rfl, rfl⟩ := Body.junction.inj same
    exact nodup_extendOperands distinct apart connective addition
  · exact KeepsOrder.refl registry

theorem keepsOrder_junction
    (connective : Connective) (operands : List Key) :
    registry.KeepsOrder
      (registry.after (junction connective operands)) := by
  refine keepsOrder_bind ?_ ?_
  · refine after_forM_of_trans KeepsOrder KeepsOrder.refl KeepsOrder.trans ?_
    intro operand current
    exact after_stored_bind (KeepsOrder current) (KeepsOrder.refl current)
      fun _ _ => KeepsOrder.refl current
  · intro _ middle _
    have empty : ∀ name, Node.InOrder
        { name, owner := none, body := .junction connective [] } := by
      intro name other names same
      obtain ⟨_, rfl⟩ := Body.junction.inj same
      exact ⟨List.nodup_nil, List.not_mem_nil⟩
    refine keepsOrder_bind
      (middle.keepsOrder_insertFresh .compound none empty) ?_
    intro key second _
    refine keepsOrder_bind ?_ fun _ last _ => KeepsOrder.refl last
    refine after_forM_of_trans KeepsOrder KeepsOrder.refl KeepsOrder.trans ?_
    intro operand current
    exact keepsOrder_bind (current.keepsOrder_addOperand key operand)
      fun _ last _ => KeepsOrder.refl last

theorem formative_keepsOrder : Formative KeepsOrder where
  refl := KeepsOrder.refl
  trans := KeepsOrder.trans
  negation := keepsOrder_negation
  junction := keepsOrder_junction

/-! ## Changes of stored nodes and bindings -/

theorem keepsOrder_reviseImplication
    (implication : Key) {revise : Option Name → Option Name → Body}
    (other : ∀ antecedent consequent connective operands,
      revise antecedent consequent ≠ .junction connective operands) :
    registry.KeepsOrder
      (registry.after (reviseImplication implication revise)) := by
  refine after_stored_bind (KeepsOrder registry) (KeepsOrder.refl registry)
    fun node found => ?_
  split
  · exact keepsOrder_replace found fun _ =>
      Node.inOrder_of_not_junction (other _ _)
  · exact KeepsOrder.refl registry

theorem keepsOrder_setAntecedent
    (implication : Key) (antecedent : Option Key) :
    registry.KeepsOrder
      (registry.after (setAntecedent implication antecedent)) :=
  after_sideName_bind (KeepsOrder registry) (KeepsOrder.refl registry)
    fun _ _ => registry.keepsOrder_reviseImplication implication (by simp)

theorem keepsOrder_setConsequent
    (implication : Key) (consequent : Option Key) :
    registry.KeepsOrder
      (registry.after (setConsequent implication consequent)) :=
  after_sideName_bind (KeepsOrder registry) (KeepsOrder.refl registry)
    fun _ _ => registry.keepsOrder_reviseImplication implication (by simp)

theorem keepsOrder_setOwner (key : Key) (owner : Option Entity) :
    registry.KeepsOrder (registry.after (setOwner key owner)) :=
  after_stored_bind (KeepsOrder registry) (KeepsOrder.refl registry)
    fun node found =>
      keepsOrder_replace found fun inOrder => inOrder key node found

theorem keepsOrder_register (key : Key) :
    registry.KeepsOrder (registry.after (register key)) :=
  after_operandName_bind (KeepsOrder registry) (KeepsOrder.refl registry)
    fun _ _ => keepsOrder_of_nodes fun _ _ stored => stored

theorem keepsOrder_remove (string : String) :
    registry.KeepsOrder (registry.remove string).2 := by
  unfold remove
  split
  · exact KeepsOrder.refl registry
  · split
    · exact KeepsOrder.refl registry
    · exact KeepsOrder.trans (keepsOrder_of_nodes fun _ _ stored => stored)
        (keepsOrder_drop _)

theorem keepsOrder_removeKey (key : Key) :
    registry.KeepsOrder (registry.removeKey key).2 := by
  unfold removeKey
  split
  · exact KeepsOrder.refl registry
  · refine (keepsOrder_drop key).trans
      (keepsOrder_of_nodes fun other node stored => ?_)
    simpa using stored

/-- A junction takes no name that it refers to. -/
theorem keepsOrder_rename (key : Key) (string : String) :
    registry.KeepsOrder (registry.after (rename key string)) := by
  unfold rename
  split
  · exact KeepsOrder.refl registry
  · refine keepsOrder_bind (keepsOrder_intern string) ?_
    intro name middle _
    refine after_stored_bind (KeepsOrder middle) (KeepsOrder.refl middle)
      fun node found => ?_
    split
    · exact KeepsOrder.refl middle
    · rename_i free
      refine KeepsOrder.trans (keepsOrder_replace found fun inOrder => ?_)
        (keepsOrder_of_nodes fun other found stored => by simpa using stored)
      intro connective operands body
      have named : name ∉ operands := by
        have junction : node.junction? = some (connective, operands) := by
          unfold Node.junction?
          rw [show node.body = _ from body]
        simpa [junction] using free
      exact ⟨(inOrder key node found connective operands body).1, named⟩

theorem keepsOrder_toFormula
    {V : Type} [TruthValue V] (valuation : Valuation V) :
    registry.KeepsOrder (registry.after valuation.toFormula) :=
  formative_keepsOrder.toFormula keepsOrder_atom valuation registry

end Constructors

end Registry

end NamedLogic
