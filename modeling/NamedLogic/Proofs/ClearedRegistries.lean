import NamedLogic.Registry.Session
import NamedLogic.Proofs.RetiredKeys
import NamedLogic.Proofs.ShiftedSimplification

/-!
# Cleared registries

A cleared registry is a new one with its keys shifted, since the places of the
dropped nodes are not given to others.  A session with a cleared registry
therefore runs as it would with a new one, except that the keys handed out are
others: any refusal, any reply, any name and any count is the same.
-/

namespace NamedLogic

namespace Session

/-- A reply with other keys. -/
def Reply.rekey (rename : Key → Key) : Reply → Reply
  | .key issued => .key (rename issued)
  | .keys issued => .keys (issued.map rename)
  | .node shown => .node (shown.rekey rename)
  | .resolved bound shown => .resolved (rename bound) (shown.rekey rename)
  | other => other

/-- What is seen of a step, with other keys in the reply. -/
def Observation.rekey
    (rename : Key → Key) (observation : Observation) : Observation :=
  { observation with
    outcome := observation.outcome.map (Reply.rekey rename) }

section Replies

variable (rename : Key → Key)

theorem Reply.shownKeys_rekey (node : Node) :
    Reply.shownKeys (node.rekey rename) =
      (Reply.shownKeys node).map rename := by
  obtain ⟨name, owner, body⟩ := node
  cases body with
  | dnf atoms rows generated => cases generated <;> rfl
  | _ => rfl

theorem Reply.handedOut_rekey (reply : Reply) :
    (reply.rekey rename).handedOut = reply.handedOut.map rename := by
  cases reply with
  | node shown => exact Reply.shownKeys_rekey rename shown
  | resolved bound shown =>
      exact congrArg (List.cons _) (Reply.shownKeys_rekey rename shown)
  | _ => rfl

theorem Observation.handedOut_rekey (observation : Observation) :
    (observation.rekey rename).handedOut =
      observation.handedOut.map rename := by
  obtain ⟨outcome, strings, size, nodeCount⟩ := observation
  cases outcome with
  | error => rfl
  | ok reply => exact reply.handedOut_rekey rename

theorem Reply.rekey_ofOption
    {α β : Type} {reply : α → Reply} {otherReply : β → Reply}
    {renameValue : α → β}
    (replies : ∀ value,
      (reply value).rekey rename = otherReply (renameValue value))
    (value : Option α) :
    (Reply.ofOption reply value).rekey rename =
      Reply.ofOption otherReply (value.map renameValue) := by
  cases value with
  | none => rfl
  | some value => exact replies value

end Replies

open Registry

section Requests

variable (offset : Nat)

theorem shifts_answering
    {α β : Type} {rename : α → β} {reply : α → Reply}
    {shiftedReply : β → Reply} {update : Update α} {shifted : Update β}
    (shifts : Shifts offset rename update shifted)
    (replies : ∀ value, (reply value).rekey (Key.shift offset) =
      shiftedReply (rename value)) :
    Shifts offset (Reply.rekey (Key.shift offset)) (answering reply update)
      (answering shiftedReply shifted) := by
  refine shifts.bind fun value => ?_
  rw [← replies]
  exact shifts_pure _ (reply value)

theorem shifts_consulting
    {view shiftedView : Registry → Reply}
    (views : ∀ registry : Registry, shiftedView (registry.shift offset) =
      (view registry).rekey (Key.shift offset)) :
    Shifts offset (Reply.rekey (Key.shift offset)) (consulting view)
      (consulting shiftedView) := by
  refine shifts_get_bind fun registry => ?_
  rw [views]
  exact shifts_pure _ (view registry)

theorem shifts_consulting_option
    {α β : Type} {rename : α → β} {reply : α → Reply}
    {shiftedReply : β → Reply} {view : Registry → Option α}
    {shiftedView : Registry → Option β}
    (views : ∀ registry : Registry, shiftedView (registry.shift offset) =
      (view registry).map rename)
    (replies : ∀ value, (reply value).rekey (Key.shift offset) =
      shiftedReply (rename value)) :
    Shifts offset (Reply.rekey (Key.shift offset))
      (consulting fun registry => .ofOption reply (view registry))
      (consulting fun registry =>
        .ofOption shiftedReply (shiftedView registry)) := by
  refine shifts_consulting offset fun registry => ?_
  rw [views, Reply.rekey_ofOption (Key.shift offset) replies]

theorem shifts_traversing
    {V : Type} {reply : V → Reply}
    {traversal shiftedTraversal : Registry → Traversed (Option V)}
    (traversals : ∀ registry : Registry,
      shiftedTraversal (registry.shift offset) = traversal registry)
    (plain : ∀ value, (reply value).rekey (Key.shift offset) = reply value) :
    Shifts offset (Reply.rekey (Key.shift offset))
      (traversing reply traversal) (traversing reply shiftedTraversal) := by
  refine shifts_get_bind fun registry => ?_
  rw [traversals]
  cases traversal registry with
  | error cause => exact shifts_throw _ cause
  | ok value =>
      cases value with
      | none => exact shifts_pure _ Reply.nothing
      | some value =>
          have yielded : Shifts offset (Reply.rekey (Key.shift offset))
              (pure (reply value)) _ := shifts_pure _ (reply value)
          rw [plain] at yielded
          exact yielded

theorem shifts_keyAt (issued : List Key) (handle : Handle) :
    Shifts offset (Key.shift offset) (keyAt issued handle)
      (keyAt (issued.map (Key.shift offset)) handle) := by
  unfold keyAt
  rw [List.getElem?_map]
  cases issued[handle]? with
  | none => exact shifts_throw _ _
  | some key => exact shifts_pure _ key

theorem shifts_sideAt (issued : List Key) (side : Option Handle) :
    Shifts offset (Option.map (Key.shift offset)) (sideAt issued side)
      (sideAt (issued.map (Key.shift offset)) side) := by
  cases side with
  | none => exact shifts_pure _ none
  | some handle =>
      exact (shifts_keyAt offset issued handle).bind fun key =>
        shifts_pure _ (some key)

theorem shifts_keysAt (issued : List Key) (handles : List Handle) :
    Shifts offset (List.map (Key.shift offset))
      (handles.mapM (keyAt issued))
      (handles.mapM (keyAt (issued.map (Key.shift offset)))) := by
  have keys := shifts_mapM
    (fun handle => shifts_keyAt offset issued (id handle)) handles
  rwa [List.map_id] at keys

/-- With shifted keys a request is refused for the same cause, or its reply is
the same with its keys shifted. -/
theorem shifts_perform (issued : List Key) (request : Request) :
    Shifts offset (Reply.rekey (Key.shift offset)) (perform issued request)
      (perform (issued.map (Key.shift offset)) request) := by
  have key := shifts_keyAt offset issued
  have side := shifts_sideAt offset issued
  have keys := shifts_keysAt offset issued
  cases request with
  | configure settings =>
      exact shifts_answering offset (shifts_modify fun _ => rfl) fun _ => rfl
  | clear =>
      exact shifts_answering offset
        (shifts_modify fun registry => shift_clear registry offset)
        fun _ => rfl
  | atom string =>
      exact shifts_answering offset (shifts_atom offset string) fun _ => rfl
  | freshAtom =>
      exact shifts_answering offset (shifts_freshAtom offset) fun _ => rfl
  | negation operand =>
      exact (key operand).bind fun operand =>
        shifts_answering offset (shifts_negation offset operand) fun _ => rfl
  | junction connective operands =>
      exact (keys operands).bind fun operands =>
        shifts_answering offset (shifts_junction offset connective operands)
          fun _ => rfl
  | implication antecedent consequent =>
      exact (side antecedent).bind fun antecedent =>
        (side consequent).bind fun consequent =>
          shifts_answering offset
            (shifts_implication offset antecedent consequent) fun _ => rfl
  | setAntecedent target antecedent =>
      exact (key target).bind fun target =>
        (side antecedent).bind fun antecedent =>
          shifts_answering offset
            (shifts_setAntecedent offset target antecedent) fun _ => rfl
  | setConsequent target consequent =>
      exact (key target).bind fun target =>
        (side consequent).bind fun consequent =>
          shifts_answering offset
            (shifts_setConsequent offset target consequent) fun _ => rfl
  | addOperand target operand =>
      exact (key target).bind fun target =>
        (key operand).bind fun operand =>
          shifts_answering offset (shifts_addOperand offset target operand)
            fun _ => rfl
  | dnf atoms rows =>
      exact (keys atoms).bind fun atoms =>
        shifts_answering offset (shifts_dnf offset atoms rows) fun _ => rfl
  | dnfFormula target =>
      exact (key target).bind fun target =>
        shifts_answering offset (shifts_dnfFormula offset target)
          (Reply.rekey_ofOption _ fun _ => rfl)
  | describe valuation | describeFour valuation =>
      exact shifts_answering offset (shifts_toFormula offset valuation)
        (Reply.rekey_ofOption _ fun _ => rfl)
  | simplify target =>
      exact (key target).bind fun target =>
        shifts_answering offset (shifts_simplify offset target)
          (Reply.rekey_ofOption _ fun _ => rfl)
  | intern string =>
      exact shifts_answering offset (shifts_intern offset string)
        fun _ => rfl
  | lookup string =>
      exact shifts_consulting_option offset
        (fun registry =>
          (shift_lookup registry offset string).trans Option.map_id'.symm)
        fun _ => rfl
  | stringOf name => exact shifts_consulting offset fun _ => rfl
  | isEmpty =>
      refine shifts_consulting offset fun registry => ?_
      rw [Registry.isEmpty, shift_size]
      rfl
  | binding name =>
      exact shifts_consulting_option offset
        (fun registry => shift_binding registry offset name) fun _ => rfl
  | keyOf string =>
      exact shifts_consulting_option offset
        (fun registry => shift_get? registry offset string) fun _ => rfl
  | resolve name =>
      exact shifts_consulting_option offset
        (fun registry => shift_resolve registry offset name) fun _ => rfl
  | node target =>
      exact (key target).bind fun target =>
        shifts_consulting_option offset
          (fun registry => shift_node? registry offset target) fun _ => rfl
  | nameOf target =>
      refine (key target).bind fun target => ?_
      refine shifts_consulting_option offset (fun registry => ?_)
        fun _ => rfl
      rw [shift_nameOf?, Option.map_id']
  | register target =>
      exact (key target).bind fun target =>
        shifts_answering offset (shifts_register offset target)
          (Reply.rekey_ofOption _ fun _ => rfl)
  | rename target string =>
      exact (key target).bind fun target =>
        shifts_answering offset (shifts_rename offset target string)
          fun _ => rfl
  | remove string =>
      exact shifts_answering offset
        (shifts_modifyGet fun registry => shift_remove registry offset string)
        (Reply.rekey_ofOption _ fun _ => rfl)
  | removeKey target =>
      exact (key target).bind fun target =>
        shifts_answering offset
          (shifts_modifyGet fun registry =>
            shift_removeKey registry offset target)
          (Reply.rekey_ofOption _ fun _ => rfl)
  | setOwner target owner =>
      exact (key target).bind fun target =>
        shifts_answering offset (shifts_setOwner offset target owner)
          fun _ => rfl
  | ownedBy entity =>
      exact shifts_consulting offset fun registry =>
        congrArg Reply.keys (shift_ownedBy registry offset entity)
  | text target =>
      exact (key target).bind fun target =>
        shifts_consulting offset fun registry =>
          congrArg Reply.string (shift_text registry offset target)
  | alike left right =>
      exact (key left).bind fun left => (key right).bind fun right =>
        shifts_consulting offset fun registry =>
          congrArg Reply.flag (shift_alike registry offset left right)
  | evaluate valuation target | evaluateFour valuation target =>
      exact (key target).bind fun target =>
        shifts_traversing offset
          (fun registry => shift_evaluate registry offset valuation target)
          fun _ => rfl
  | nameValue valuation depth name | nameValueFour valuation depth name =>
      exact shifts_traversing offset
        (fun registry => shift_nameValue registry offset valuation depth name)
        fun _ => rfl
  | referenceGraph =>
      exact shifts_consulting offset fun registry =>
        congrArg Reply.graph (shift_referenceGraph registry offset)
  | cyclicNames =>
      exact shifts_consulting offset fun registry =>
        congrArg Reply.strings (shift_cyclicNames registry offset)

/-! ## Sessions -/

theorem step_shift
    (issued : List Key) (registry : Registry) (request : Request) :
    step (issued.map (Key.shift offset)) (registry.shift offset) request =
      (step issued registry request).map
        (Observation.rekey (Key.shift offset)) (shift · offset) := by
  unfold step
  rw [shifts_perform offset issued request registry]
  rcases (perform issued request).run.run registry with ⟨outcome, next⟩
  simp only [Prod.map, Observation.rekey, shift_strings, shift_size,
    shift_nodeCount]

/-- A session with a registry whose keys are shifted is the same but for its
keys. -/
theorem observe_shift
    (requests : List Request) (issued : List Key) (registry : Registry) :
    observe (issued.map (Key.shift offset)) (registry.shift offset)
        requests =
      (observe issued registry requests).map
        (Observation.rekey (Key.shift offset)) := by
  induction requests generalizing issued registry with
  | nil => rfl
  | cons request requests inductionHypothesis =>
      rw [observe, observe, step_shift]
      rcases step issued registry request with ⟨observation, next⟩
      dsimp only [Prod.map]
      rw [Observation.handedOut_rekey, ← List.map_append,
        inductionHypothesis, List.map_cons]

end Requests

end Session

namespace Registry

variable {registry : Registry}

/-! ## Clearing -/

theorem Reachable.nodes_nonempty (reachable : registry.Reachable) :
    0 < registry.nodes.size := by
  induction reachable with
  | empty settings => exact Nat.one_pos
  | step earlier operation inductionHypothesis =>
      exact Nat.lt_of_lt_of_le inductionHypothesis
        (operation.retains earlier.wellFormed).issued

/-- A cleared registry is a new one behind the places of the dropped nodes. -/
theorem clear_eq_shift (nonempty : 0 < registry.nodes.size) :
    registry.clear =
      ({ settings := registry.settings } : Registry).shift
        (registry.nodes.size - 1) := by
  have places : registry.nodes.map (fun _ => (none : Option Node)) =
      Array.replicate (registry.nodes.size - 1) none ++ #[none] := by
    rw [Array.map_const', Array.append_singleton, ← Array.replicate_succ,
      Nat.sub_add_cancel nonempty]
  simp [clear, shift, places]

/-- A key under which a node was stored in the registry as it is or as it was
at some earlier time. -/
def HandedOut (registry : Registry) (key : Key) : Prop :=
  ∃ earlier history, Reachable earlier ∧ (earlier.node? key).isSome ∧
    Operation.applyAll history earlier = registry

theorem HandedOut.issued
    {key : Key} (handedOut : registry.HandedOut key) :
    key.id < registry.nodes.size := by
  obtain ⟨earlier, history, reachable, there, rfl⟩ := handedOut
  obtain ⟨node, stored⟩ := Option.isSome_iff_exists.mp there
  exact Nat.lt_of_lt_of_le (id_lt_of_node? stored)
    (reachable.retains history).issued

/-- Once cleared, a registry behaves as a new one with the same settings does:
up to a renaming of keys, any list of requests is met by the same replies and
refusals, and leads to the same strings of names and the same numbers of bound
names and of stored nodes, step by step.  The keys handed out earlier lead
nowhere, whatever is done to the registry after it was cleared. -/
theorem Reachable.cleared_like_new (reachable : registry.Reachable) :
    (∃ rename : Key → Key, Function.Injective rename ∧
      ∀ requests : List Session.Request,
        Session.observe [] registry.clear requests =
          (Session.observe [] { settings := registry.settings }
            requests).map (Session.Observation.rekey rename)) ∧
      ∀ key, registry.HandedOut key → ∀ history : List Operation,
        (Operation.applyAll history registry.clear).node? key = none := by
  constructor
  · refine ⟨Key.shift (registry.nodes.size - 1), Key.shift_injective _,
      fun requests => ?_⟩
    rw [clear_eq_shift reachable.nodes_nonempty]
    exact Session.observe_shift _ requests [] _
  · intro key handedOut history
    have cleared : registry.clear.Reachable := reachable.step .clear
    refine (cleared.retains history).retired key ?_
      (node?_clear registry key)
    exact Nat.lt_of_lt_of_le handedOut.issued
      (retains_clear registry).issued

/-- Two formulas are stored before a registry is cleared, so that the keys
handed out afterwards are those of a new registry moved up by two places.  The
key of the second formula leads nowhere even where the key is registered. -/
theorem cleared_like_new_of_two_formulas :
    let registry := replay [.atom "p", .negation ⟨1⟩, .rename ⟨2⟩ "q"]
    let requests : List Session.Request :=
      [.atom "p", .freshAtom, .dnf [0, 1] 6, .simplify 2, .text 2]
    let cleared := Session.observe [] registry.clear requests
    let new := Session.observe [] { settings := registry.settings } requests
    (cleared.flatMap Session.Observation.handedOut = [⟨3⟩, ⟨4⟩, ⟨13⟩, ⟨12⟩] ∧
      new.flatMap Session.Observation.handedOut = [⟨1⟩, ⟨2⟩, ⟨11⟩, ⟨10⟩]) ∧
    (∃ rename : Key → Key, Function.Injective rename ∧
      cleared = new.map (Session.Observation.rekey rename)) ∧
    (Operation.applyAll [.atom "p", .negation ⟨3⟩, .register ⟨2⟩]
      registry.clear).node? ⟨2⟩ = none := by
  intro registry requests cleared new
  have reachable : registry.Reachable := reachable_replay _
  obtain ⟨⟨rename, injective, sessions⟩, retired⟩ :=
    reachable.cleared_like_new
  have handedOut : registry.HandedOut ⟨2⟩ :=
    ⟨registry, [], reachable, by decide +kernel, rfl⟩
  exact ⟨⟨by decide +kernel, by decide +kernel⟩,
    ⟨rename, injective, sessions requests⟩, retired _ handedOut _⟩

end Registry

end NamedLogic
