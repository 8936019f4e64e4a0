import NamedLogic.Proofs.Outcomes
import NamedLogic.Proofs.Persistence
import NamedLogic.Proofs.RetiredKeys
import NamedLogic.Proofs.WorldHistories

/-!
# Triggered and violated rules

Whether a rule is triggered is found from its antecedent alone, and whether it is
violated by evaluating it as a whole, the consequent first.  In every state that
a world can come to be in, a key among the rules leads to an implication, if it
still leads anywhere.  Hence the violated rules are those triggered rules that
have an antecedent and a false consequent.
-/

namespace NamedLogic

theorem Body.kind_eq_implication_iff {body : Body} :
    body.kind = .implication ↔
      ∃ antecedent consequent, body = .implication antecedent consequent := by
  cases body <;> simp [Body.kind]

/-! ## The sides of implications -/

/-- An implication is false if its consequent is and its antecedent is true. -/
theorem Classical.implication_eq_false_iff
    {α : Type} {value : α → Traversed (Option Bool)}
    {antecedent consequent : α} :
    implication value antecedent consequent = .ok (some false) ↔
      value consequent = .ok (some false) ∧
        value antecedent = .ok (some true) := by
  rw [implication, Traversed.bind_eq_ok_iff]
  constructor
  · rintro ⟨conclusion, evaluated, rest⟩
    rcases conclusion with _ | _ | _
    · cases rest
    · obtain ⟨premise, found, rest⟩ := Traversed.bind_eq_ok_iff.mp rest
      rcases premise with _ | _ | _
      · cases rest
      · cases rest
      · exact ⟨evaluated, found⟩
    · cases rest
  · rintro ⟨evaluated, found⟩
    refine ⟨some false, evaluated, ?_⟩
    rw [found]
    rfl

namespace Registry

variable {registry : Registry}

/-- The antecedent and the consequent of the implication stored under a key. -/
def sides? (registry : Registry) (key : Key) :
    Option (Option Name × Option Name) :=
  match (registry.node? key).map Node.body with
  | some (.implication antecedent consequent) => some (antecedent, consequent)
  | _ => none

theorem sides?_eq_some_iff
    {key : Key} {antecedent consequent : Option Name} :
    registry.sides? key = some (antecedent, consequent) ↔
      (registry.node? key).map Node.body =
        some (.implication antecedent consequent) := by
  unfold sides?
  cases (registry.node? key).map Node.body with
  | none => simp
  | some body => cases body <;> simp

/-- The value of an implication is found from the names of its sides. -/
theorem evaluate_of_sides
    {V : Type} [Interpretation V] {valuation : Valuation V} {key : Key}
    {antecedent consequent : Option Name}
    (sides : registry.sides? key = some (antecedent, consequent)) :
    registry.evaluate valuation key =
      Interpretation.implication (registry.nameValue valuation 0)
        antecedent consequent := by
  obtain ⟨node, stored, body⟩ :=
    Option.map_eq_some_iff.mp (sides?_eq_some_iff.mp sides)
  rw [evaluate, stored, levels, Nat.sub_zero]
  dsimp only
  rw [nodeValue_succ, body]
  rfl

theorem stored_of_yields_insertFresh
    {before after : Registry} {flavour : Flavour} {owner : Option Entity}
    {body : Body} {key : Key}
    (run : before.Yields (insertFresh flavour owner body) key after) :
    ∃ name, after.node? key = some { name, owner, body } := by
  obtain ⟨name, middle, _, insertion⟩ := yields_bind_iff.mp run
  obtain ⟨rfl, rfl⟩ := yields_modifyGet_iff.mp insertion
  exact ⟨name, (node?_store ..).trans (if_pos rfl)⟩

theorem kind_of_yields_implication
    {before after : Registry} {antecedent consequent : Option Key} {key : Key}
    (run : before.Yields (implication antecedent consequent) key after) :
    ∃ node, after.node? key = some node ∧ node.body.kind = .implication := by
  obtain ⟨_, _, _, run⟩ := yields_bind_iff.mp run
  obtain ⟨_, _, _, run⟩ := yields_bind_iff.mp run
  obtain ⟨name, stored⟩ := stored_of_yields_insertFresh run
  exact ⟨_, stored, rfl⟩

/-- The key was issued, and leads to an implication if it leads anywhere. -/
def HoldsRule (registry : Registry) (rule : Key) : Prop :=
  rule.id < registry.nodes.size ∧
    ∀ node, registry.node? rule = some node → node.body.kind = .implication

theorem KeepsKinds.holdsRule
    {before after : Registry} (keeps : before.KeepsKinds after) {rule : Key}
    (holds : before.HoldsRule rule) : after.HoldsRule rule := by
  obtain ⟨inside, shape⟩ := holds
  refine ⟨Nat.lt_of_lt_of_le inside keeps.issued, fun node found => ?_⟩
  cases there : before.node? rule with
  | none =>
      rw [keeps.retired rule inside there] at found
      cases found
  | some old => exact (keeps.kinds there found).trans (shape old there)

/-- A rule without sides is no longer stored. -/
theorem HoldsRule.node?_eq_none
    {rule : Key} (holds : registry.HoldsRule rule)
    (nothing : registry.sides? rule = none) : registry.node? rule = none := by
  cases stored : registry.node? rule with
  | none => rfl
  | some node =>
      obtain ⟨antecedent, consequent, body⟩ :=
        Body.kind_eq_implication_iff.mp (holds.2 node stored)
      rw [sides?_eq_some_iff.mpr (by rw [stored, Option.map_some, body])]
        at nothing
      cases nothing

end Registry

namespace World

variable {world : World}

/-! ## Rules stay implications -/

/-- Every rule of the world leads to an implication if it leads anywhere. -/
def HoldsRules (world : World) : Prop :=
  ∀ rule ∈ world.rules, world.registry.HoldsRule rule

theorem HoldsRules.operate
    (holds : world.HoldsRules) (wellFormed : world.registry.WellFormed)
    (operation : Operation) :
    { world with registry := operation.apply world.registry }.HoldsRules :=
  fun rule member =>
    (operation.keepsKinds wellFormed).holdsRule (holds rule member)

theorem after_addRule_of_yields
    {antecedent consequent : Option Key} {rule : Key} {after : Registry}
    (run : world.registry.Yields
      (Registry.implication antecedent consequent) rule after) :
    ((addRule antecedent consequent).run.run world).2 =
      { world with registry := after, rules := world.rules ++ [rule] } := by
  rw [addRule, run_bind, run_onRegistry, run.after_eq]
  unfold Registry.Yields at run
  rw [run]
  rfl

theorem after_addRule_of_refuses
    {antecedent consequent : Option Key} {cause : LogicError}
    {after : Registry}
    (refusal : world.registry.Refuses
      (Registry.implication antecedent consequent) cause after) :
    ((addRule antecedent consequent).run.run world).2 =
      { world with registry := after } := by
  rw [addRule, run_bind, run_onRegistry, refusal.after_eq]
  unfold Registry.Refuses at refusal
  rw [refusal]

theorem HoldsRules.addRule
    (holds : world.HoldsRules) (wellFormed : world.registry.WellFormed)
    (antecedent consequent : Option Key) :
    ((World.addRule antecedent consequent).run.run world).2.HoldsRules := by
  have kept := holds.operate wellFormed (.implication antecedent consequent)
  rcases Registry.yields_or_refuses world.registry
    (Registry.implication antecedent consequent) with
    ⟨rule, run⟩ | ⟨cause, refusal⟩
  · rw [after_addRule_of_yields run]
    intro other member
    rcases List.mem_append.mp member with earlier | new
    · exact kept other earlier
    · obtain rfl := List.mem_singleton.mp new
      obtain ⟨node, stored, kind⟩ := Registry.kind_of_yields_implication run
      refine ⟨Registry.id_lt_of_node? stored, fun found same => ?_⟩
      rw [← Option.some.inj (stored.symm.trans same)]
      exact kind
  · rw [after_addRule_of_refuses refusal]
    exact kept

/-- In every state that a world can come to be in, its rules are implications. -/
theorem Reachable.holdsRules
    (reachable : world.Reachable) : world.HoldsRules := by
  induction reachable with
  | new settings supply => exact fun _ => nofun
  | operate earlier operation inductionHypothesis =>
      exact inductionHypothesis.operate earlier.registry.wellFormed operation
  | addRule earlier antecedent consequent inductionHypothesis =>
      exact inductionHypothesis.addRule earlier.registry.wellFormed antecedent
        consequent
  | addGoal _ _ inductionHypothesis => exact inductionHypothesis
  | setCurrent _ _ inductionHypothesis => exact inductionHypothesis
  | update _ _ _ inductionHypothesis => exact inductionHypothesis
  | @stateFormula world earlier inductionHypothesis =>
      exact inductionHypothesis.operate earlier.registry.wellFormed
        (.describe world.current.valuation)
  | reset _ _ _ => exact fun _ => nofun

/-! ## Selections -/

/-- A selection is refused unless all its tests end, and then keeps those keys,
in their order, for which the test holds. -/
theorem select_eq_ok_iff
    {test : Key → Traversed Bool} {keys selected : List Key} :
    select test keys = .ok selected ↔
      (∀ key ∈ keys, (test key).Ends) ∧
        selected = keys.filter fun key => test key = .ok true := by
  induction keys generalizing selected with
  | nil => simp [select, eq_comm]
  | cons key keys inductionHypothesis =>
      rw [select, Traversed.bind_eq_ok_iff]
      constructor
      · rintro ⟨holds, tested, rest⟩
        obtain ⟨others, selection, rest⟩ := Traversed.bind_eq_ok_iff.mp rest
        obtain ⟨ends, rfl⟩ := inductionHypothesis.mp selection
        cases rest
        refine ⟨List.forall_mem_cons.mpr ⟨⟨holds, tested⟩, ends⟩, ?_⟩
        cases holds <;> simp [tested]
      · rintro ⟨ends, rfl⟩
        obtain ⟨⟨holds, tested⟩, ends⟩ := List.forall_mem_cons.mp ends
        refine ⟨holds, tested, Traversed.bind_eq_ok_iff.mpr
          ⟨_, inductionHypothesis.mpr ⟨ends, rfl⟩, ?_⟩⟩
        cases holds <;> simp [tested, pure, Except.pure]

theorem mem_of_select
    {test : Key → Traversed Bool} {keys selected : List Key}
    (selection : select test keys = .ok selected) {key : Key} :
    key ∈ selected ↔ key ∈ keys ∧ test key = .ok true := by
  rw [(select_eq_ok_iff.mp selection).2, List.mem_filter, decide_eq_true_iff]

/-! ## Single rules -/

/-- A rule applies if it is an implication whose antecedent is absent or true. -/
theorem triggers_eq_true_iff {rule : Key} :
    world.triggers rule = .ok true ↔
      ∃ antecedent consequent,
        world.registry.sides? rule = some (antecedent, consequent) ∧
          (antecedent = none ∨ world.registry.nameValue
            world.current.valuation 0 antecedent = .ok (some true)) := by
  unfold triggers Registry.sides?
  cases (world.registry.node? rule).map Node.body with
  | none => simp
  | some body =>
      cases body with
      | implication antecedent consequent =>
          cases antecedent with
          | none => simp
          | some name =>
              simp only [Traversed.bind_eq_ok_iff, pure, Except.pure]
              simp
      | _ => simp

/-- Whether the rule has an antecedent, and its consequent is false on the
current state. -/
def fails (world : World) (rule : Key) : Bool :=
  match world.registry.sides? rule with
  | some (some _, consequent) =>
      world.registry.nameValue world.current.valuation 0 consequent ==
        .ok (some false)
  | _ => false

/-- A rule is false exactly if it applies, has an antecedent and has a false
consequent. -/
theorem value_eq_false_iff
    {rule : Key} (holds : world.registry.HoldsRule rule) :
    world.value rule = .ok (some false) ↔
      world.triggers rule = .ok true ∧ world.fails rule = true := by
  rw [triggers_eq_true_iff, fails]
  cases sides : world.registry.sides? rule with
  | none =>
      rw [value, Registry.evaluate, holds.node?_eq_none sides]
      simp
  | some pair =>
      obtain ⟨antecedent, consequent⟩ := pair
      rw [value, Registry.evaluate_of_sides sides]
      refine Classical.implication_eq_false_iff.trans ?_
      cases antecedent with
      | none => simp [Registry.nameValue]
      | some name => simp [and_comm]

theorem consequence_eq (rule : Key) :
    world.consequence rule = (world.registry.sides? rule).bind fun sides =>
      sides.2.bind world.registry.binding := by
  unfold consequence Registry.sides?
  cases (world.registry.node? rule).map Node.body with
  | none => rfl
  | some body => cases body <;> rfl

/-! ## Lists of rules -/

/-- The violated rules are those that are false. -/
theorem eq_filter_of_violatedRules
    {violated : List Key} (violating : world.violatedRules = .ok violated) :
    violated = world.rules.filter fun rule =>
      world.value rule = .ok (some false) := by
  obtain ⟨_, rfl⟩ := select_eq_ok_iff.mp violating
  refine List.filter_congr fun rule _ => decide_eq_decide.mpr ?_
  rw [Traversed.bind_eq_ok_iff]
  constructor
  · rintro ⟨value, evaluated, test⟩
    rw [evaluated, beq_iff_eq.mp (Except.ok.inj test)]
  · exact fun evaluated => ⟨some false, evaluated, rfl⟩

/-- Wherever both lists of rules are found, the violated rules are the triggered
rules, in their order, that have an antecedent and whose consequent is false; and
the formulas implied are what the consequents of the triggered rules are bound
to, in the same order. -/
theorem Reachable.violated_among_triggered
    (reachable : world.Reachable) {triggered violated : List Key}
    (triggering : world.triggeredRules = .ok triggered)
    (violating : world.violatedRules = .ok violated) :
    violated = triggered.filter world.fails ∧
      world.implied = .ok (triggered.filterMap fun rule =>
        (world.registry.sides? rule).bind fun sides =>
          sides.2.bind world.registry.binding) := by
  constructor
  · rw [eq_filter_of_violatedRules violating,
      (select_eq_ok_iff.mp triggering).2, List.filter_filter]
    refine List.filter_congr fun rule member => ?_
    rw [Bool.eq_iff_iff, decide_eq_true_iff, Bool.and_eq_true,
      decide_eq_true_iff, and_comm]
    exact value_eq_false_iff (reachable.holdsRules rule member)
  · rw [implied, triggering]
    exact congrArg (Except.ok ∘ triggered.filterMap) (funext consequence_eq)

/-- A world with the given rules over the given formulas, after further operations
on its registry. -/
def replay
    (formed : List Operation) (rules : List (Option Key × Option Key))
    (edits : List Operation) : World :=
  let operate (world : World) (operation : Operation) : World :=
    { world with registry := operation.apply world.registry }
  let furnished := rules.foldl
    (fun world sides => ((addRule sides.1 sides.2).run.run world).2)
    (formed.foldl operate ((World.new {}).run {}).1)
  edits.foldl operate furnished

theorem Reachable.foldl
    {α : Type} {step : World → α → World}
    (steps : ∀ world item, world.Reachable → (step world item).Reachable)
    (reachable : world.Reachable) (items : List α) :
    (items.foldl step world).Reachable := by
  induction items generalizing world with
  | nil => exact reachable
  | cons item items inductionHypothesis =>
      exact inductionHypothesis (steps world item reachable)

theorem reachable_replay
    (formed : List Operation) (rules : List (Option Key × Option Key))
    (edits : List Operation) : (replay formed rules edits).Reachable := by
  have start : ((World.new {}).run {}).1.Reachable := .new {} {}
  refine Reachable.foldl (fun _ operation earlier => earlier.operate operation)
    (Reachable.foldl (fun _ sides earlier => earlier.addRule sides.1 sides.2)
      (Reachable.foldl (fun _ operation earlier => earlier.operate operation)
        start formed) rules) edits

/-- Of five rules one was removed, one lacks an antecedent, one had its
consequent removed, and one was given another consequent. -/
theorem violated_among_edited_rules :
    let furnished := replay [.atom "p", .atom "q", .atom "r"]
      [(some ⟨1⟩, some ⟨2⟩), (none, some ⟨2⟩), (some ⟨1⟩, some ⟨3⟩),
        (some ⟨1⟩, some ⟨1⟩), (some ⟨1⟩, some ⟨2⟩)]
      [.setConsequent ⟨7⟩ (some ⟨2⟩), .remove "r", .removeKey ⟨8⟩]
    let world := furnished.setCurrent
      { id := 1, valuation := Valuation.ofList [("p", true), ("q", false)] }
    world.rules = [⟨4⟩, ⟨5⟩, ⟨6⟩, ⟨7⟩, ⟨8⟩] ∧
      world.triggeredRules = .ok [⟨4⟩, ⟨5⟩, ⟨6⟩, ⟨7⟩] ∧
      world.violatedRules = .ok [⟨4⟩, ⟨7⟩] ∧
      [⟨4⟩, ⟨7⟩] = [⟨4⟩, ⟨5⟩, ⟨6⟩, ⟨7⟩].filter world.fails ∧
      world.implied = .ok [⟨2⟩, ⟨2⟩, ⟨2⟩] := by
  intro furnished world
  have reachable : world.Reachable :=
    (reachable_replay _ _ _).setCurrent _
  have triggering : world.triggeredRules = .ok [⟨4⟩, ⟨5⟩, ⟨6⟩, ⟨7⟩] := by
    decide +kernel
  have violating : world.violatedRules = .ok [⟨4⟩, ⟨7⟩] := by
    decide +kernel
  obtain ⟨kept, implies⟩ :=
    reachable.violated_among_triggered triggering violating
  exact ⟨by decide +kernel, triggering, violating, kept,
    implies.trans (by decide +kernel)⟩

end World

end NamedLogic
