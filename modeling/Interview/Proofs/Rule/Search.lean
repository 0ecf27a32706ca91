import Interview.Proofs.Evaluation.Locality
import Interview.Session

/-!
# The search for a target

What a search through a list of rules can find, how it can fail and what it depends on. Proofs
about rules follow their nesting: one statement about a rule and one about a list of rules.

* `Rule.mem_allOutcomes_of_search`: a search finds only targets that the rules declare.
* `Rule.search_eq_indeterminate`: the only dead end of a search is a group without a match.
* `Rule.search_congr`: a search depends only on the values of the predicates in the rules.
* `Node.mem_targets_of_destination`: a step leads to a target that the node declares.
* `Node.faultsIn_answer`: what a step from a node may fail with.
* `Node.answer_eq_indeterminate`: a step from a node with rules or a start button never fails for
  want of them.
-/

namespace Interview

variable {r r' : Registry} {s s' : State} {node : String}

/-- What a step from a node may fail with: a fault of an evaluation, or a dead end at the node. -/
inductive Fault.OfStep (node : String) : Fault → Prop
  | values {e : Fault} : e.OfValues → OfStep node e
  | deadEnd (reason : DeadEnd) : OfStep node (.indeterminate node reason)

namespace Rule

mutual

/-- The predicates of a rule and of the rules in it, in document order. -/
def predicates : Rule → List Predicate
  | goTo p _ => [p]
  | group p children => p :: allPredicates children

/-- The predicates of some rules and of the rules in them, in document order. -/
def allPredicates : List Rule → List Predicate
  | [] => []
  | rule :: rules => predicates rule ++ allPredicates rules

end

/-! ## What a search finds -/

variable {target : String}

mutual

theorem mem_outcomes_of_target? (rule : Rule)
    (h : (target? r s node rule).result = .ok (some target)) : target ∈ rule.outcomes := by
  match rule with
  | goTo p t =>
    rw [target?] at h
    obtain ⟨holds, -, h⟩ := Inquiry.result_bind_eq_ok.mp h
    cases holds with
    | true => cases h; simp [outcomes]
    | false => cases h
  | group p children =>
    rw [target?] at h
    obtain ⟨holds, -, h⟩ := Inquiry.result_bind_eq_ok.mp h
    cases holds with
    | true =>
      obtain ⟨found, hc, h⟩ := Inquiry.result_bind_eq_ok.mp h
      cases found with
      | some t => cases h; exact mem_allOutcomes_of_search children hc
      | none => cases h
    | false => cases h

/-- A search finds only targets that the rules declare. -/
theorem mem_allOutcomes_of_search (rules : List Rule)
    (h : (search r s node rules).result = .ok (some target)) : target ∈ allOutcomes rules := by
  match rules with
  | [] => cases h
  | rule :: rules =>
    rw [search] at h
    obtain ⟨found, hf, h⟩ := Inquiry.result_bind_eq_ok.mp h
    cases found with
    | some t => cases h; exact List.mem_append_left _ (mem_outcomes_of_target? rule hf)
    | none => exact List.mem_append_right _ (mem_allOutcomes_of_search rules h)

end

/-! ## How a search fails -/

variable {name : String} {reason : DeadEnd}

mutual

theorem target?_eq_indeterminate (rule : Rule)
    (h : (target? r s node rule).result = .error (.indeterminate name reason)) :
    name = node ∧ ∃ p ∈ rule.predicates, reason = .noRuleHoldsUnder p := by
  match rule with
  | goTo p t =>
    rw [target?] at h
    rcases Inquiry.result_bind_eq_error.mp h with h | ⟨holds, -, h⟩
    · exact absurd h ((Predicate.faultsIn_evaluate p).noDeadEnd _ _)
    · cases holds <;> cases h
  | group p children =>
    rw [target?] at h
    rcases Inquiry.result_bind_eq_error.mp h with h | ⟨holds, -, h⟩
    · exact absurd h ((Predicate.faultsIn_evaluate p).noDeadEnd _ _)
    · cases holds with
      | true =>
        rcases Inquiry.result_bind_eq_error.mp h with h | ⟨found, -, h⟩
        · obtain ⟨hn, q, hq, hr⟩ := search_eq_indeterminate children h
          exact ⟨hn, q, List.mem_cons_of_mem _ hq, hr⟩
        · cases found with
          | some t => cases h
          | none => cases h; exact ⟨rfl, p, List.mem_cons_self, rfl⟩
      | false => cases h

/-- The only dead end of a search is a group that holds without a match in it. -/
theorem search_eq_indeterminate (rules : List Rule)
    (h : (search r s node rules).result = .error (.indeterminate name reason)) :
    name = node ∧ ∃ p ∈ allPredicates rules, reason = .noRuleHoldsUnder p := by
  match rules with
  | [] => cases h
  | rule :: rules =>
    rw [search] at h
    rcases Inquiry.result_bind_eq_error.mp h with h | ⟨found, -, h⟩
    · obtain ⟨hn, q, hq, hr⟩ := target?_eq_indeterminate rule h
      exact ⟨hn, q, List.mem_append_left _ hq, hr⟩
    · cases found with
      | some t => cases h
      | none =>
        obtain ⟨hn, q, hq, hr⟩ := search_eq_indeterminate rules h
        exact ⟨hn, q, List.mem_append_right _ hq, hr⟩

end

mutual

theorem faultsIn_target? (rule : Rule) :
    FaultsIn (Fault.OfStep node) (target? r s node rule).result := by
  match rule with
  | goTo p t =>
    rw [target?]
    refine ((Predicate.faultsIn_evaluate p).mono .values).inquiry_bind fun holds => ?_
    cases holds <;> exact faultsIn_ok _
  | group p children =>
    rw [target?]
    refine ((Predicate.faultsIn_evaluate p).mono .values).inquiry_bind fun holds => ?_
    cases holds with
    | true =>
      refine (faultsIn_search children).inquiry_bind fun found => ?_
      cases found with
      | some t => exact faultsIn_ok _
      | none => exact faultsIn_error (.deadEnd _)
    | false => exact faultsIn_ok _

/-- A search fails by an evaluation or at a dead end. -/
theorem faultsIn_search (rules : List Rule) :
    FaultsIn (Fault.OfStep node) (search r s node rules).result := by
  match rules with
  | [] => exact faultsIn_ok _
  | rule :: rules =>
    rw [search]
    refine (faultsIn_target? rule).inquiry_bind fun found => ?_
    cases found with
    | some t => exact faultsIn_ok _
    | none => exact faultsIn_search rules

end

/-! ## What a search depends on -/

mutual

theorem target?_congr (rule : Rule)
    (h : ∀ p ∈ rule.predicates, p.evaluate r s = p.evaluate r' s') :
    target? r s node rule = target? r' s' node rule := by
  match rule with
  | goTo p t => rw [target?, target?, h p List.mem_cons_self]
  | group p children =>
    have hc := search_congr children fun q hq => h q (List.mem_cons_of_mem _ hq)
    rw [target?, target?, h p List.mem_cons_self, hc]

/-- A search depends only on the values of the predicates in the rules. -/
theorem search_congr (rules : List Rule)
    (h : ∀ p ∈ allPredicates rules, p.evaluate r s = p.evaluate r' s') :
    search r s node rules = search r' s' node rules := by
  match rules with
  | [] => rfl
  | rule :: rules =>
    have hhead := target?_congr rule fun q hq => h q (List.mem_append_left _ hq)
    have htail := search_congr rules fun q hq => h q (List.mem_append_right _ hq)
    rw [search, search, hhead, htail]

end

end Rule

/-! ## The way on from a node -/

namespace Node

variable {n : Node} {input target name : String} {reason : DeadEnd}

/-- The targets that a node declares: those of its rules, or of its start button if it has no
rules. -/
def targets (n : Node) : List String :=
  match n.rules? with
  | some rules => Rule.allOutcomes rules
  | none => n.startButton?.toList

/-- The way on from a node with rules depends only on the search through them. -/
theorem wayOn_congr {rules : List Rule} (hrules : n.rules? = some rules)
    (h : Rule.search r s n.name rules = Rule.search r' s' n.name rules) :
    n.wayOn r s = n.wayOn r' s' := by
  unfold wayOn
  rw [hrules]
  simp only [h]

/-- A step leads to a target that the node declares. -/
theorem mem_targets_of_destination (h : (n.destination r s input).result = .ok target) :
    target ∈ n.targets := by
  unfold destination wayOn at h
  unfold targets
  cases hrules : n.rules? with
  | some rules =>
    rw [hrules] at h
    obtain ⟨found, hf, h⟩ := Inquiry.result_bind_eq_ok.mp h
    cases found with
    | some t => cases h; exact Rule.mem_allOutcomes_of_search rules hf
    | none => cases h
  | none =>
    rw [hrules] at h
    cases hbutton : n.startButton? with
    | some t => rw [hbutton] at h; cases h; exact List.mem_singleton_self _
    | none => rw [hbutton] at h; cases h

theorem faultsIn_destination : FaultsIn (Fault.OfStep n.name) (n.destination r s input).result := by
  unfold destination wayOn
  cases n.rules? with
  | some rules =>
    refine (Rule.faultsIn_search rules).inquiry_bind fun found => ?_
    cases found with
    | some t => exact faultsIn_ok _
    | none => exact faultsIn_error (.deadEnd _)
  | none =>
    cases n.startButton? with
    | some t => exact faultsIn_ok _
    | none => exact faultsIn_error (.deadEnd _)

/-- A step from a node fails by an evaluation, by the shape of the history or at a dead end. -/
theorem faultsIn_answer : FaultsIn (Fault.OfStep n.name) (n.answer r s input).result := by
  unfold answer
  refine faultsIn_destination.inquiry_bind fun target => ?_
  refine ((State.faultsIn_getList _).mono .values).inquiry_bind fun path => ?_
  exact ((State.faultsIn_getList _).mono .values).inquiry_bind fun responses => faultsIn_ok _

/-- A node with rules or a start button never fails for want of them. -/
theorem destination_eq_indeterminate (hn : n.isTerminal = false)
    (h : (n.destination r s input).result = .error (.indeterminate name reason)) :
    name = n.name ∧ reason ≠ .noWayOn := by
  unfold destination wayOn at h
  cases hrules : n.rules? with
  | some rules =>
    rw [hrules] at h
    rcases Inquiry.result_bind_eq_error.mp h with h | ⟨found, -, h⟩
    · obtain ⟨hname, p, -, rfl⟩ := Rule.search_eq_indeterminate rules h
      exact ⟨hname, by simp⟩
    · cases found with
      | some t => cases h
      | none => cases h; exact ⟨rfl, by simp⟩
  | none =>
    rw [hrules] at h
    cases hbutton : n.startButton? with
    | some t => rw [hbutton] at h; cases h
    | none => simp [isTerminal, hrules, hbutton] at hn

theorem answer_eq_indeterminate (hn : n.isTerminal = false)
    (h : (n.answer r s input).result = .error (.indeterminate name reason)) :
    name = n.name ∧ reason ≠ .noWayOn := by
  unfold answer at h
  rcases Inquiry.result_bind_eq_error.mp h with h | ⟨target, -, h⟩
  · exact destination_eq_indeterminate hn h
  · rcases Inquiry.result_bind_eq_error.mp h with h | ⟨visited, -, h⟩
    · exact absurd h ((State.faultsIn_getList _).noDeadEnd _ _)
    · rcases Inquiry.result_bind_eq_error.mp h with h | ⟨given, -, h⟩
      · exact absurd h ((State.faultsIn_getList _).noDeadEnd _ _)
      · cases h

end Node

end Interview
