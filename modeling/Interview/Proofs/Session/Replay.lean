import Interview.Proofs.Except
import Interview.Proofs.Rule.Search

/-!
# Replaying is stepping

A replay looks at the node of a session before every answer, to see whether the interview has
ended. So it is one fold of a step that leaves a session alone which has ended.

* `Guide.AtEnd`: the session is at a node that ends the interview.
* `Guide.advance`: one answer of a replay. It is a step (`Guide.advance_of_not_atEnd`), or nothing
  at the end of the interview (`Guide.advance_of_atEnd`).
* `Guide.replayFrom_eq_foldlM`: a replay advances with one answer after the other.
* `Guide.replay_eq_stepping`: a replay may be broken off and taken up again anywhere; a fault and
  the end of the interview are final; and no replay fails at a node without a way on.
-/

namespace Interview

namespace Guide

variable {g : Guide} {s s' : State}

/-- The session is at a node of the flow that ends the interview. -/
def AtEnd (g : Guide) (s : State) : Prop :=
  ∃ name n, s.currentNode = .ok name ∧ g.flow.node? name = some n ∧ n.isTerminal = true

/-- One answer of a replay. It is left out if the interview has ended. -/
def advance (g : Guide) (s : State) (input : String) : Inquiry State := do
  let n ← g.nodeAt s
  if n.isTerminal then pure s else g.answer s input

/-! ## The node of a session -/

theorem nodeAt_eq_ok {n : Node} :
    g.nodeAt s = .ok n ↔ ∃ name, s.currentNode = .ok name ∧ g.flow.node? name = some n := by
  rw [nodeAt, Except.bind_eq_ok]
  refine exists_congr fun name => and_congr_right fun _ => ?_
  cases g.flow.node? name <;> simp

theorem noDeadEnd_nodeAt : NoDeadEnd (g.nodeAt s) := by
  intro node reason h
  obtain hc | ⟨name, -, h⟩ := Except.bind_eq_error.mp h
  · exact (State.faultsIn_getText _).noDeadEnd _ _ hc
  · cases hn : g.flow.node? name <;> simp [hn] at h

theorem atEnd_iff : g.AtEnd s ↔ ∃ n, g.nodeAt s = .ok n ∧ n.isTerminal = true := by
  constructor
  · rintro ⟨name, n, hc, hn, ht⟩
    exact ⟨n, nodeAt_eq_ok.mpr ⟨name, hc, hn⟩, ht⟩
  · rintro ⟨n, hn, ht⟩
    obtain ⟨name, hc, hn⟩ := nodeAt_eq_ok.mp hn
    exact ⟨name, n, hc, hn, ht⟩

theorem isTerminal_of_not_atEnd {n : Node} (h : ¬ g.AtEnd s) (hn : g.nodeAt s = .ok n) :
    n.isTerminal = false := by
  by_cases ht : n.isTerminal = true
  · exact absurd (atEnd_iff.mpr ⟨n, hn, ht⟩) h
  · simpa using ht

/-- What a step does, and from where. -/
theorem answer_result_eq_ok {input : String} :
    (g.answer s input).result = .ok s' ↔
      ∃ n, g.nodeAt s = .ok n ∧ (n.answer g.registry s input).result = .ok s' := by
  unfold answer
  simp only [Inquiry.result_bind_eq_ok, Inquiry.liftM_eq_ofExcept, Inquiry.ofExcept_result]

/-! ## One answer -/

theorem advance_of_atEnd (h : g.AtEnd s) (input : String) : g.advance s input = pure s := by
  obtain ⟨n, hn, ht⟩ := atEnd_iff.mp h
  unfold advance
  simp [hn, ht]

theorem advance_of_not_atEnd (h : ¬ g.AtEnd s) (input : String) :
    g.advance s input = g.answer s input := by
  unfold advance
  cases hn : g.nodeAt s with
  | error e => simp [answer, hn]
  | ok n => simp [isTerminal_of_not_atEnd h hn]

/-- An answer may fail for want of a match, but never at a node without a way on. -/
theorem advance_eq_indeterminate {input name : String} {reason : DeadEnd}
    (h : (g.advance s input).result = .error (.indeterminate name reason)) :
    reason ≠ .noWayOn ∧ ∃ n, g.flow.node? name = some n ∧ n.isTerminal = false := by
  unfold advance at h
  cases hn : g.nodeAt s with
  | error e =>
    rw [hn] at h
    cases h
    exact absurd hn (noDeadEnd_nodeAt _ _)
  | ok n =>
    rw [hn, Inquiry.liftM_eq_ofExcept, Inquiry.ofExcept_ok, pure_bind] at h
    split at h
    · cases h
    · rename_i ht
      rw [answer, hn, Inquiry.liftM_eq_ofExcept, Inquiry.ofExcept_ok, pure_bind] at h
      have ht' : n.isTerminal = false := by simpa using ht
      obtain ⟨rfl, hreason⟩ := Node.answer_eq_indeterminate ht' h
      obtain ⟨name, -, hname⟩ := nodeAt_eq_ok.mp hn
      obtain ⟨rfl, -⟩ := Flow.name_of_node? hname
      exact ⟨hreason, n, hname, ht'⟩

/-! ## A whole replay -/

theorem replayFrom_of_atEnd (h : g.AtEnd s) (inputs : List String) :
    g.replayFrom s inputs = pure s := by
  cases inputs with
  | nil => rfl
  | cons input inputs =>
    obtain ⟨n, hn, ht⟩ := atEnd_iff.mp h
    rw [replayFrom]
    simp [hn, ht]

theorem replayFrom_cons (s : State) (input : String) (inputs : List String) :
    g.replayFrom s (input :: inputs) =
      g.advance s input >>= fun next => g.replayFrom next inputs := by
  by_cases h : g.AtEnd s
  · rw [replayFrom_of_atEnd h, advance_of_atEnd h, pure_bind, replayFrom_of_atEnd h]
  · rw [advance_of_not_atEnd h, replayFrom]
    cases hn : g.nodeAt s with
    | error e => simp [answer, hn]
    | ok n => simp [isTerminal_of_not_atEnd h hn]

/-- A replay advances with one answer after the other. -/
theorem replayFrom_eq_foldlM (s : State) (inputs : List String) :
    g.replayFrom s inputs = inputs.foldlM g.advance s := by
  induction inputs generalizing s with
  | nil => rfl
  | cons input inputs ih =>
    rw [replayFrom_cons, List.foldlM_cons]
    congr 1
    funext next
    exact ih next

/-- A replay may be broken off and taken up again anywhere. -/
theorem replay_append (xs ys : List String) :
    g.replay (xs ++ ys) = g.replay xs >>= fun s => g.replayFrom s ys := by
  simp only [replay, replayFrom_eq_foldlM, List.foldlM_append]

theorem replay_append_of_error {xs : List String} {e : Fault} (h : (g.replay xs).result = .error e)
    (ys : List String) : g.replay (xs ++ ys) = g.replay xs := by
  rw [replay_append, Inquiry.bind_error h, ← h]

theorem replay_append_of_atEnd {xs : List String} (h : (g.replay xs).result = .ok s)
    (hs : g.AtEnd s) (ys : List String) : g.replay (xs ++ ys) = g.replay xs := by
  rw [replay_append, Inquiry.bind_ok h, replayFrom_of_atEnd hs, Inquiry.pure_calls,
    Inquiry.pure_result, List.append_nil, ← h]

theorem replayFrom_eq_indeterminate {inputs : List String} {name : String} {reason : DeadEnd}
    (h : (g.replayFrom s inputs).result = .error (.indeterminate name reason)) :
    reason ≠ .noWayOn ∧ ∃ n, g.flow.node? name = some n ∧ n.isTerminal = false := by
  induction inputs generalizing s with
  | nil => cases h
  | cons input inputs ih =>
    rw [replayFrom_cons] at h
    rcases Inquiry.result_bind_eq_error.mp h with h | ⟨next, -, h⟩
    · exact advance_eq_indeterminate h
    · exact ih h

/-- **Replaying is stepping.** A replay of nothing is the start. One more answer is one more step
(with its calls to the host), unless there was a fault or the interview has ended; these are final,
whatever follows. So a replay may be broken off and taken up again anywhere, and advances with one
answer after the other. It may fail for want of a match, but never at a node without a way on. -/
theorem replay_eq_stepping (g : Guide) :
    g.replay [] = pure g.start ∧
      (∀ xs e, (g.replay xs).result = .error e → ∀ ys, g.replay (xs ++ ys) = g.replay xs) ∧
      (∀ xs s, (g.replay xs).result = .ok s → g.AtEnd s →
        ∀ ys, g.replay (xs ++ ys) = g.replay xs) ∧
      (∀ xs s, (g.replay xs).result = .ok s → ¬ g.AtEnd s →
        ∀ input, g.replay (xs ++ [input]) =
          ⟨(g.replay xs).calls ++ (g.answer s input).calls, (g.answer s input).result⟩) ∧
      (∀ xs ys, g.replay (xs ++ ys) = g.replay xs >>= fun s => g.replayFrom s ys) ∧
      (∀ xs, g.replay xs = xs.foldlM g.advance g.start) ∧
      ∀ xs name reason, (g.replay xs).result = .error (.indeterminate name reason) →
        reason ≠ .noWayOn ∧ ∃ n, g.flow.node? name = some n ∧ n.isTerminal = false := by
  refine ⟨rfl, fun xs e h => replay_append_of_error h, fun xs s h hs => replay_append_of_atEnd h hs,
    ?_, replay_append, replayFrom_eq_foldlM g.start, fun xs name reason => ?_⟩
  · intro xs s h hs input
    rw [replay_append, Inquiry.bind_ok h, replayFrom_cons, advance_of_not_atEnd hs]
    simp only [replayFrom, bind_pure]
  · exact replayFrom_eq_indeterminate

/-- A guide through three nodes. One of its answers leads to a node that is not in the flow. -/
def journey : Guide where
  flow := ⟨"start", [
    ⟨"start", [.startButton "where"], ⟨[]⟩⟩,
    ⟨"where", [.rules [.goTo (.equals "where" "home") "end", .goTo (.equals "where" "on") "where",
      .goTo (.equals "where" "away") "nowhere"]], ⟨[]⟩⟩,
    ⟨"end", [.paragraph "Welcome home."], ⟨[]⟩⟩]⟩
  registry := .empty

/-- In that guide, an answer without a match is final, and so is the end. -/
theorem replay_eq_stepping_journey :
    (journey.replay ["go", "up"]).result = .error (.indeterminate "where" .noRuleHolds) ∧
      journey.replay ["go", "up", "home"] = journey.replay ["go", "up"] ∧
      ∃ s, (journey.replay ["go", "home"]).result = .ok s ∧ journey.AtEnd s ∧
        journey.replay ["go", "home", "on"] = journey.replay ["go", "home"] := by
  obtain ⟨-, herror, hend, -⟩ := replay_eq_stepping journey
  have hup : (journey.replay ["go", "up"]).result = .error (.indeterminate "where" .noRuleHolds) :=
    rfl
  have hhome : (journey.replay ["go", "home"]).result = .ok _ := rfl
  exact ⟨hup, herror _ _ hup ["home"], _, hhome, ⟨"end", _, rfl, rfl, rfl⟩,
    hend _ _ hhome ⟨"end", _, rfl, rfl, rfl⟩ ["on"]⟩

end Guide

end Interview
