import Interview.Proofs.Session.Replay
import Interview.Proofs.Session.Step
import Mathlib.Data.List.Chain

/-!
# The history of a session

A state keeps the history of its session in three entries: the nodes visited, the answers accepted
and the current node. An answer may be written over one of the lists, but then no step succeeds
any more; so in every state that still has both lists, they are the history.

* `Flow.Leads`: a node declares another as a target.
* `Guide.Recorded`: the entries of a state, as far as they are lists, are this history.
  `Guide.recorded_start` and `Guide.Recorded.step` are the start and one step,
  `Guide.Recorded.replayFrom` is a run.
* `Guide.replay_history`: the history in a state leads from the start of the flow to the current
  node, is made of the first answers given, and makes the same session if it is replayed.
-/

namespace Interview

/-- The first node of this name declares the target. -/
def Flow.Leads (f : Flow) (name target : String) : Prop :=
  ∃ n, f.node? name = some n ∧ target ∈ n.targets

namespace Guide

variable {g : Guide} {s s' : State} {names taken : List String} {here input : String}

/-- The session went through the nodes `names` with the answers `taken` and is at `here`. If an
entry of the state is the path or the responses, it says so. -/
structure Recorded (g : Guide) (names taken : List String) (here : String) (s : State) : Prop where
  current : s.currentNode = .ok here
  path : ∀ p, s.path = .ok p → p = names
  responses : ∀ l, s.responses = .ok l → l = taken
  length : names.length = taken.length
  head : (names ++ [here]).head? = some g.flow.name
  known : ∀ name ∈ names, name ∈ g.flow.nodeNames
  chain : (names ++ [here]).IsChain g.flow.Leads

theorem recorded_start (g : Guide) : Recorded g [] [] g.flow.name g.start where
  current := rfl
  path p h := by cases h; rfl
  responses l h := by cases h; rfl
  length := rfl
  head := rfl
  known name h := by cases h
  chain := .singleton _

/-- **One step.** The node joins the history, and one of its targets is next. -/
theorem Recorded.step (h : Recorded g names taken here s)
    (hs : (g.answer s input).result = .ok s') :
    ∃ next, Recorded g (names ++ [here]) (taken ++ [input]) next s' := by
  obtain ⟨n, hn, hs⟩ := answer_result_eq_ok.mp hs
  obtain ⟨next, visited, given, hd, hv, hg, rfl⟩ := Node.answer_result_eq_ok.mp hs
  obtain ⟨name, hname, hnode⟩ := nodeAt_eq_ok.mp hn
  obtain rfl : name = here := by simpa [h.current] using hname.symm
  obtain rfl := h.path visited hv
  obtain rfl := h.responses given hg
  have hn' := (Flow.name_of_node? hnode).1
  have hleads : g.flow.Leads name next := ⟨n, hnode, Node.mem_targets_of_destination hd⟩
  refine ⟨next, Node.currentNode_recorded, ?_, ?_, ?_, ?_, ?_, ?_⟩
  · intro p hp
    rw [Node.path_recorded, hn'] at hp
    split at hp <;> cases hp
    rfl
  · intro l hl
    rw [Node.responses_recorded] at hl
    split at hl <;> cases hl
    rfl
  · simp [h.length]
  · rw [List.head?_append, h.head]
    rfl
  · intro a ha
    rcases List.mem_append.mp ha with ha | ha
    · exact h.known a ha
    · obtain rfl := List.mem_singleton.mp ha
      exact Flow.mem_nodeNames_of_node? hnode
  · rw [List.append_assoc]
    exact List.isChain_append_cons_cons.mpr ⟨h.chain, hleads, .singleton _⟩

/-- **A run.** The answers that it takes join the history; replaying them alone is the same run. -/
theorem Recorded.replayFrom {inputs : List String} (h : Recorded g names taken here s)
    (hs : (g.replayFrom s inputs).result = .ok s') :
    ∃ k ≤ inputs.length, ∃ names' here', Recorded g names' (taken ++ inputs.take k) here' s' ∧
      g.replayFrom s (inputs.take k) = g.replayFrom s inputs := by
  induction inputs generalizing s names taken here with
  | nil =>
    cases hs
    exact ⟨0, Nat.le_refl _, names, here, by simpa using h, rfl⟩
  | cons input inputs ih =>
    by_cases hend : g.AtEnd s
    · rw [replayFrom_of_atEnd hend] at hs ⊢
      cases hs
      exact ⟨0, Nat.zero_le _, names, here, by simpa using h, rfl⟩
    · rw [replayFrom_cons, advance_of_not_atEnd hend] at hs
      obtain ⟨next, hnext, hs⟩ := Inquiry.result_bind_eq_ok.mp hs
      obtain ⟨here₁, h₁⟩ := h.step hnext
      obtain ⟨k, hk, names', here', hrec, hrun⟩ := ih h₁ hs
      refine ⟨k + 1, by simpa using hk, names', here', by simpa using hrec, ?_⟩
      rw [List.take_succ_cons, replayFrom_cons, replayFrom_cons, advance_of_not_atEnd hend,
        Inquiry.bind_ok hnext, Inquiry.bind_ok hnext, hrun]

/-- **The history of a session.** If a replay succeeds and the state has a path and responses,
these have one length; the responses are the first answers given; the path starts at the node that
the flow is named after, every node of it declares the next one as a target, and the last one
declares the current node. A replay of the responses alone is the same replay. -/
theorem replay_history {inputs path responses : List String}
    (hs : (g.replay inputs).result = .ok s) (hpath : s.path = .ok path)
    (hresponses : s.responses = .ok responses) :
    ∃ k ≤ inputs.length, path.length = k ∧ responses.length = k ∧ responses = inputs.take k ∧
      (∀ name ∈ path, name ∈ g.flow.nodeNames) ∧
      (∃ here, s.currentNode = .ok here ∧ (path ++ [here]).head? = some g.flow.name ∧
        (path ++ [here]).IsChain g.flow.Leads) ∧
      g.replay responses = g.replay inputs := by
  obtain ⟨k, hk, names, here, hrec, hrun⟩ := (recorded_start g).replayFrom hs
  rw [List.nil_append] at hrec
  obtain rfl := hrec.path path hpath
  obtain rfl := hrec.responses responses hresponses
  have hlen : (inputs.take k).length = k := by rw [List.length_take]; omega
  exact ⟨k, hk, hrec.length.trans hlen, hlen, rfl, hrec.known,
    ⟨here, hrec.current, hrec.head, hrec.chain⟩, hrun⟩

/-- In a guide with a loop, the last answer comes after the end and is not part of the history. -/
theorem replay_history_journey :
    ∃ s, (journey.replay ["go", "on", "home", "on"]).result = .ok s ∧
      s.path = .ok ["start", "where", "where"] ∧ s.responses = .ok ["go", "on", "home"] ∧
      (∃ here, s.currentNode = .ok here ∧
        ["start", "where", "where", here].IsChain journey.flow.Leads) ∧
      journey.replay ["go", "on", "home"] = journey.replay ["go", "on", "home", "on"] := by
  have hs : (journey.replay ["go", "on", "home", "on"]).result = .ok _ := rfl
  obtain ⟨k, -, -, -, -, -, ⟨here, hcurrent, -, hchain⟩, hrun⟩ :=
    replay_history hs (rfl : _ = Except.ok ["start", "where", "where"])
      (rfl : _ = Except.ok ["go", "on", "home"])
  exact ⟨_, hs, rfl, rfl, ⟨here, hcurrent, hchain⟩, hrun⟩

end Guide

end Interview
