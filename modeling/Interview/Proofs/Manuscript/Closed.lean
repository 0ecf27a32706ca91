import Interview.Proofs.Manuscript.Compilation
import Interview.Proofs.Session.History

/-!
# Closed flows

A flow is closed if every target that one of its nodes declares is the name of a node. A session
in a closed flow that starts at a node of the flow is never anywhere else.

* `Flow.Closed`: no target leads out of the flow.
* `Guide.Inside.step`, `Guide.Inside.faultsIn_answer`: one step from a node of a closed flow.
* `Guide.Inside.replayFrom`: a run.
* `Manuscript.replay_inside`: sessions in the closed flow that a manuscript makes.
-/

namespace Interview

/-- Every target that a node declares is the name of a node. -/
def Flow.Closed (f : Flow) : Prop := ∀ n ∈ f.nodes, ∀ target ∈ n.targets, target ∈ f.nodeNames

instance (f : Flow) : Decidable f.Closed :=
  inferInstanceAs (Decidable (∀ n ∈ f.nodes, ∀ target ∈ n.targets, target ∈ f.nodeNames))

namespace Guide

variable {g : Guide} {s s' : State} {input : String}

/-- The session is at a node of the flow. -/
def Inside (g : Guide) (s : State) : Prop :=
  ∃ here, s.currentNode = .ok here ∧ here ∈ g.flow.nodeNames

/-- A fault other than that the session is at no node of the flow. -/
def Found (e : Fault) : Prop := ∀ name, e ≠ .unknownNode name

theorem Inside.exists_nodeAt (h : g.Inside s) : ∃ n ∈ g.flow.nodes, g.nodeAt s = .ok n := by
  obtain ⟨here, hhere, hmem⟩ := h
  obtain ⟨n, hn⟩ := Flow.exists_node? hmem
  exact ⟨n, (Flow.name_of_node? hn).2, nodeAt_eq_ok.mpr ⟨here, hhere, hn⟩⟩

/-- **One step.** The target of a step is the name of a node, and nothing is written over it. -/
theorem Inside.step (h : g.Inside s) (hclosed : g.flow.Closed)
    (hs : (g.answer s input).result = .ok s') : g.Inside s' := by
  obtain ⟨n, hn, hs⟩ := answer_result_eq_ok.mp hs
  obtain ⟨target, visited, given, ht, -, -, rfl⟩ := Node.answer_result_eq_ok.mp hs
  obtain ⟨k, hk, hnode⟩ := h.exists_nodeAt
  rw [hn] at hnode
  cases hnode
  exact ⟨target, Node.currentNode_recorded, hclosed n hk target (Node.mem_targets_of_destination ht)⟩

theorem Inside.faultsIn_answer (h : g.Inside s) : FaultsIn Found (g.answer s input).result := by
  obtain ⟨n, -, hn⟩ := h.exists_nodeAt
  have hanswer : g.answer s input = n.answer g.registry s input := by
    unfold answer
    rw [hn, Inquiry.liftM_eq_ofExcept, Inquiry.ofExcept_ok, pure_bind]
  rw [hanswer]
  refine Node.faultsIn_answer.mono fun {e} he name heq => ?_
  subst heq
  cases he with
  | values he => cases he

/-- One answer of a replay keeps the session inside the flow. -/
theorem Inside.advance (h : g.Inside s) (hclosed : g.flow.Closed) :
    FaultsIn Found (g.advance s input).result ∧
      ∀ s', (g.advance s input).result = .ok s' → g.Inside s' := by
  by_cases hend : g.AtEnd s
  · rw [advance_of_atEnd hend]
    refine ⟨faultsIn_ok s, fun s' hs => ?_⟩
    cases hs
    exact h
  · rw [advance_of_not_atEnd hend]
    exact ⟨h.faultsIn_answer, fun s' hs => h.step hclosed hs⟩

/-- **A run.** So does a replay. -/
theorem Inside.replayFrom (h : g.Inside s) (hclosed : g.flow.Closed) (inputs : List String) :
    FaultsIn Found (g.replayFrom s inputs).result ∧
      ∀ s', (g.replayFrom s inputs).result = .ok s' → g.Inside s' := by
  induction inputs generalizing s with
  | nil =>
    refine ⟨faultsIn_ok s, fun s' hs => ?_⟩
    cases hs
    exact h
  | cons input inputs ih =>
    obtain ⟨hfault, hinside⟩ := h.advance hclosed
    rw [replayFrom_cons]
    constructor
    · intro e he
      rcases Inquiry.result_bind_eq_error.mp he with he | ⟨next, hnext, he⟩
      · exact hfault e he
      · exact (ih (hinside next hnext)).1 e he
    · intro s' hs
      obtain ⟨next, hnext, hs⟩ := Inquiry.result_bind_eq_ok.mp hs
      exact (ih (hinside next hnext)).2 s' hs

/-- A session that took no answer is where the flow starts. -/
theorem currentNode_of_no_answer {inputs : List String} (hs : (g.replay inputs).result = .ok s)
    (hnone : inputs = [] ∨ g.AtEnd g.start ∨ s.responses = .ok []) :
    s.currentNode = .ok g.flow.name := by
  have hstart : g.start.currentNode = .ok g.flow.name := rfl
  rcases hnone with rfl | hend | hresponses
  · cases hs
    exact hstart
  · unfold replay at hs
    rw [replayFrom_of_atEnd hend] at hs
    cases hs
    exact hstart
  · obtain ⟨k, -, names, here, hrec, -⟩ := (recorded_start g).replayFrom hs
    have htaken := hrec.responses [] hresponses
    have hnil : names = [] := by
      rw [← List.length_eq_zero_iff, hrec.length, ← htaken]
      rfl
    have hhere := hrec.head
    rw [hnil] at hhere
    cases hhere
    exact hrec.current

end Guide

namespace Manuscript

variable {m : Manuscript} {r : Registry} {f : Flow}

/-- **Closed flows.** If the flow that a manuscript makes is closed, then whatever the host knows
and whatever is answered, a replay never fails for want of a node. If it succeeds, the session is
at a node of the flow, which is that of the cover if no answer was taken. -/
theorem replay_inside (hf : m.flow r = .ok f) (hclosed : f.Closed) (host : Registry)
    (inputs : List String) :
    (∀ name, (Guide.replay ⟨f, host⟩ inputs).result ≠ .error (.unknownNode name)) ∧
      ∀ s, (Guide.replay ⟨f, host⟩ inputs).result = .ok s →
        (∃ here, s.currentNode = .ok here ∧ here ∈ f.nodeNames) ∧
        (inputs = [] ∨ Guide.AtEnd ⟨f, host⟩ (Guide.start ⟨f, host⟩) ∨ s.responses = .ok [] →
          s.currentNode = .ok m.cover.name) := by
  have hname : f.name = m.cover.name := (flow_eq_ok.mp hf).2.1
  have hstart : Guide.Inside ⟨f, host⟩ (Guide.start ⟨f, host⟩) :=
    ⟨f.name, rfl, hname ▸ cover_mem_nodeNames hf⟩
  obtain ⟨hfault, hinside⟩ := hstart.replayFrom hclosed inputs
  refine ⟨fun name h => hfault _ h name rfl, fun s hs => ⟨hinside s hs, fun hnone => ?_⟩⟩
  rw [← hname]
  exact Guide.currentNode_of_no_answer hs hnone

/-- In a closed flow of three nodes, an answer that is kept under the key of the current node does
not lead the session astray. -/
theorem replay_inside_visit :
    ∃ f, visit.flow .empty = .ok f ∧ f.Closed ∧
      (∀ name, (Guide.replay ⟨f, .empty⟩ ["a", "b"]).result ≠ .error (.unknownNode name)) ∧
      ∃ s, (Guide.replay ⟨f, .empty⟩ ["a"]).result = .ok s ∧ s.currentNode = .ok "form" ∧
        "form" ∈ f.nodeNames := by
  obtain ⟨f, hf, htest⟩ := exists_flow_of_any
    (fun f => f.Closed ∧ (Guide.replay ⟨f, .empty⟩ ["a"]).result.toOption.any
      fun s => s.currentNode.toOption = some "form")
    (show (visit.flow .empty).toOption.any _ = true by decide +kernel)
  obtain ⟨hclosed, hform⟩ := of_decide_eq_true htest
  cases hs : (Guide.replay ⟨f, .empty⟩ ["a"]).result with
  | error e => simp [hs, Except.toOption] at hform
  | ok s =>
    obtain ⟨⟨here, hhere, hmem⟩, -⟩ := (replay_inside hf hclosed .empty ["a"]).2 s hs
    obtain rfl : here = "form" := by simpa [hs, hhere, Except.toOption] using hform
    exact ⟨f, hf, hclosed, (replay_inside hf hclosed .empty ["a", "b"]).1, s, hs, hhere, hmem⟩

end Manuscript

end Interview
