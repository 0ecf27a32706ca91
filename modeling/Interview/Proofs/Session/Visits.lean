import Interview.Proofs.Session.History
import Interview.Proofs.State.Writes
import Mathlib.Data.List.Infix

/-!
# The visits of a session

A replay visits one node for every answer that it takes. An answer is kept under the name of its
node, and names are compared in normal form; so what is found under a name is the answer given on
the last visit to a node whose name has the same normal form, whichever node that is.

* `Guide.visits`: the nodes that a replay goes through, each with its answer.
* `Guide.replayFrom_induction`: what every step keeps is so after a run, of all its visits.
* `Guide.exists_recorded_visits`: the visits are the history of the session.
* `Guide.Kept.step`, `Guide.kept_replay`: at nodes without choices, the last answer for each name
  is kept. The lists cannot take its place: with a text in place of a list, no step succeeds.
-/

namespace Interview

namespace Guide

/-- A node that a session was at, and the answer given there. -/
structure Visit where
  /-- The node. -/
  node : Node
  /-- The answer. -/
  input : String

/-- The visits of a replay: it stops at the end of the interview, or at a fault. -/
def visitsFrom (g : Guide) (s : State) : List String → List Visit
  | [] => []
  | input :: inputs =>
    match g.nodeAt s with
    | .error _ => []
    | .ok n =>
      if n.isTerminal then []
      else
        match (n.answer g.registry s input).result with
        | .error _ => []
        | .ok next => ⟨n, input⟩ :: g.visitsFrom next inputs

/-- The visits of a replay from the start. -/
def visits (g : Guide) (inputs : List String) : List Visit := g.visitsFrom g.start inputs

/-- The last visit to a node whose name has the normal form of the key. -/
def lastVisit? (visits : List Visit) (key : String) : Option Visit :=
  visits.reverse.find? fun v => Key.normal v.node.name == Key.normal key

variable {g : Guide} {s s' : State} {n : Node} {input key : String} {inputs : List String}
  {visits : List Visit} {v : Visit}

/-! ## The visits of a replay -/

theorem visitsFrom_of_atEnd (h : g.AtEnd s) (inputs : List String) :
    g.visitsFrom s inputs = [] := by
  obtain ⟨n, hn, ht⟩ := atEnd_iff.mp h
  cases inputs <;> simp [visitsFrom, hn, ht]

theorem visitsFrom_cons (hend : ¬ g.AtEnd s) (hn : g.nodeAt s = .ok n)
    (hs : (n.answer g.registry s input).result = .ok s') :
    g.visitsFrom s (input :: inputs) = ⟨n, input⟩ :: g.visitsFrom s' inputs := by
  simp [visitsFrom, hn, isTerminal_of_not_atEnd hend hn, hs]

/-- The first visit is where the replay starts. -/
theorem exists_answer_of_visitsFrom (h : g.visitsFrom s (input :: inputs) = v :: visits) :
    g.nodeAt s = .ok v.node ∧ v.input = input ∧
      ∃ s', (v.node.answer g.registry s input).result = .ok s' ∧
        g.visitsFrom s' inputs = visits := by
  rw [visitsFrom] at h
  split at h
  · cases h
  · rename_i n hn
    split at h
    · cases h
    · split at h
      · cases h
      · rename_i s' hs
        cases h
        exact ⟨hn, rfl, s', hs, rfl⟩

theorem visitsFrom_inputs_isPrefix (s : State) (inputs : List String) :
    (g.visitsFrom s inputs).map (·.input) <+: inputs := by
  induction inputs generalizing s with
  | nil => exact List.prefix_rfl
  | cons input inputs ih =>
    unfold visitsFrom
    split
    · exact List.nil_prefix
    · split
      · exact List.nil_prefix
      · split
        · exact List.nil_prefix
        · exact List.cons_prefix_cons.mpr ⟨rfl, ih _⟩

/-- **Induction over a run.** What every step keeps, when its node and its answer join the visits,
is so after a run, of all its visits. -/
theorem replayFrom_induction {P : List Visit → State → Prop}
    (step : ∀ visits s n input s', P visits s → g.nodeAt s = .ok n →
      (n.answer g.registry s input).result = .ok s' → P (visits ++ [⟨n, input⟩]) s')
    (h : P visits s) (hs : (g.replayFrom s inputs).result = .ok s') :
    P (visits ++ g.visitsFrom s inputs) s' := by
  induction inputs generalizing visits s with
  | nil =>
    cases hs
    simpa [visitsFrom] using h
  | cons input inputs ih =>
    by_cases hend : g.AtEnd s
    · rw [replayFrom_of_atEnd hend] at hs
      cases hs
      rwa [visitsFrom_of_atEnd hend, List.append_nil]
    · rw [replayFrom_cons, advance_of_not_atEnd hend] at hs
      obtain ⟨next, hnext, hs⟩ := Inquiry.result_bind_eq_ok.mp hs
      obtain ⟨n, hn, hanswer⟩ := answer_result_eq_ok.mp hnext
      rw [visitsFrom_cons hend hn hanswer, List.append_cons]
      exact ih (step _ _ _ _ _ h hn hanswer) hs

theorem replay_induction {P : List Visit → State → Prop}
    (step : ∀ visits s n input s', P visits s → g.nodeAt s = .ok n →
      (n.answer g.registry s input).result = .ok s' → P (visits ++ [⟨n, input⟩]) s')
    (start : P [] g.start) (hs : (g.replay inputs).result = .ok s) : P (g.visits inputs) s :=
  replayFrom_induction step start hs

/-- The visits are the history of the session. -/
theorem exists_recorded_visits (hs : (g.replay inputs).result = .ok s) :
    ∃ here, Recorded g ((g.visits inputs).map (·.node.name)) ((g.visits inputs).map (·.input))
      here s := by
  refine replay_induction
    (P := fun vs s => ∃ here, Recorded g (vs.map (·.node.name)) (vs.map (·.input)) here s)
    (fun vs s n input s' ⟨here, h⟩ hn hanswer => ?_) ⟨_, recorded_start g⟩ hs
  obtain ⟨name, hname, hnode⟩ := nodeAt_eq_ok.mp hn
  obtain rfl : name = here := by simpa [h.current] using hname.symm
  obtain ⟨next, h'⟩ := h.step (answer_result_eq_ok.mpr ⟨n, hn, hanswer⟩)
  exact ⟨next, by simpa [(Flow.name_of_node? hnode).1] using h'⟩

/-- A session visits nodes of its flow, by their names. -/
theorem node?_of_mem_visits (hs : (g.replay inputs).result = .ok s) (hv : v ∈ g.visits inputs) :
    g.flow.node? v.node.name = some v.node := by
  refine replay_induction
    (P := fun vs _ => ∀ v ∈ vs, g.flow.node? v.node.name = some v.node)
    (fun vs s n input s' h hn _ => ?_) (by simp) hs v hv
  obtain ⟨name, -, hnode⟩ := nodeAt_eq_ok.mp hn
  obtain ⟨rfl, -⟩ := Flow.name_of_node? hnode
  simpa [or_imp, forall_and, hnode] using h

/-! ## The last visit for a key -/

theorem lastVisit?_append (visits : List Visit) (v : Visit) (key : String) :
    lastVisit? (visits ++ [v]) key =
      if Key.normal v.node.name = Key.normal key then some v else lastVisit? visits key := by
  by_cases h : Key.normal v.node.name = Key.normal key <;> simp [lastVisit?, h]

theorem exists_lastVisit? (hv : v ∈ visits) : ∃ u, lastVisit? visits v.node.name = some u :=
  Option.isSome_iff_exists.mp (List.find?_isSome.mpr ⟨v, List.mem_reverse.mpr hv, by simp⟩)

/-! ## Answers are kept -/

/-- The last answer for each key is under that key, unless it is the key of the current node. -/
def Kept (visits : List Visit) (s : State) : Prop :=
  ∀ key v, lastVisit? visits key = some v → Key.normal key ≠ Key.currentNode →
    s.get? key = some (.text v.input)

theorem kept_nil (s : State) : Kept [] s := by
  intro key v hv
  simp [lastVisit?] at hv

/-- **One step.** A step from a node without choices writes over no answer but those for the same
name. -/
theorem Kept.step {r : Registry} (h : Kept visits s) (hn : n.choiceQuestion? = none)
    (hs : (n.answer r s input).result = .ok s') : Kept (visits ++ [⟨n, input⟩]) s' := by
  intro key v hv hkey
  have hanswerKey := Node.answerKey_eq_name hn
  rw [lastVisit?_append] at hv
  split at hv
  · rename_i hname
    cases hv
    exact Node.get?_of_answer_same hs hkey (by rwa [hanswerKey])
  · rename_i hname
    have hkept := h key v hv hkey
    rw [Node.get?_of_answer hs hkey (by simp [hkept]), if_neg (by rwa [hanswerKey, or_self]), hkept]

/-- **A run.** If a replay succeeds and the nodes that it visits have no choices, the last answer
for each name is under that name. -/
theorem kept_replay (hs : (g.replay inputs).result = .ok s)
    (hplain : ∀ v ∈ g.visits inputs, v.node.choiceQuestion? = none) :
    Kept (g.visits inputs) s := by
  refine replay_induction
    (P := fun vs s => (∀ v ∈ vs, v.node.choiceQuestion? = none) → Kept vs s)
    (fun vs s n input s' h _ hanswer hplain => ?_) (fun _ => kept_nil _) hs hplain
  exact (h fun v hv => hplain v (List.mem_append_left _ hv)).step
    (hplain ⟨n, input⟩ (by simp)) hanswer

/-- What is found under the name of a node that was visited: the answer of the last visit to a
node whose name has the same normal form, or the node the session is at. -/
theorem Kept.getText_eq (h : Kept visits s) (hv : v ∈ visits) :
    ∃ u, lastVisit? visits v.node.name = some u ∧
      s.getText v.node.name =
        if Key.normal v.node.name = Key.currentNode then s.currentNode else .ok u.input := by
  obtain ⟨u, hu⟩ := exists_lastVisit? hv
  refine ⟨u, hu, ?_⟩
  split
  · rename_i hname
    exact State.getText_congr (hname.trans Key.normal_currentNode.symm)
  · rename_i hname
    exact State.getText_eq_ok.mpr (h _ u hu hname)

end Guide

end Interview
