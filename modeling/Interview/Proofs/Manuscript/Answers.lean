import Interview.Proofs.Manuscript.Compilation
import Interview.Proofs.Session.Visits

/-!
# Whose answer is under a name

The nodes of a flow have distinct names, but two names may have the same normal form. Their nodes
share one entry of the state, and an answer at one of them takes the place of the answer at the
other. The name of a node may also be one for the current node.

* `Manuscript.last_answer_found`: which names an answer is given to, and what is found under the
  name of every node that was visited.
* `Manuscript.answers_share_entries`: an answer may be lost to that of another node.
-/

namespace Interview

namespace Manuscript

open Guide (Visit lastVisit?)

variable {m : Manuscript} {r : Registry} {f : Flow}

/-- **Whose answer is found.** The nodes of a flow made from a manuscript have distinct names. A
step from one of them, wherever it is taken, puts the answer under the names of the nodes that have
the normal form of its own name or of its answer key, which is its own name if it has no choices. It
leaves what is under the name of every other node; all this but for the key of the current node, and
for a name that had a list. If a replay succeeds and no node that it visits has choices, its visits
are nodes of the flow, with the first answers given, and make up the path and the responses, as far
as the state has them. Under the name of every node visited is the answer of the last visit to a
node whose name has the same normal form; but under the key of the current node is the node that the
session is at. -/
theorem last_answer_found (hf : m.flow r = .ok f) :
    f.nodeNames.Nodup ∧
    (∀ n ∈ f.nodes, ∀ k ∈ f.nodes, ∀ host s input s', (n.answer host s input).result = .ok s' →
      Key.normal k.name ≠ Key.currentNode → (∀ items, s.get? k.name ≠ some (.list items)) →
      s'.get? k.name =
        if Key.normal n.name = Key.normal k.name ∨ Key.normal n.answerKey = Key.normal k.name then
          some (.text input)
        else s.get? k.name) ∧
    (∀ n ∈ f.nodes, n.choiceQuestion? = none → n.answerKey = n.name) ∧
    ∀ host inputs s, (Guide.replay ⟨f, host⟩ inputs).result = .ok s →
      let visits := Guide.visits ⟨f, host⟩ inputs
      (∀ v ∈ visits, v.node.choiceQuestion? = none) →
      (∀ v ∈ visits, f.node? v.node.name = some v.node) ∧
      visits.map (·.input) <+: inputs ∧
      (∀ path, s.path = .ok path → path = visits.map (·.node.name)) ∧
      (∀ responses, s.responses = .ok responses → responses = visits.map (·.input)) ∧
      ∀ v ∈ visits, ∃ u, lastVisit? visits v.node.name = some u ∧
        s.getText v.node.name =
          if Key.normal v.node.name = Key.currentNode then s.currentNode else .ok u.input := by
  refine ⟨nodup_of_flow hf, fun _ _ _ _ _ _ _ _ => Node.get?_of_answer,
    fun _ _ => Node.answerKey_eq_name, ?_⟩
  intro host inputs s hs visits hplain
  obtain ⟨here, hrecorded⟩ := Guide.exists_recorded_visits hs
  refine ⟨fun v => Guide.node?_of_mem_visits hs, Guide.visitsFrom_inputs_isPrefix _ _,
    hrecorded.path, hrecorded.responses, fun v hv => ?_⟩
  exact (Guide.kept_replay hs hplain).getText_eq hv

/-- A manuscript of four nodes. Two names differ in case only, and one is for the current node. -/
def chant : Manuscript where
  cover := ⟨"a", "[start: A]"⟩
  questions := [⟨"A", "[start: Current_Node]"⟩, ⟨"Current_Node", "[start: end]"⟩]
  outcomes := [⟨"end", "Bye."⟩]
  snippets := ∅

/-- Its flow, and what is computed of the session with three answers. -/
theorem exists_chant : ∃ f s, chant.flow .empty = .ok f ∧
    (∀ n ∈ f.nodes, n.choiceQuestion? = none) ∧
    (∃ a A here, Guide.visits ⟨f, .empty⟩ ["x", "y", "z"] = [⟨a, "x"⟩, ⟨A, "y"⟩, ⟨here, "z"⟩] ∧
      a.name = "a" ∧ A.name = "A" ∧ here.name = "Current_Node") ∧
    (Guide.replay ⟨f, .empty⟩ ["x", "y", "z"]).result = .ok s ∧
    s.getText "a" = .ok "y" ∧ s.getText "Current_Node" = .ok "end" := by
  obtain ⟨f, hf, htest⟩ := exists_flow_of_any
    (fun f => (∀ n ∈ f.nodes, n.choiceQuestion? = none) ∧
      (Guide.visits ⟨f, .empty⟩ ["x", "y", "z"]).map (fun v => (v.node.name, v.input)) =
        [("a", "x"), ("A", "y"), ("Current_Node", "z")] ∧
      (Guide.replay ⟨f, .empty⟩ ["x", "y", "z"]).result.toOption.any
        fun s => s.get? "a" = some (.text "y") ∧ s.get? "Current_Node" = some (.text "end"))
    (show (chant.flow .empty).toOption.any _ = true by decide +kernel)
  simp only [decide_eq_true_eq, List.map_eq_cons_iff, List.map_eq_nil_iff, Prod.mk.injEq] at htest
  obtain ⟨hplain, ⟨⟨a, _⟩, _, hvisits, ⟨ha, rfl⟩, ⟨A, _⟩, _, rfl, ⟨hA, rfl⟩, ⟨here, _⟩, _, rfl,
    ⟨hhere, rfl⟩, rfl⟩, hany⟩ := htest
  cases hs : (Guide.replay ⟨f, .empty⟩ ["x", "y", "z"]).result with
  | error e => simp [hs, Except.toOption] at hany
  | ok s =>
    simp only [hs, Except.toOption, Option.any_some, decide_eq_true_eq] at hany
    exact ⟨f, s, hf, hplain, ⟨a, A, here, hvisits, ha, hA, hhere⟩, hs,
      State.getText_eq_ok.mpr hany.1, State.getText_eq_ok.mpr hany.2⟩

/-- The first answer is under the name of the second node before that is visited. In the end the
answer to the second node is under the names of the first two, and the node that the session is at
is under the name of the third. -/
theorem last_answer_found_chant :
    ∃ f s, chant.flow .empty = .ok f ∧ f.nodeNames.Nodup ∧
      (∃ a ∈ f.nodes, ∃ A ∈ f.nodes, A.name = "A" ∧
        ∃ s', (a.answer .empty (.start "a") "x").result = .ok s' ∧
          Key.normal A.name ≠ Key.currentNode ∧
          (∀ items, (State.start "a").get? A.name ≠ some (.list items)) ∧
          s'.get? A.name = some (.text "x")) ∧
      (Guide.replay ⟨f, .empty⟩ ["x", "y", "z"]).result = .ok s ∧
      (∀ v ∈ Guide.visits ⟨f, .empty⟩ ["x", "y", "z"], v.node.choiceQuestion? = none) ∧
      s.getText "a" = .ok "y" ∧ s.getText "A" = .ok "y" ∧
      s.getText "Current_Node" = s.currentNode := by
  obtain ⟨f, s, hf, hplain, ⟨a, A, here, hvisits, ha, hA, hhere⟩, hs, -⟩ := exists_chant
  have hnode : ∀ v ∈ Guide.visits ⟨f, .empty⟩ ["x", "y", "z"], v.node ∈ f.nodes := fun v hv =>
    (Flow.name_of_node? (Guide.node?_of_mem_visits hs hv)).2
  have hchoice : ∀ v ∈ Guide.visits ⟨f, .empty⟩ ["x", "y", "z"], v.node.choiceQuestion? = none :=
    fun v hv => hplain v.node (hnode v hv)
  have hmem : a ∈ f.nodes := hnode ⟨a, "x"⟩ (by simp [hvisits])
  have hmem' : A ∈ f.nodes := hnode ⟨A, "y"⟩ (by simp [hvisits])
  obtain ⟨hnodup, hstep, -, hfound⟩ := last_answer_found hf
  obtain ⟨-, -, -, -, hanswer⟩ := hfound .empty _ s hs hchoice
  have hstart : Guide.start ⟨f, .empty⟩ = .start "a" := congrArg State.start (flow_eq_ok.mp hf).2.1
  have hfirst : ∃ s', (a.answer .empty (.start "a") "x").result = .ok s' := by
    obtain ⟨-, -, s', hs', -⟩ := Guide.exists_answer_of_visitsFrom hvisits
    exact ⟨s', by rwa [← hstart]⟩
  obtain ⟨s', hs'⟩ := hfirst
  have hcurrent : Key.normal A.name ≠ Key.currentNode := by
    rw [hA]
    decide
  have hnew : ∀ items, (State.start "a").get? A.name ≠ some (.list items) := by
    rw [hA]
    intro items h
    cases h
  have hshared : s'.get? A.name = some (.text "x") := by
    refine (hstep a hmem A hmem' .empty _ _ s' hs' hcurrent hnew).trans (if_pos (.inl ?_))
    rw [ha, hA]
    decide
  have hlast : ∀ n ∈ [a, A],
      lastVisit? [⟨a, "x"⟩, ⟨A, "y"⟩, ⟨here, "z"⟩] n.name = some ⟨A, "y"⟩ := by
    have hcase : Key.normal "a" = "a" ∧ Key.normal "A" = "a" ∧ Key.normal "Current_Node" ≠ "a" := by
      decide
    simp [Guide.lastVisit?, ha, hA, hhere, hcase]
  rw [hvisits] at hanswer
  obtain ⟨u, hu, hfirst⟩ := hanswer ⟨a, "x"⟩ (by simp)
  obtain ⟨u', hu', hsecond⟩ := hanswer ⟨A, "y"⟩ (by simp)
  obtain ⟨_, -, hthird⟩ := hanswer ⟨here, "z"⟩ (by simp)
  cases hu.symm.trans (hlast a (by simp))
  cases hu'.symm.trans (hlast A (by simp))
  rw [ha, if_neg (by decide)] at hfirst
  rw [hA, if_neg (by decide)] at hsecond
  rw [hhere, if_pos (by decide)] at hthird
  exact ⟨f, s, hf, hnodup,
    ⟨a, hmem, A, hmem', hA, s', hs', hcurrent, hnew, hshared⟩, hs, hchoice, hfirst, hsecond, hthird⟩

/-- **An answer may be lost.** Nodes with distinct names may have names with one normal form. Then
the last answer at a node need not be under its name; and it need not be if no other name has that
normal form either. -/
theorem answers_share_entries :
    (¬ ∀ m r f, Manuscript.flow m r = .ok f → ∀ n ∈ f.nodes, ∀ k ∈ f.nodes, n.name ≠ k.name →
      Key.normal n.name ≠ Key.normal k.name) ∧
    (¬ ∀ m r f host inputs s, Manuscript.flow m r = .ok f →
      (∀ n ∈ f.nodes, n.choiceQuestion? = none) →
      (Guide.replay ⟨f, host⟩ inputs).result = .ok s →
      ∀ before v after, Guide.visits ⟨f, host⟩ inputs = before ++ v :: after →
      (∀ u ∈ after, u.node.name ≠ v.node.name) → s.getText v.node.name = .ok v.input) ∧
    ¬ ∀ m r f host inputs s, Manuscript.flow m r = .ok f →
      (∀ n ∈ f.nodes, n.choiceQuestion? = none) →
      (Guide.replay ⟨f, host⟩ inputs).result = .ok s →
      ∀ before v after, Guide.visits ⟨f, host⟩ inputs = before ++ v :: after →
      (∀ u ∈ before ++ after, Key.normal u.node.name ≠ Key.normal v.node.name) →
      s.getText v.node.name = .ok v.input := by
  obtain ⟨f, s, hf, hplain, ⟨a, A, here, hvisits, ha, hA, hhere⟩, hs, hfirst, hthird⟩ :=
    exists_chant
  have hnode : ∀ v ∈ Guide.visits ⟨f, .empty⟩ ["x", "y", "z"], v.node ∈ f.nodes := fun v hv =>
    (Flow.name_of_node? (Guide.node?_of_mem_visits hs hv)).2
  refine ⟨fun h => ?_, fun h => ?_, fun h => ?_⟩
  · refine h chant .empty f hf a ?_ A ?_ ?_ ?_
    · exact hnode ⟨a, "x"⟩ (by simp [hvisits])
    · exact hnode ⟨A, "y"⟩ (by simp [hvisits])
    · simp [ha, hA]
    · rw [ha, hA]
      decide
  · have hkept := h chant .empty f .empty _ s hf hplain hs [] ⟨a, "x"⟩ _ hvisits
      (by simp [ha, hA, hhere])
    rw [ha, hfirst] at hkept
    exact absurd hkept (by simp)
  · have halone : ∀ u ∈ ([⟨a, "x"⟩, ⟨A, "y"⟩] : List Visit),
        Key.normal u.node.name ≠ Key.normal here.name := by
      rw [List.forall_mem_cons, List.forall_mem_singleton, ha, hA, hhere]
      decide
    have hkept := h chant .empty f .empty _ s hf hplain hs [⟨a, "x"⟩, ⟨A, "y"⟩] ⟨here, "z"⟩ []
      hvisits (by rwa [List.append_nil])
    rw [hhere, hthird] at hkept
    exact absurd hkept (by simp)

end Manuscript

end Interview
