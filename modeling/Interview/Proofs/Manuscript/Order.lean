import Interview.Proofs.Manuscript.Compilation
import Interview.Session
import Mathlib.Data.List.Perm.Basic

/-!
# The order of the sources

The order in which the questions and outcomes of a manuscript are given makes no difference to
its sessions: it changes the order of the nodes of the flow, and a session looks nodes up by name.

* `Guide.replay_congr`: a session depends only on the node that each name finds.
* `Manuscript.flow_of_perm`: sources in another order make the same nodes in another order.
* `Manuscript.sessions_of_perm`: and the same sessions.
-/

namespace Interview

namespace Guide

variable {f f' : Flow} {host : Registry}

theorem nodeAt_congr (h : f.node? = f'.node?) (s : State) :
    nodeAt ⟨f, host⟩ s = nodeAt ⟨f', host⟩ s := by
  unfold nodeAt
  rw [h]

theorem answer_congr (h : f.node? = f'.node?) (s : State) (input : String) :
    answer ⟨f, host⟩ s input = answer ⟨f', host⟩ s input := by
  unfold answer
  rw [nodeAt_congr h]

theorem replayFrom_congr (h : f.node? = f'.node?) (s : State) (inputs : List String) :
    replayFrom ⟨f, host⟩ s inputs = replayFrom ⟨f', host⟩ s inputs := by
  induction inputs generalizing s with
  | nil => rfl
  | cons input inputs ih => simp only [replayFrom, nodeAt_congr h, answer_congr h, ih]

/-- A session depends only on where it starts and on the node that each name finds. -/
theorem replay_congr (hname : f.name = f'.name) (h : f.node? = f'.node?) (inputs : List String) :
    replay ⟨f, host⟩ inputs = replay ⟨f', host⟩ inputs := by
  unfold replay start
  rw [hname, replayFrom_congr h]

end Guide

namespace Manuscript

variable {m m' : Manuscript} {r : Registry} {f f' : Flow}

/-- Two manuscripts that differ only in the order of their questions and outcomes. -/
structure Reordered (m m' : Manuscript) : Prop where
  cover : m.cover = m'.cover
  snippets : m.snippets = m'.snippets
  rest : (m.questions ++ m.outcomes).Perm (m'.questions ++ m'.outcomes)

theorem Reordered.symm (h : Reordered m m') : Reordered m' m :=
  ⟨h.cover.symm, h.snippets.symm, h.rest.symm⟩

theorem Reordered.sources (h : Reordered m m') : m.sources.Perm m'.sources := by
  unfold Manuscript.sources
  rw [h.cover]
  exact h.rest.cons _

/-- Sources in another order make the same nodes in another order. -/
theorem flow_of_perm (h : Reordered m m') (hf : m.flow r = .ok f) :
    ∃ f', m'.flow r = .ok f' ∧ f.name = f'.name ∧ f.nodes.Perm f'.nodes := by
  obtain ⟨hnodup, hname, hnodes⟩ := flow_eq_ok.mp hf
  obtain ⟨ns, hns, hperm⟩ := List.perm_comp_forall₂ h.sources.symm hnodes
  refine ⟨⟨f.name, ns⟩, flow_eq_ok.mpr ⟨?_, ?_, ?_⟩, rfl, hperm.symm⟩
  · exact (h.sources.map _).nodup_iff.mp hnodup
  · rw [hname, h.cover]
  · rwa [← h.snippets]

/-- **The order of the sources.** If the questions and outcomes of a manuscript are put in another
order, and moved between the two lists, it makes a flow as before; and whatever the host knows,
every answer in every state and every replay have the same outcome in the two flows. -/
theorem sessions_of_perm (h : Reordered m m') (r : Registry) :
    ((∃ f, m.flow r = .ok f) ↔ ∃ f', m'.flow r = .ok f') ∧
      ∀ f f', m.flow r = .ok f → m'.flow r = .ok f' → ∀ host : Registry,
        (∀ s input, Guide.answer ⟨f, host⟩ s input = Guide.answer ⟨f', host⟩ s input) ∧
        ∀ inputs, Guide.replay ⟨f, host⟩ inputs = Guide.replay ⟨f', host⟩ inputs := by
  refine ⟨⟨?_, ?_⟩, ?_⟩
  · intro ⟨f, hf⟩
    obtain ⟨f', hf', -⟩ := flow_of_perm h hf
    exact ⟨f', hf'⟩
  · intro ⟨f', hf'⟩
    obtain ⟨f, hf, -⟩ := flow_of_perm h.symm hf'
    exact ⟨f, hf⟩
  · intro f f' hf hf' host
    obtain ⟨k, hk, hname, hperm⟩ := flow_of_perm h hf
    rw [hf'] at hk
    cases hk
    have hnode := Flow.node?_perm (nodup_of_flow hf) hperm
    exact ⟨Guide.answer_congr hnode, Guide.replay_congr hname hnode⟩

/-- The three nodes in another order, the last one among the questions. -/
def visitReordered : Manuscript :=
  { visit with questions := visit.outcomes ++ visit.questions, outcomes := [] }

theorem sessions_of_perm_visit :
    Reordered visit visitReordered ∧ ∃ f f', visit.flow .empty = .ok f ∧
      visitReordered.flow .empty = .ok f' ∧ f.nodeNames = ["visit", "form", "home"] ∧
      f'.nodeNames = ["visit", "home", "form"] ∧
      Guide.replay ⟨f, .empty⟩ ["a", "a"] = Guide.replay ⟨f', .empty⟩ ["a", "a"] := by
  have hreordered : Reordered visit visitReordered := ⟨rfl, rfl, List.Perm.swap _ _ _⟩
  obtain ⟨f, hf, -⟩ : ∃ f, visit.flow .empty = .ok f ∧ true = true :=
    exists_flow_of_any (fun _ => true) (by decide +kernel)
  obtain ⟨hiff, hsame⟩ := sessions_of_perm hreordered .empty
  obtain ⟨f', hf'⟩ := hiff.mp ⟨f, hf⟩
  exact ⟨hreordered, f, f', hf, hf', nodeNames_of_flow hf, nodeNames_of_flow hf',
    (hsame f f' hf hf' .empty).2 ["a", "a"]⟩

end Manuscript

end Interview
