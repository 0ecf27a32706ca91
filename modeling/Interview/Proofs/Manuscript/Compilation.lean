import Interview.Manuscript.Assembly
import Interview.Proofs.Except
import Mathlib.Data.List.Nodup

/-!
# What a manuscript makes

Every source of a manuscript makes its node by itself. The names of the nodes are those of the
sources, so they are distinct, and a name finds its node wherever the node stands in the flow.

* `Manuscript.flow_eq_ok`: when a manuscript makes a flow, and which one.
* `Manuscript.nodeNames_of_flow`: the nodes are named after the sources.
* `Flow.node?_eq_some`: what a name finds in a flow with distinct names.
-/

namespace Interview

namespace Flow

variable {f f' : Flow} {name : String} {n : Node}

theorem exists_node? (h : name ∈ f.nodeNames) : ∃ n, f.node? name = some n := by
  obtain ⟨n, hn, rfl⟩ := List.mem_map.mp h
  exact Option.isSome_iff_exists.mp (List.find?_isSome.mpr ⟨n, hn, by simp⟩)

/-- Where names are distinct, a name finds the node that has it, whatever stands before it. -/
theorem node?_eq_some (hf : f.nodeNames.Nodup) :
    f.node? name = some n ↔ n ∈ f.nodes ∧ n.name = name := by
  refine ⟨fun h => (name_of_node? h).symm, ?_⟩
  rintro ⟨hn, rfl⟩
  obtain ⟨k, hk⟩ := exists_node? (List.mem_map_of_mem (f := (·.name)) hn)
  obtain ⟨hname, hmem⟩ := name_of_node? hk
  rw [hk, List.inj_on_of_nodup_map hf hmem hn hname]

/-- The order of nodes with distinct names makes no difference to what a name finds. -/
theorem node?_perm (hf : f.nodeNames.Nodup) (h : f.nodes.Perm f'.nodes) : f.node? = f'.node? := by
  have hf' : f'.nodeNames.Nodup := (h.map _).nodup_iff.mp hf
  funext name
  refine Option.ext fun n => ?_
  rw [node?_eq_some hf, node?_eq_some hf', h.mem_iff]

end Flow

theorem Node.name_ofDocument {name : String} {r : Registry} {d : Document} {n : Node}
    (h : Node.ofDocument name r d = .ok n) : n.name = name := by
  obtain ⟨es, -, rfl⟩ := Except.bind_pure_eq_ok.mp h
  rfl

namespace Manuscript

variable {m : Manuscript} {snippets : Snippet.Table} {r : Registry} {f : Flow} {n : Node}

theorem name_of_node {source : Source} (h : node snippets r source = .ok n) :
    n.name = source.name := by
  obtain ⟨text, -, h⟩ := Except.bind_eq_ok.mp h
  split at h
  · cases h
  · split at h
    · cases h
    · rename_i hn
      cases h
      exact Node.name_ofDocument hn

/-- A manuscript makes a flow if the names of its sources are distinct and each makes a node. -/
theorem flow_eq_ok : m.flow r = .ok f ↔
    (m.sources.map (·.name)).Nodup ∧ f.name = m.cover.name ∧
      List.Forall₂ (fun source n => node m.snippets r source = .ok n) m.sources f.nodes := by
  unfold flow
  cases hd : firstRepeated [] (m.sources.map (·.name)) with
  | some name =>
    have hdup : ¬ (m.sources.map (·.name)).Nodup := fun h => by
      rw [firstRepeated_eq_none.mpr ⟨h, by simp⟩] at hd
      cases hd
    simp [hdup]
  | none =>
    rw [and_iff_right (firstRepeated_eq_none.mp hd).1, ← Except.mapM_eq_ok]
    simp only [Except.bind_pure_eq_ok]
    constructor
    · rintro ⟨ns, hns, rfl⟩
      exact ⟨rfl, hns⟩
    · rintro ⟨hname, hns⟩
      exact ⟨f.nodes, hns, by rw [← hname]⟩

theorem nodeNames_of_flow (h : m.flow r = .ok f) : f.nodeNames = m.sources.map (·.name) := by
  obtain ⟨-, -, hnodes⟩ := flow_eq_ok.mp h
  have hnames : List.Forall₂ (· = ·) (m.sources.map (·.name)) (f.nodes.map (·.name)) := by
    rw [List.forall₂_map_left_iff, List.forall₂_map_right_iff]
    exact hnodes.imp fun source n hn => (name_of_node hn).symm
  rw [List.forall₂_eq_eq_eq] at hnames
  exact hnames.symm

theorem cover_mem_nodeNames (h : m.flow r = .ok f) : m.cover.name ∈ f.nodeNames := by
  rw [nodeNames_of_flow h]
  exact List.mem_cons_self

theorem nodup_of_flow (h : m.flow r = .ok f) : f.nodeNames.Nodup := by
  rw [nodeNames_of_flow h]
  exact (flow_eq_ok.mp h).1

/-! ## An example -/

/-- A manuscript of three nodes. The cover asks a question that is named like the current node. -/
def visit : Manuscript where
  cover := ⟨"visit", "[choice: Current_Node]\n* a: A\n\n[start: form]"⟩
  questions := [⟨"form", "* form is a => home"⟩]
  outcomes := [⟨"home", "Bye."⟩]
  snippets := ∅

/-- What a computed test says of the flow that a manuscript makes. -/
theorem exists_flow_of_any (test : Flow → Bool) (h : (m.flow r).toOption.any test = true) :
    ∃ f, m.flow r = .ok f ∧ test f = true := by
  cases hf : m.flow r with
  | error e =>
    rw [hf] at h
    cases h
  | ok f =>
    rw [hf] at h
    exact ⟨f, rfl, h⟩

end Manuscript

end Interview
