import Interview.Document.Reading
import Interview.Flow
import Interview.Manuscript.Snippet

/-!
# Assembling a flow

The names of the documents must be distinct. Then each document becomes a node, in order: its
snippets are put in, it is read, and it is typed. The first fault ends it all.

* `Manuscript.flow`: the flow that a manuscript makes.
* `Manuscript.firstRepeated_eq_none`: a list of names has no repeated name when they are distinct.
-/

namespace Interview

namespace Manuscript

/-- The first name that occurred before, among `seen` or in the list. -/
def firstRepeated (seen : List String) : List String → Option String
  | [] => none
  | name :: names => if seen.contains name then some name else firstRepeated (name :: seen) names

/-- The node that a source makes. -/
def node (snippets : Snippet.Table) (r : Registry) (source : Source) :
    Except ManuscriptFault Node := do
  let text ← Snippet.expand snippets source
  match Document.ofText? text with
  | .error cause => .error (.unreadable source.name cause)
  | .ok document =>
    match Node.ofDocument source.name r document with
    | .error defect => .error (.defective defect)
    | .ok n => .ok n

/-- The flow that a manuscript makes. -/
def flow (m : Manuscript) (r : Registry) : Except ManuscriptFault Flow :=
  match firstRepeated [] (m.sources.map (·.name)) with
  | some name => .error (.duplicateNode name)
  | none => do
    let nodes ← m.sources.mapM (node m.snippets r)
    return { name := m.cover.name, nodes }

theorem firstRepeated_eq_none {seen names : List String} :
    firstRepeated seen names = none ↔ names.Nodup ∧ ∀ n ∈ names, n ∉ seen := by
  induction names generalizing seen with
  | nil => simp [firstRepeated]
  | cons n ns ih =>
    rw [firstRepeated]
    by_cases h : n ∈ seen
    · simp [h]
    · simp only [List.contains_iff_mem, h, if_false, ih, List.nodup_cons, List.mem_cons]
      grind

end Manuscript

end Interview
