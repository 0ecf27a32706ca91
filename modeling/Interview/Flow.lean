import Interview.Node

/-!
# Flows

A flow is the list of the nodes of an interview. It starts at the node that has its name, which
comes first in a flow made from a manuscript.

* `Flow.node?`: the node with a given name.
-/

namespace Interview

/-- The nodes of an interview. -/
structure Flow where
  /-- The name of the flow. -/
  name : String
  /-- The nodes, in order. -/
  nodes : List Node

namespace Flow

/-- The first node with a given name. -/
def node? (f : Flow) (name : String) : Option Node := f.nodes.find? (·.name == name)

/-- The first node. -/
def cover? (f : Flow) : Option Node := f.nodes.head?

/-- The names of the nodes, in order. -/
def nodeNames (f : Flow) : List String := f.nodes.map (·.name)

/-- How a flow is shown. -/
def render (f : Flow) : String :=
  let size := toString f.nodes.length
  s!"Flow({f.name}, {size} nodes)"

theorem name_of_node? {f : Flow} {name : String} {n : Node} (h : f.node? name = some n) :
    n.name = name ∧ n ∈ f.nodes :=
  ⟨by simpa using List.find?_some h, List.mem_of_find?_eq_some h⟩

theorem mem_nodeNames_of_node? {f : Flow} {name : String} {n : Node} (h : f.node? name = some n) :
    name ∈ f.nodeNames := by
  obtain ⟨rfl, hn⟩ := name_of_node? h
  exact List.mem_map_of_mem hn

end Flow

end Interview
