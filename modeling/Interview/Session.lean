import Interview.Evaluation
import Interview.Flow

/-!
# Sessions

A session moves from node to node. An answer given at a node is put under the name of the node;
then the first rule that holds says where the session goes on. A group of rules that holds has the
last word: if none of its children holds, the search fails. A guide is a flow together with a
registry; it holds no state of its own.

* `Rule.search`: the target that a list of rules chooses.
* `Node.destination`, `Node.answer`: one step.
* `Guide.start`, `Guide.answer`, `Guide.replay`: a session in a flow.
* `Rule.search_append`: rules at the end matter only if no rule before them holds.
-/

namespace Interview

namespace Rule

mutual

/-- The target of a rule, if its predicate holds. The node is named in a fault. -/
def target? (r : Registry) (s : State) (node : String) : Rule → Inquiry (Option String)
  | goTo p target => do
    if ← p.evaluate r s then pure (some target) else pure none
  | group p children => do
    if ← p.evaluate r s then
      match ← search r s node children with
      | some target => pure (some target)
      | none => .raise (.indeterminate node (.noRuleHoldsUnder p))
    else pure none

/-- The target of the first rule that holds, if there is one. -/
def search (r : Registry) (s : State) (node : String) : List Rule → Inquiry (Option String)
  | [] => pure none
  | rule :: rules => do
    match ← target? r s node rule with
    | some target => pure (some target)
    | none => search r s node rules

end

/-- Rules at the end matter only if no rule before them holds. -/
theorem search_append (r : Registry) (s : State) (node : String) (xs ys : List Rule) :
    search r s node (xs ++ ys) =
      search r s node xs >>= fun
        | some target => pure (some target)
        | none => search r s node ys := by
  induction xs with
  | nil => simp [search]
  | cons x xs ih =>
    simp only [List.cons_append, search, ih, bind_assoc]
    congr 1
    funext t
    cases t <;> simp

end Rule

namespace Node

/-- Where a session goes on from a node, in a state that holds the answer already. -/
def wayOn (n : Node) (r : Registry) (s : State) : Inquiry String :=
  match n.rules? with
  | some rules => do
    match ← Rule.search r s n.name rules with
    | some target => pure target
    | none => .raise (.indeterminate n.name .noRuleHolds)
  | none =>
    match n.startButton? with
    | some target => pure target
    | none => .raise (.indeterminate n.name .noWayOn)

/-- The state in which the rules of a node are tried: the answer is under the node's name. -/
def withInput (n : Node) (s : State) (input : String) : State := s.put n.name (.text input)

/-- Where a session goes on after an answer at a node. -/
def destination (n : Node) (r : Registry) (s : State) (input : String) : Inquiry String :=
  n.wayOn r (n.withInput s input)

/-- The state after an answer at a node: the node joins the path, the answer joins the responses
and is kept under the answer key, and the session is at the destination. -/
def answer (n : Node) (r : Registry) (s : State) (input : String) : Inquiry State := do
  let target ← n.destination r s input
  let path ← s.path
  let responses ← s.responses
  return n.withInput s input
    |>.put Key.path (.list (path ++ [n.name]))
    |>.put Key.responses (.list (responses ++ [input]))
    |>.put n.answerKey (.text input)
    |>.put Key.currentNode (.text target)

end Node

/-- A flow and what the host knows. -/
structure Guide where
  /-- The flow. -/
  flow : Flow
  /-- What the host knows. -/
  registry : Registry

namespace Guide

/-- The state at the start of a session. -/
def start (g : Guide) : State := State.start g.flow.name

/-- The node that a session is at. -/
def nodeAt (g : Guide) (s : State) : Except Fault Node := do
  let name ← s.currentNode
  match g.flow.node? name with
  | some n => .ok n
  | none => .error (.unknownNode name)

/-- The state after an answer. -/
def answer (g : Guide) (s : State) (input : String) : Inquiry State := do
  let n ← g.nodeAt s
  n.answer g.registry s input

/-- The state after some answers. Answers after the end of the interview are left out. -/
def replayFrom (g : Guide) (s : State) : List String → Inquiry State
  | [] => pure s
  | input :: inputs => do
    let n ← g.nodeAt s
    if n.isTerminal then pure s
    else
      let next ← g.answer s input
      g.replayFrom next inputs

/-- The state after some answers from the start. -/
def replay (g : Guide) (inputs : List String) : Inquiry State := g.replayFrom g.start inputs

end Guide

end Interview
