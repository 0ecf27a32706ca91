import Interview.Predicate

/-!
# Faults

What can go wrong while predicates are evaluated or an interview moves on, and how it is said.
-/

namespace Interview

/-- The two shapes of a value. -/
inductive Shape where
  /-- One text. -/
  | text
  /-- A list of texts. -/
  | list
  deriving DecidableEq

/-- The word for a shape. -/
def Shape.word : Shape → String
  | text => "text"
  | list => "list"

/-- Why a node leads nowhere. -/
inductive DeadEnd where
  /-- No rule of the node holds. -/
  | noRuleHolds
  /-- A group of rules holds, but none of the rules in it does. -/
  | noRuleHoldsUnder (predicate : Predicate)
  /-- The node has neither rules nor a start button. -/
  | noWayOn

/-- How a dead end is explained. -/
def DeadEnd.message : DeadEnd → String
  | noRuleHolds => "no next node rule matched"
  | noRuleHoldsUnder p => "no rule nested under '" ++ p.render ++ "' matched"
  | noWayOn => "node has no next node rules or start button"

/-- What can go wrong in an interview. -/
inductive Fault where
  /-- Nothing is known under the key. -/
  | undefinedValue (key : String)
  /-- The node leads nowhere. -/
  | indeterminate (node : String) (reason : DeadEnd)
  /-- The host knows no predicate or function of this name. -/
  | unknownPredicate (name : String)
  /-- A date is needed, and this value of the variable is none. -/
  | invalidDate (subject value : String)
  /-- The value under the key does not have the shape that is needed. -/
  | shapeMismatch (key : String) (expected : Shape)
  /-- A state must say which node the interview is at. -/
  | missingCurrentNode
  /-- The flow has no node of this name. -/
  | unknownNode (name : String)

/-- How a fault is said. -/
def Fault.message : Fault → String
  | undefinedValue key => s!"undefined value '{key}'"
  | indeterminate node reason => s!"indeterminate next node for '{node}': " ++ reason.message
  | unknownPredicate name => s!"unknown predicate '{name}'"
  | invalidDate subject value => s!"value '{value}' of '{subject}' is not a calendar date"
  | shapeMismatch key expected => s!"value '{key}' is not a " ++ expected.word
  | missingCurrentNode => "state requires a 'current_node' value"
  | unknownNode name => s!"node '{name}' is not part of the flow"

end Interview
