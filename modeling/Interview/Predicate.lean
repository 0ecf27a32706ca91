/-!
# Predicates

A predicate is a condition on the answers given so far. It is a condition of a document once its
operator is known.

* `Predicate.render`: how a predicate is shown.
* `Predicate.and`: conjunction, which adds to a conjunction on the left.
* `Comparison.ofSymbol?_symbol`, `Comparison.symbol_of_ofSymbol?`: a comparison and its symbol
  determine each other.
-/

namespace Interview

/-- A comparison of two values. -/
inductive Comparison where
  /-- Less than. -/
  | less
  /-- Less than or equal to. -/
  | atMost
  /-- Greater than. -/
  | greater
  /-- Greater than or equal to. -/
  | atLeast
  deriving DecidableEq

namespace Comparison

/-- How a comparison is written. -/
def symbol : Comparison → String
  | less => "<"
  | atMost => "<="
  | greater => ">"
  | atLeast => ">="

/-- The comparison that is written so. -/
def ofSymbol? : String → Option Comparison
  | "<" => some less
  | "<=" => some atMost
  | ">" => some greater
  | ">=" => some atLeast
  | _ => none

/-- Whether the comparison holds of two values with this order. -/
def admits : Comparison → Ordering → Bool
  | less, o => o == .lt
  | atMost, o => o != .gt
  | greater, o => o == .gt
  | atLeast, o => o != .lt

theorem ofSymbol?_symbol (c : Comparison) : ofSymbol? c.symbol = some c := by
  cases c <;> rfl

theorem symbol_of_ofSymbol? {s : String} {c : Comparison} (h : ofSymbol? s = some c) :
    c.symbol = s := by
  unfold ofSymbol? at h
  split at h <;> cases h <;> rfl

end Comparison

/-- A condition on the answers given so far. -/
inductive Predicate where
  /-- The value is the expected one. -/
  | equals (subject expected : String)
  /-- The value is one of several. -/
  | oneOf (subject : String) (values : List String)
  /-- The value stands in some relation to a bound. -/
  | compares (subject : String) (comparison : Comparison) (bound : String)
  /-- A predicate of the host, by name. -/
  | named (name : String)
  /-- Always true. -/
  | otherwise
  /-- All members hold. -/
  | all (members : List Predicate)
  /-- A function of the host, by name, applied to arguments. -/
  | call (function : String) (arguments : List String)

namespace Predicate

mutual

/-- How a predicate is shown. -/
def render : Predicate → String
  | equals subject expected => s!"{subject} is '{expected}'"
  | oneOf subject values => s!"{subject} in (" ++ ", ".intercalate values ++ ")"
  | compares subject comparison bound => s!"{subject} " ++ comparison.symbol ++ s!" '{bound}'"
  | named name => name
  | otherwise => "otherwise"
  | all members => " and ".intercalate (renderAll members)
  | call function arguments => s!"{function}(" ++ ", ".intercalate arguments ++ ")"

/-- How several predicates are shown. -/
def renderAll : List Predicate → List String
  | [] => []
  | p :: ps => render p :: renderAll ps

end

/-- Both predicates. A conjunction on the left takes the other as its last member. -/
def and : Predicate → Predicate → Predicate
  | all members, q => all (members ++ [q])
  | p, q => all [p, q]

theorem renderAll_eq_map (ps : List Predicate) : renderAll ps = ps.map render := by
  induction ps with
  | nil => rfl
  | cons p ps ih => rw [renderAll, ih, List.map_cons]

end Predicate

end Interview
