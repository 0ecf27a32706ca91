import Interview.Date
import Interview.Number
import Interview.Registry

/-!
# Evaluation of predicates

A predicate is evaluated on a state and may ask the host. A comparison with a bound that is
written as a date goes by the calendar; else by number, if both sides are numbers; else by the
characters. The members of a conjunction are evaluated from left to right up to the first one that
does not hold.

* `orderTexts`: how a stored text compares with a bound.
* `Predicate.evaluate`: whether a predicate holds.
* `Predicate.evaluate_equals`: when an equality holds.
* `Predicate.evaluateAll_append`: a conjunction may be split anywhere.
-/

namespace Interview

/-- How the text stored for a variable compares with a bound. -/
def orderTexts (subject stored bound : String) : Except Fault Ordering :=
  match Date.ofText? bound.toList with
  | some limit =>
    if limit.isReal then
      match Date.realOfText? stored.toList with
      | some date => .ok (date.order limit)
      | none => .error (.invalidDate subject stored)
    else .error (.invalidDate subject bound)
  | none =>
    match Number.ofText? stored.toList, Number.ofText? bound.toList with
    | some a, some b => .ok (compare a b)
    | _, _ => .ok (compare stored bound)

/-- Whether the value of a variable is a text that passes a test. A list passes none. -/
def testText (s : State) (subject : String) (test : String → Bool) : Except Fault Bool := do
  let v ← s.get subject
  return v.text?.any test

/-- Whether the text stored for a variable compares with a bound as asked. -/
def compareText (s : State) (subject : String) (c : Comparison) (bound : String) :
    Except Fault Bool := do
  let stored ← s.getText subject
  let order ← orderTexts subject stored bound
  return c.admits order

namespace Predicate

mutual

/-- Whether a predicate holds. -/
def evaluate (r : Registry) (s : State) : Predicate → Inquiry Bool
  | equals subject expected => .ofExcept (testText s subject (· == expected))
  | oneOf subject values => .ofExcept (testText s subject (values.contains ·))
  | compares subject comparison bound => .ofExcept (compareText s subject comparison bound)
  | named name => r.ask name s
  | otherwise => pure true
  | all members => evaluateAll r s members
  | call function arguments => r.apply function arguments s

/-- Whether all of some predicates hold. None is evaluated after one that does not hold. -/
def evaluateAll (r : Registry) (s : State) : List Predicate → Inquiry Bool
  | [] => pure true
  | p :: ps => do
    if ← evaluate r s p then evaluateAll r s ps else pure false

end

/-- An equality is decided by the value of its variable. -/
theorem evaluate_equals (r : Registry) (s : State) (subject expected : String) :
    ((equals subject expected).evaluate r s).result =
      (s.get subject).map fun v => decide (v = .text expected) := by
  rw [evaluate, Inquiry.ofExcept_result, testText]
  cases s.get subject with
  | error e => rfl
  | ok v =>
    cases v with
    | list items => rfl
    | text t =>
      by_cases h : t = expected <;>
        simp [h, Value.text?, bind, Except.bind, pure, Except.pure, Except.map]

/-- A conjunction may be split anywhere. -/
theorem evaluateAll_append (r : Registry) (s : State) (ps qs : List Predicate) :
    evaluateAll r s (ps ++ qs) =
      evaluateAll r s ps >>= fun b => if b then evaluateAll r s qs else pure false := by
  induction ps with
  | nil => simp [evaluateAll]
  | cons p ps ih =>
    simp only [List.cons_append, evaluateAll, ih, bind_assoc]
    congr 1
    funext b
    cases b <;> simp

end Predicate

end Interview
