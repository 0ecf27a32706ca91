import Interview.State

/-!
# Registries

A registry holds what the host of an interview knows and the documents only name: predicates on
the state, functions of arguments and the state, and tables of countries. An `Inquiry` is the
outcome of an evaluation that may ask the host; it keeps the calls that were made, also if the
evaluation failed.

* `Inquiry.bind_ok`, `Inquiry.bind_error`: calls add up until there is a fault.
* `Inquiry.result_bind_eq_ok`, `Inquiry.result_bind_eq_error`: when a sequence of evaluations
  succeeds and when it fails.
-/

namespace Interview

/-- A question to the host. -/
inductive Call where
  /-- A predicate was asked. -/
  | predicate (name : String)
  /-- A function was applied. -/
  | function (name : String) (arguments : List String)
  deriving DecidableEq

/-- The outcome of an evaluation that may ask the host. -/
structure Inquiry (α : Type) where
  /-- The calls that were made, in order. -/
  calls : List Call
  /-- The value or the fault. -/
  result : Except Fault α

namespace Inquiry

variable {α β : Type}

/-- The calls of `i`, and then those of what `f` makes of its value, unless there is a fault. -/
protected def bind (i : Inquiry α) (f : α → Inquiry β) : Inquiry β :=
  match i.result with
  | .ok a => ⟨i.calls ++ (f a).calls, (f a).result⟩
  | .error e => ⟨i.calls, .error e⟩

instance : Monad Inquiry where
  pure a := ⟨[], .ok a⟩
  bind := Inquiry.bind

/-- An outcome that did not need the host. -/
def ofExcept (r : Except Fault α) : Inquiry α := ⟨[], r⟩

instance : MonadLift (Except Fault) Inquiry where
  monadLift := ofExcept

/-- A fault. -/
def raise (e : Fault) : Inquiry α := ⟨[], .error e⟩

/-- The host's answer to a call. -/
def told (call : Call) (a : α) : Inquiry α := ⟨[call], .ok a⟩

theorem bind_ok {i : Inquiry α} {f : α → Inquiry β} {a : α} (h : i.result = .ok a) :
    i >>= f = ⟨i.calls ++ (f a).calls, (f a).result⟩ := by
  show Inquiry.bind i f = _
  rw [Inquiry.bind, h]

theorem bind_error {i : Inquiry α} {f : α → Inquiry β} {e : Fault} (h : i.result = .error e) :
    i >>= f = ⟨i.calls, .error e⟩ := by
  show Inquiry.bind i f = _
  rw [Inquiry.bind, h]

theorem result_bind_eq_ok {i : Inquiry α} {f : α → Inquiry β} {b : β} :
    (i >>= f).result = .ok b ↔ ∃ a, i.result = .ok a ∧ (f a).result = .ok b := by
  cases h : i.result with
  | ok a => simp [bind_ok h]
  | error e => simp [bind_error h]

theorem result_bind_eq_error {i : Inquiry α} {f : α → Inquiry β} {e : Fault} :
    (i >>= f).result = .error e ↔
      i.result = .error e ∨ ∃ a, i.result = .ok a ∧ (f a).result = .error e := by
  cases h : i.result with
  | ok a => simp [bind_ok h]
  | error e' => simp [bind_error h]

protected theorem pure_bind (a : α) (f : α → Inquiry β) : pure a >>= f = f a := by
  rw [bind_ok (a := a) rfl]
  rfl

protected theorem bind_pure (i : Inquiry α) : i >>= pure = i := by
  obtain ⟨calls, result⟩ := i
  cases result with
  | ok a => simp [bind_ok (i := ⟨calls, .ok a⟩) rfl, pure]
  | error e => exact bind_error rfl

protected theorem bind_assoc {γ : Type} (i : Inquiry α) (f : α → Inquiry β) (g : β → Inquiry γ) :
    i >>= f >>= g = i >>= fun a => f a >>= g := by
  obtain ⟨calls, result⟩ := i
  cases result with
  | error e => rw [bind_error (e := e) rfl, bind_error (e := e) rfl, bind_error (e := e) rfl]
  | ok a =>
    rw [bind_ok (a := a) rfl, bind_ok (a := a) rfl]
    cases hf : (f a).result with
    | error e =>
      rw [bind_error (e := e) hf, bind_error (e := e)]
      rfl
    | ok b =>
      rw [bind_ok (a := b) hf, bind_ok (a := b)]
      · simp
      · rfl

instance : LawfulMonad Inquiry :=
  LawfulMonad.mk' Inquiry Inquiry.bind_pure Inquiry.pure_bind Inquiry.bind_assoc

@[simp] theorem pure_calls (a : α) : (pure a : Inquiry α).calls = [] := rfl

@[simp] theorem pure_result (a : α) : (pure a : Inquiry α).result = .ok a := rfl

@[simp] theorem ofExcept_result (r : Except Fault α) : (ofExcept r).result = r := rfl

@[simp] theorem raise_result (e : Fault) : (raise e : Inquiry α).result = .error e := rfl

@[simp] theorem ofExcept_ok (a : α) : ofExcept (.ok a) = pure a := rfl

@[simp] theorem ofExcept_error (e : Fault) : (ofExcept (.error e) : Inquiry α) = raise e := rfl

@[simp] theorem raise_bind (e : Fault) (f : α → Inquiry β) : raise e >>= f = raise e := rfl

@[simp] theorem liftM_eq_ofExcept (r : Except Fault α) : (liftM r : Inquiry α) = ofExcept r := rfl

end Inquiry

/-- A table of countries, each with a code and a label. -/
abbrev CountryTable := List (String × String)

/-- What the host knows. -/
structure Registry where
  /-- The predicates, by name. -/
  predicates : Std.ExtTreeMap String (State → Bool)
  /-- The functions, by name. -/
  functions : Std.ExtTreeMap String (List String → State → Bool)
  /-- The tables of countries, by name. -/
  countryTables : Std.ExtTreeMap String CountryTable

namespace Registry

/-- The registry of a host that knows nothing. -/
def empty : Registry := ⟨∅, ∅, ∅⟩

/-- Whether there is a predicate of this name. -/
def hasPredicate (r : Registry) (name : String) : Bool := r.predicates.contains name

/-- Asks a predicate about a state. -/
def ask (r : Registry) (name : String) (s : State) : Inquiry Bool :=
  match r.predicates[name]? with
  | some p => .told (.predicate name) (p s)
  | none => .raise (.unknownPredicate name)

/-- Applies a function to arguments and a state. -/
def apply (r : Registry) (name : String) (arguments : List String) (s : State) : Inquiry Bool :=
  match r.functions[name]? with
  | some f => .told (.function name arguments) (f arguments s)
  | none => .raise (.unknownPredicate name)

end Registry

end Interview
