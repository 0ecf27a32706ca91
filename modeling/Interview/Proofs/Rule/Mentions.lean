import Interview.Proofs.Rule.Search
import Interview.Proofs.State.Writes
import Mathlib.Data.List.Forall2

/-!
# The variables that rules mention

A predicate reads the variables that it mentions, in whatever spelling it names them, and nothing
else of the state. A step from a node reads the variables that its rules mention. The answer is put
under the name of the node before, so what was there, in whatever spelling, is not read.

* `Predicate.Respells`, `Fault.Respells`: predicates and faults with variables spelled otherwise.
* `Inquiry.Respells`: the same calls, and the same value or the same kind of fault.
* `Predicate.respells_evaluate`: a predicate is evaluated alike in every spelling of its variables.
* `Node.destination_congr`: the variables that a step depends on.
* `Node.destination_of_mentions`: evaluations and steps depend on the mentioned variables only.
-/

namespace Interview

variable {r r' : Registry} {s s' : State}

namespace Predicate

/-- One predicate is the other with variables in spellings that have the same normal form. -/
inductive Respells : Predicate → Predicate → Prop
  | equals {x y : String} (expected : String) : Key.normal x = Key.normal y →
      Respells (equals x expected) (equals y expected)
  | oneOf {x y : String} (values : List String) : Key.normal x = Key.normal y →
      Respells (oneOf x values) (oneOf y values)
  | compares {x y : String} (c : Comparison) (bound : String) : Key.normal x = Key.normal y →
      Respells (compares x c bound) (compares y c bound)
  | named (name : String) : Respells (named name) (named name)
  | otherwise : Respells otherwise otherwise
  | all {ps qs : List Predicate} : List.Forall₂ Respells ps qs → Respells (all ps) (all qs)
  | call (function : String) (arguments : List String) :
      Respells (call function arguments) (call function arguments)

end Predicate

/-- The same fault, but perhaps with another spelling of the variable whose value is no date. All
other faults name a variable by its normal form. -/
inductive Fault.Respells : Fault → Fault → Prop
  | refl (e : Fault) : Respells e e
  | invalidDate {x y : String} (value : String) : Key.normal x = Key.normal y →
      Respells (.invalidDate x value) (.invalidDate y value)

/-! ## Outcomes -/

section

variable {α β : Type}

/-- The same value, or the same fault but for the spelling of a variable. -/
inductive Respelled : Except Fault α → Except Fault α → Prop
  | ok (a : α) : Respelled (.ok a) (.ok a)
  | error {e e' : Fault} : e.Respells e' → Respelled (.error e) (.error e')

theorem Respelled.refl (x : Except Fault α) : Respelled x x := by
  cases x with
  | ok a => exact .ok a
  | error e => exact .error (.refl e)

theorem Respelled.bind {x y : Except Fault α} (h : Respelled x y) (f : α → Except Fault β) :
    Respelled (x >>= f) (y >>= f) := by
  cases h with
  | ok a => exact .refl (f a)
  | error he => exact .error he

/-- The same calls, and the same value or the same fault but for the spelling of a variable. -/
structure Inquiry.Respells (i j : Inquiry α) : Prop where
  calls : i.calls = j.calls
  result : Respelled i.result j.result

theorem Inquiry.Respells.refl (i : Inquiry α) : i.Respells i := ⟨rfl, .refl _⟩

theorem Inquiry.respells_ofExcept {x y : Except Fault α} (h : Respelled x y) :
    (Inquiry.ofExcept x).Respells (Inquiry.ofExcept y) := ⟨rfl, h⟩

theorem Inquiry.Respells.bind {i j : Inquiry α} {f g : α → Inquiry β} (h : i.Respells j)
    (hf : ∀ a, (f a).Respells (g a)) : (i >>= f).Respells (j >>= g) := by
  obtain ⟨calls, result⟩ := i
  obtain ⟨calls', result'⟩ := j
  obtain ⟨hcalls, hresult⟩ := h
  cases hcalls
  cases hresult with
  | ok a =>
    rw [Inquiry.bind_ok (a := a) rfl, Inquiry.bind_ok (a := a) rfl]
    exact ⟨congrArg (calls ++ ·) (hf a).calls, (hf a).result⟩
  | error he =>
    rw [Inquiry.bind_error rfl, Inquiry.bind_error rfl]
    exact ⟨rfl, .error he⟩

end

/-! ## Evaluation in another spelling -/

section

variable {x y : String}

theorem testText_respelled (h : Key.normal x = Key.normal y) (test : String → Bool) :
    testText s x test = testText s y test := by
  unfold testText
  rw [State.get_congr_key h]

theorem respelled_orderTexts (h : Key.normal x = Key.normal y) (stored bound : String) :
    Respelled (orderTexts x stored bound) (orderTexts y stored bound) := by
  unfold orderTexts
  repeat' split
  all_goals first | exact .ok _ | exact .error (.invalidDate _ h)

theorem respelled_compareText (h : Key.normal x = Key.normal y) (c : Comparison)
    (bound : String) : Respelled (compareText s x c bound) (compareText s y c bound) := by
  unfold compareText
  rw [State.getText_congr h]
  cases s.getText y with
  | error e => exact .refl _
  | ok stored => exact (respelled_orderTexts h stored bound).bind _

end

namespace Predicate

mutual

/-- A predicate is evaluated alike in every spelling of its variables. -/
theorem respells_evaluate (p : Predicate) {q : Predicate} (h : p.Respells q) :
    (p.evaluate r s).Respells (q.evaluate r s) := by
  match p with
  | equals x expected =>
    cases h with
    | equals _ hxy =>
      rw [evaluate, evaluate, testText_respelled hxy]
      exact .refl _
  | oneOf x values =>
    cases h with
    | oneOf _ hxy =>
      rw [evaluate, evaluate, testText_respelled hxy]
      exact .refl _
  | compares x c bound =>
    cases h with
    | compares _ _ hxy =>
      rw [evaluate, evaluate]
      exact Inquiry.respells_ofExcept (respelled_compareText hxy c bound)
  | all members =>
    cases h with
    | all hmembers =>
      rw [evaluate, evaluate]
      exact respells_evaluateAll members hmembers
  | named name => cases h; exact .refl _
  | otherwise => cases h; exact .refl _
  | call function arguments => cases h; exact .refl _

theorem respells_evaluateAll (ps : List Predicate) {qs : List Predicate}
    (h : List.Forall₂ Respells ps qs) :
    (evaluateAll r s ps).Respells (evaluateAll r s qs) := by
  match ps with
  | [] => cases h; exact .refl _
  | p :: ps =>
    cases h with
    | cons hp hps =>
      rw [evaluateAll, evaluateAll]
      refine (respells_evaluate p hp).bind fun holds => ?_
      cases holds with
      | true => exact respells_evaluateAll ps hps
      | false => exact .refl _

end

end Predicate

/-! ## Steps -/

/-- States that agree on a variable, or differ there only by what was under a key, agree on it after
the same value is put under the key. -/
theorem State.get?_put_congr {x key : String} (v : Value)
    (h : Key.normal x ≠ Key.normal key → s.get? x = s'.get? x) :
    (s.put key v).get? x = (s'.put key v).get? x := by
  by_cases hx : Key.normal x = Key.normal key
  · rw [State.get?_put_same hx.symm, State.get?_put_same hx.symm]
  · rw [State.get?_put_other (Ne.symm hx), State.get?_put_other (Ne.symm hx), h hx]

namespace Node

variable {n : Node} {input : String}

/-- A step from a node whose rules do not ask the host depends only on the variables that the rules
mention, and not on what is under the name of the node. -/
theorem destination_congr
    (hask : ∀ p ∈ Rule.allPredicates (n.rules?.getD []), p.asksHost = false)
    (hs : ∀ p ∈ Rule.allPredicates (n.rules?.getD []), ∀ x ∈ p.subjects,
      Key.normal x ≠ Key.normal n.name → s.get x = s'.get x) :
    n.destination r s input = n.destination r' s' input := by
  unfold destination
  cases hrules : n.rules? with
  | none =>
    unfold wayOn
    rw [hrules]
  | some rules =>
    rw [hrules, Option.getD_some] at hask hs
    refine wayOn_congr hrules (Rule.search_congr rules fun p hp => ?_)
    refine Predicate.evaluate_congr p (fun x hx => State.get?_put_congr _ fun hne => ?_) (hask p hp)
    exact State.get_eq_iff.mp (hs p hp x hx hne)

/-- **Only the variables mentioned matter.** A predicate that does not ask the host has the same
value or the same fault in two states that agree on the variables that it mentions, whatever the host
knows. In every spelling of its variables a predicate has the same value or the same kind of fault. A
step from a node whose rules do not ask the host leads to the same target, or fails alike, from two
states that agree on the variables that the rules mention, except for the name of the node. -/
theorem destination_of_mentions (r r' : Registry) (s s' : State) :
    (∀ p : Predicate, p.asksHost = false → (∀ x ∈ p.subjects, s.get x = s'.get x) →
        p.evaluate r s = p.evaluate r' s') ∧
      (∀ p q : Predicate, p.Respells q → (p.evaluate r s).Respells (q.evaluate r s)) ∧
      ∀ (n : Node) (input : String),
        (∀ p ∈ Rule.allPredicates (n.rules?.getD []), p.asksHost = false) →
        (∀ p ∈ Rule.allPredicates (n.rules?.getD []), ∀ x ∈ p.subjects,
          Key.normal x ≠ Key.normal n.name → s.get x = s'.get x) →
        n.destination r s input = n.destination r' s' input :=
  ⟨fun p hp hs => Predicate.evaluate_congr p (fun x hx => State.get_eq_iff.mp (hs x hx)) hp,
    fun p _ h => Predicate.respells_evaluate p h,
    fun _ _ hask hs => destination_congr hask hs⟩

/-- A node whose rules name it in another spelling. -/
def askingPlans : Node :=
  ⟨"stay", [.rules [.goTo (.equals " :Stay" "long") "visa",
    .goTo (.compares "arrival" .less "2020-10-01") "pass"]], ⟨[]⟩⟩

/-- A state with an earlier answer at that node. -/
def revisiting : State :=
  ((State.start "stay").put "stay" (.text "long")).put "Arrival" (.text "2020-9-1")

/-- A state without one, which holds a colour instead. -/
def visiting : State :=
  ((State.start "door").put "colour" (.text "red")).put "arrival" (.text "2020-9-1")

/-- The answer at the node decides, not an earlier one. A day that no month has is a fault in every
spelling of the variable. -/
theorem destination_of_mentions_visiting :
    (askingPlans.destination .empty revisiting "short").result = .ok "pass" ∧
      askingPlans.destination .empty visiting "short" =
        askingPlans.destination .empty revisiting "short" ∧
      (Predicate.compares "arrival" .less "2020-10-01").evaluate .empty visiting =
        (Predicate.compares "arrival" .less "2020-10-01").evaluate .empty revisiting ∧
      ((Predicate.compares ":ARRIVAL" .less "2020-02-30").evaluate .empty visiting).Respells
        ((Predicate.compares "arrival" .less "2020-02-30").evaluate .empty visiting) ∧
      ((Predicate.compares ":ARRIVAL" .less "2020-02-30").evaluate .empty visiting).result =
        .error (.invalidDate ":ARRIVAL" "2020-02-30") := by
  obtain ⟨hevaluate, hrespell, hstep⟩ := destination_of_mentions .empty .empty visiting revisiting
  have harrival : visiting.get "arrival" = revisiting.get "arrival" :=
    State.get_eq_iff.mpr
      ((State.get?_put_same rfl).trans (State.get?_put_same (by decide)).symm)
  have hread : ∀ p ∈ Rule.allPredicates (askingPlans.rules?.getD []), ∀ x ∈ p.subjects,
      Key.normal x ≠ Key.normal askingPlans.name → visiting.get x = revisiting.get x := by
    intro p hp x hx hne
    simp only [askingPlans, rules?, List.findSome?_cons, Option.getD_some, Rule.allPredicates,
      Rule.predicates, List.cons_append, List.nil_append, List.mem_cons, List.not_mem_nil,
      or_false] at hp
    rcases hp with rfl | rfl
    · obtain rfl := List.mem_singleton.mp hx
      exact absurd (by decide) hne
    · obtain rfl := List.mem_singleton.mp hx
      exact harrival
  refine ⟨rfl, hstep askingPlans "short" (by decide) hread, hevaluate _ rfl fun x hx => ?_,
    hrespell _ _ (.compares .less "2020-02-30" (by decide)), rfl⟩
  obtain rfl := List.mem_singleton.mp hx
  exact harrival

end Node

end Interview
