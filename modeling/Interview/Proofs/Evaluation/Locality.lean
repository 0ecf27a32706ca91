import Interview.Evaluation

/-!
# What an evaluation depends on

A predicate mentions variables and may ask the host; nothing else of the state and of the registry
matters to it.

* `Predicate.subjects`, `Predicate.asksHost`: what a predicate depends on.
* `Predicate.evaluate_congr`: a predicate that does not ask the host is evaluated alike, whatever
  the host knows, in states that agree on its variables.
* `Predicate.faultsIn_evaluate`: an evaluation fails only by a value or by what the host does not
  know.
-/

namespace Interview

variable {r r' : Registry} {s s' : State}

namespace Predicate

mutual

/-- The variables that a predicate mentions, in order. -/
def subjects : Predicate → List String
  | equals subject _ => [subject]
  | oneOf subject _ => [subject]
  | compares subject _ _ => [subject]
  | named _ => []
  | otherwise => []
  | all members => allSubjects members
  | call _ _ => []

/-- The variables that some predicates mention, in order. -/
def allSubjects : List Predicate → List String
  | [] => []
  | p :: ps => subjects p ++ allSubjects ps

end

mutual

/-- Whether a predicate names a predicate or a function of the host. -/
def asksHost : Predicate → Bool
  | named _ => true
  | call _ _ => true
  | all members => anyAsksHost members
  | equals _ _ | oneOf _ _ | compares _ _ _ | otherwise => false

/-- Whether one of some predicates asks the host. -/
def anyAsksHost : List Predicate → Bool
  | [] => false
  | p :: ps => asksHost p || anyAsksHost ps

end

end Predicate

/-! ## States that agree -/

theorem State.get_congr {x : String} (h : s.get? x = s'.get? x) : s.get x = s'.get x := by
  unfold State.get; rw [h]

theorem testText_congr {x : String} (h : s.get? x = s'.get? x) (test : String → Bool) :
    testText s x test = testText s' x test := by
  unfold testText; rw [State.get_congr h]

theorem compareText_congr {x : String} (h : s.get? x = s'.get? x) (c : Comparison)
    (bound : String) : compareText s x c bound = compareText s' x c bound := by
  unfold compareText State.getText; rw [State.get_congr h]

namespace Predicate

mutual

/-- **Evaluation is local.** A predicate that does not ask the host depends only on the values of
the variables that it mentions. -/
theorem evaluate_congr (p : Predicate) (hs : ∀ x ∈ p.subjects, s.get? x = s'.get? x)
    (hp : p.asksHost = false) : p.evaluate r s = p.evaluate r' s' := by
  match p with
  | equals x expected =>
    simp only [evaluate, testText_congr (hs x (by simp [subjects]))]
  | oneOf x values =>
    simp only [evaluate, testText_congr (hs x (by simp [subjects]))]
  | compares x c bound =>
    simp only [evaluate, compareText_congr (hs x (by simp [subjects]))]
  | named name => simp [asksHost] at hp
  | otherwise => rfl
  | all members =>
    rw [evaluate, evaluate]
    exact evaluateAll_congr members hs hp
  | call name arguments => simp [asksHost] at hp

theorem evaluateAll_congr (ps : List Predicate)
    (hs : ∀ x ∈ allSubjects ps, s.get? x = s'.get? x) (hp : anyAsksHost ps = false) :
    evaluateAll r s ps = evaluateAll r' s' ps := by
  match ps with
  | [] => rfl
  | p :: ps =>
    simp only [anyAsksHost, Bool.or_eq_false_iff] at hp
    have hhead := evaluate_congr p (fun x hx => hs x (List.mem_append_left _ hx)) hp.1
    have htail := evaluateAll_congr ps (fun x hx => hs x (List.mem_append_right _ hx)) hp.2
    rw [evaluateAll, evaluateAll, hhead, htail]

end

end Predicate

/-! ## Faults of an evaluation -/

/-- A fault of the values of a state or of what the host knows. All others are faults of a flow. -/
inductive Fault.OfValues : Fault → Prop
  | undefinedValue (key : String) : OfValues (.undefinedValue key)
  | unknownPredicate (name : String) : OfValues (.unknownPredicate name)
  | invalidDate (subject value : String) : OfValues (.invalidDate subject value)
  | shapeMismatch (key : String) (expected : Shape) : OfValues (.shapeMismatch key expected)

/-- If the result is a fault, it is one of these. -/
def FaultsIn {α : Type} (P : Fault → Prop) (x : Except Fault α) : Prop := ∀ e, x = .error e → P e

/-- A result that is no dead end. -/
def NoDeadEnd {α : Type} (x : Except Fault α) : Prop :=
  ∀ node reason, x ≠ .error (.indeterminate node reason)

section

variable {α β : Type} {P : Fault → Prop} {x : Except Fault α}

theorem faultsIn_ok (a : α) : FaultsIn P (.ok a) := by
  intro e h
  cases h

theorem faultsIn_error {e : Fault} (he : P e) : FaultsIn (α := α) P (.error e) := by
  intro e' h
  cases h
  exact he

theorem FaultsIn.bind {f : α → Except Fault β} (hx : FaultsIn P x) (hf : ∀ a, FaultsIn P (f a)) :
    FaultsIn P (x >>= f) := by
  cases x with
  | error e => exact faultsIn_error (hx e rfl)
  | ok a => exact hf a

theorem FaultsIn.inquiry_bind {i : Inquiry α} {f : α → Inquiry β} (hi : FaultsIn P i.result)
    (hf : ∀ a, FaultsIn P (f a).result) : FaultsIn P (i >>= f).result := by
  intro e h
  rcases Inquiry.result_bind_eq_error.mp h with h | ⟨a, -, h⟩
  · exact hi e h
  · exact hf a e h

theorem FaultsIn.mono {Q : Fault → Prop} (h : FaultsIn P x) (hPQ : ∀ {e}, P e → Q e) :
    FaultsIn Q x :=
  fun e he => hPQ (h e he)

theorem FaultsIn.noDeadEnd (h : FaultsIn Fault.OfValues x) : NoDeadEnd x := by
  intro node reason hx
  cases h _ hx

end

theorem State.faultsIn_get (x : String) : FaultsIn Fault.OfValues (s.get x) := by
  unfold State.get
  cases s.get? x with
  | none => exact faultsIn_error (.undefinedValue _)
  | some v => exact faultsIn_ok v

theorem State.faultsIn_getText (x : String) : FaultsIn Fault.OfValues (s.getText x) := by
  refine (State.faultsIn_get x).bind fun v => ?_
  cases v with
  | text t => exact faultsIn_ok t
  | list items => exact faultsIn_error (.shapeMismatch _ _)

theorem State.faultsIn_getList (x : String) : FaultsIn Fault.OfValues (s.getList x) := by
  refine (State.faultsIn_get x).bind fun v => ?_
  cases v with
  | text t => exact faultsIn_error (.shapeMismatch _ _)
  | list items => exact faultsIn_ok items

theorem faultsIn_testText (x : String) (test : String → Bool) :
    FaultsIn Fault.OfValues (testText s x test) :=
  (State.faultsIn_get x).bind fun _ => faultsIn_ok _

theorem faultsIn_orderTexts (x stored bound : String) :
    FaultsIn Fault.OfValues (orderTexts x stored bound) := by
  unfold orderTexts
  repeat' split
  all_goals first | exact faultsIn_ok _ | exact faultsIn_error (.invalidDate _ _)

theorem faultsIn_compareText (x : String) (c : Comparison) (bound : String) :
    FaultsIn Fault.OfValues (compareText s x c bound) := by
  refine (State.faultsIn_getText x).bind fun stored => ?_
  exact (faultsIn_orderTexts x stored bound).bind fun _ => faultsIn_ok _

namespace Predicate

mutual

/-- An evaluation fails only by a value or by what the host does not know. -/
theorem faultsIn_evaluate (p : Predicate) : FaultsIn Fault.OfValues (p.evaluate r s).result := by
  match p with
  | equals x expected => exact faultsIn_testText x _
  | oneOf x values => exact faultsIn_testText x _
  | compares x c bound => exact faultsIn_compareText x c bound
  | named name =>
    rw [evaluate, Registry.ask]
    split
    · exact faultsIn_ok _
    · exact faultsIn_error (.unknownPredicate _)
  | otherwise => exact faultsIn_ok true
  | all members => exact faultsIn_evaluateAll members
  | call name arguments =>
    rw [evaluate, Registry.apply]
    split
    · exact faultsIn_ok _
    · exact faultsIn_error (.unknownPredicate _)

theorem faultsIn_evaluateAll (ps : List Predicate) :
    FaultsIn Fault.OfValues (evaluateAll r s ps).result := by
  match ps with
  | [] => exact faultsIn_ok true
  | p :: ps =>
    rw [evaluateAll]
    refine (faultsIn_evaluate p).inquiry_bind fun holds => ?_
    cases holds with
    | true => exact faultsIn_evaluateAll ps
    | false => exact faultsIn_ok false

end

end Predicate

end Interview
