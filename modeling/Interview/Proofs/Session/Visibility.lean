import Interview.Proofs.Rule.Search

/-!
# What the rules of a node see of the answer

The rules of a node are tried in a state that holds the answer under the node's name. A question
with another name than its node gets its answer only after that, so that rules which mention the
question see what was there before.

* `Rule.search_put_eq_iff`: some rules tell whether a text is put under a key, unless it is there
  already.
* `Rule.search_put_of_unread`: a value put under a key makes no difference to rules that do not
  read the key.
* `Node.destination_with_question`: what the rules of a node see, and when that is the same as if
  they saw the answer under the name of the question too.
* `Node.destination_misses_question`: a rule may meet the question of its own node undefined.
-/

namespace Interview

variable {r : Registry} {s : State}

/-! ## Values that a search reads -/

namespace Predicate

/-- A value put under a key that a predicate does not read makes no difference to it. -/
theorem evaluate_put_of_unread {p : Predicate} {key : String} (v : Value)
    (hask : p.asksHost = false) (hread : ∀ x ∈ p.subjects, Key.normal x ≠ Key.normal key) :
    p.evaluate r (s.put key v) = p.evaluate r s := by
  apply evaluate_congr p _ hask
  intro x hx
  exact State.get?_put_other (Ne.symm (hread x hx))

end Predicate

namespace Rule

/-- A value put under a key that no rule reads makes no difference to a search. -/
theorem search_put_of_unread {rules : List Rule} {node key : String} (v : Value)
    (h : ∀ p ∈ allPredicates rules,
      p.asksHost = false ∧ ∀ x ∈ p.subjects, Key.normal x ≠ Key.normal key) :
    search r (s.put key v) node rules = search r s node rules := by
  apply search_congr
  intro p hp
  obtain ⟨hask, hread⟩ := h p hp
  exact Predicate.evaluate_put_of_unread v hask hread

/-- A single rule finds its target if its predicate holds. -/
theorem search_singleton_eq_some {p : Predicate} (node target : String) :
    (search r s node [.goTo p target]).result = .ok (some target) ↔
      (p.evaluate r s).result = .ok true := by
  rw [search, Inquiry.result_bind_eq_ok]
  constructor
  · rintro ⟨found, hf, h⟩
    rw [target?] at hf
    obtain ⟨holds, hp, hf⟩ := Inquiry.result_bind_eq_ok.mp hf
    cases holds with
    | true => exact hp
    | false => cases hf; cases h
  · intro h
    refine ⟨some target, ?_, rfl⟩
    rw [target?, Inquiry.result_bind_eq_ok]
    exact ⟨true, h, rfl⟩

/-- Some rules tell whether a text is put under a key, unless it is there already. -/
theorem search_put_eq_iff {key t : String} :
    (∀ node rules, search r (s.put key (.text t)) node rules = search r s node rules) ↔
      s.get? key = some (.text t) := by
  constructor
  · intro h
    have hput : ((Predicate.equals key t).evaluate r (s.put key (.text t))).result = .ok true := by
      rw [Predicate.evaluate_equals, State.get_eq_ok.mpr (State.get?_put_same rfl)]
      simp [Except.map]
    have hs : ((Predicate.equals key t).evaluate r s).result = .ok true := by
      rw [← search_singleton_eq_some "" "", ← h, search_singleton_eq_some]
      exact hput
    rw [Predicate.evaluate_equals] at hs
    cases hv : s.get key with
    | error e => rw [hv] at hs; cases hs
    | ok v =>
      rw [hv] at hs
      obtain rfl : v = .text t := by simpa [Except.map] using hs
      exact State.get_eq_ok.mp hv
  · intro h node rules
    rw [State.put_eq_self h]

end Rule

/-! ## The question of a node -/

namespace Node

variable {n : Node} {rules : List Rule} {q : Question}

/-- **What the rules of a node see.** The answer is kept under the name of the question, but the
rules see it under the name of the node. They choose as if it were under the name of the question
too if that is the same key, if the answer was there already, or if they do not read that key and
do not ask the host. Without the first two of these, there are rules that choose otherwise. If the
keys differ, a rule that compares the question with a value sees what the question held before:
nothing, or an earlier answer. -/
theorem destination_with_question (hrules : n.rules? = some rules)
    (hq : n.choiceQuestion? = some q) (r : Registry) (s : State) (input : String) :
    n.answerKey = q.name ∧
      n.destination r s input = n.wayOn r (s.put n.name (.text input)) ∧
      (Key.normal q.name = Key.normal n.name ∨ s.get? q.name = some (.text input) ∨
          (∀ p ∈ Rule.allPredicates rules,
            p.asksHost = false ∧ ∀ x ∈ p.subjects, Key.normal x ≠ Key.normal q.name) →
        n.destination r s input =
          n.wayOn r ((s.put n.name (.text input)).put q.name (.text input))) ∧
      (Key.normal q.name ≠ Key.normal n.name → s.get? q.name ≠ some (.text input) →
        ∃ node rules', Rule.search r ((s.put n.name (.text input)).put q.name (.text input)) node
          rules' ≠ Rule.search r (s.put n.name (.text input)) node rules') ∧
      (Key.normal q.name ≠ Key.normal n.name → ∀ v,
        ((Predicate.equals q.name v).evaluate r (s.put n.name (.text input))).result =
          (s.get q.name).map fun held => decide (held = .text v)) := by
  refine ⟨by simp [answerKey, hq], rfl, ?_, ?_, ?_⟩
  · rintro (hkey | hheld | hunread)
    · rw [State.put_eq_self (State.get?_put_same hkey.symm)]
      rfl
    · have hin : (s.put n.name (.text input)).get? q.name = some (.text input) := by
        rw [State.get?_put]
        split
        · rfl
        · exact hheld
      rw [State.put_eq_self hin]
      rfl
    · apply wayOn_congr hrules
      rw [Rule.search_put_of_unread _ hunread]
      rfl
  · intro hkey hheld
    rw [← State.get?_put_other (v := .text input) (Ne.symm hkey)] at hheld
    refine Classical.byContradiction fun hn => hheld (Rule.search_put_eq_iff (r := r).mp ?_)
    intro node rules'
    exact Classical.byContradiction fun h => hn ⟨node, rules', h⟩
  · intro hkey v
    rw [Predicate.evaluate_equals, State.get_congr (State.get?_put_other (Ne.symm hkey))]

/-- A node whose question has another name than the node. -/
def askingPassport : Node :=
  ⟨"which_passport", [.question ⟨"passport", none, .choice [("greek", "Greek"), ("french", "French")]⟩,
    .rules [.goTo (.equals "passport" "greek") "no_visa", .goTo .otherwise "visa"]], ⟨[]⟩⟩

/-- At that node, its question is undefined on the first visit, and on a second visit it has the
answer of the first. -/
theorem destination_with_question_askingPassport :
    askingPassport.rules? =
        some [.goTo (.equals "passport" "greek") "no_visa", .goTo .otherwise "visa"] ∧
      askingPassport.choiceQuestion? =
        some ⟨"passport", none, .choice [("greek", "Greek"), ("french", "French")]⟩ ∧
      ((Predicate.equals "passport" "greek").evaluate .empty
        ((State.start "which_passport").put "which_passport" (.text "greek"))).result =
          .error (.undefinedValue "passport") ∧
      ((Predicate.equals "passport" "greek").evaluate .empty
        (((State.start "which_passport").put "passport" (.text "french")).put "which_passport"
          (.text "greek"))).result = .ok false := by
  have hrules : askingPassport.rules? = some _ := rfl
  have hq : askingPassport.choiceQuestion? = some _ := rfl
  have hkey : Key.normal "passport" ≠ Key.normal "which_passport" := by decide
  obtain ⟨-, -, -, -, hfirst⟩ :=
    destination_with_question hrules hq .empty (State.start "which_passport") "greek"
  obtain ⟨-, -, -, -, hsecond⟩ :=
    destination_with_question hrules hq .empty
      ((State.start "which_passport").put "passport" (.text "french")) "greek"
  exact ⟨hrules, hq, hfirst hkey "greek", hsecond hkey "greek"⟩

/-- **A rule may meet the question of its own node undefined.** It is not so that the rules of a
node always see the answer under the name of its question. -/
theorem destination_misses_question :
    ¬ ∀ (n : Node) (rules : List Rule) (q : Question) (r : Registry) (s : State) (input : String),
      n.rules? = some rules → n.choiceQuestion? = some q →
      n.destination r s input =
        n.wayOn r ((s.put n.name (.text input)).put q.name (.text input)) := by
  intro h
  have heq := h askingPassport _ _ .empty (.start "which_passport") "greek" rfl rfl
  have hresult := congrArg Inquiry.result heq
  cases hresult

end Node

end Interview
