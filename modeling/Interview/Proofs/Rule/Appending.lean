import Interview.Proofs.Rule.Descent

/-!
# Rules put at the end

A search tries rules in order, so rules put at the end of a list are tried only if every rule before
them is passed over. Whatever the list gave before, a target, a group without a match or a fault, it
gives still.

* `Node.destination_eq_noRuleHolds`: when a node fails for want of a rule that holds.
* `Node.destination_append_of_decided`, `Node.destination_append_of_passed`: the two cases.
* `Node.destination_append`: what rules at the end of a list can change.
-/

namespace Interview

variable {r : Registry} {s : State} {rules : List Rule}

namespace Node

variable {n nx ny : Node} {xs ys : List Rule} {input : String}

/-- The only way to fail for want of a rule that holds is to pass over every rule. -/
theorem destination_eq_noRuleHolds (hrules : n.rules? = some rules) :
    (n.destination r s input).result = .error (.indeterminate n.name .noRuleHolds) ↔
      ∀ q ∈ rules, (q.predicate.evaluate r (s.put n.name (.text input))).result = .ok false := by
  rw [destination_eq_search hrules, Inquiry.result_bind_eq_error, ← @Rule.search_eq_none _ _ n.name]
  constructor
  · rintro (h | ⟨found, hf, h⟩)
    · obtain ⟨-, p, -, hreason⟩ := Rule.search_eq_indeterminate rules h
      cases hreason
    · cases found with
      | some t => cases h
      | none => exact hf
  · intro h
    exact .inr ⟨none, h, rfl⟩

theorem destination_append_eq_search (hn : n.rules? = some (xs ++ ys)) (hy : ny.rules? = some ys)
    (hny : ny.name = n.name) :
    n.destination r s input =
      Rule.search r (s.put n.name (.text input)) n.name xs >>= fun
        | some target => pure target
        | none => ny.destination r s input := by
  rw [destination_eq_search hn, Rule.search_append, bind_assoc]
  congr 1
  funext found
  cases found with
  | some t => rfl
  | none => rw [destination_eq_search hy, hny]

theorem destination_append_of_decided (hn : n.rules? = some (xs ++ ys)) (hx : nx.rules? = some xs)
    (hy : ny.rules? = some ys) (hnx : nx.name = n.name) (hny : ny.name = n.name)
    (hdecided : ∃ x ∈ xs,
      (x.predicate.evaluate r (s.put n.name (.text input))).result ≠ .ok false) :
    n.destination r s input = nx.destination r s input := by
  obtain ⟨x, hmem, hx'⟩ := hdecided
  rw [destination_append_eq_search hn hy hny, destination_eq_search hx, hnx]
  cases hfound : (Rule.search r (s.put n.name (.text input)) n.name xs).result with
  | error e => rw [Inquiry.bind_error hfound, Inquiry.bind_error hfound]
  | ok found =>
    cases found with
    | some t => rw [Inquiry.bind_ok hfound, Inquiry.bind_ok hfound]
    | none => exact absurd (Rule.search_eq_none.mp hfound x hmem) hx'

theorem destination_append_of_passed (hn : n.rules? = some (xs ++ ys)) (hy : ny.rules? = some ys)
    (hny : ny.name = n.name)
    (hpassed : ∀ x ∈ xs, (x.predicate.evaluate r (s.put n.name (.text input))).result = .ok false) :
    (n.destination r s input).result = (ny.destination r s input).result := by
  rw [destination_append_eq_search hn hy hny, Inquiry.bind_ok (Rule.search_eq_none.mpr hpassed)]

/-- **Rules at the end change no decision.** If some rule of a list is not passed over, the list
with more rules at its end gives what it gave before, with the same calls. If every rule is passed
over, it gives what the rules at its end give. So a rule `otherwise` at the end has its say only if
no rule before it holds; no other failure, be it of a group without a match or of an evaluation, is
ever mended; and nothing that comes after a rule `otherwise` at the start matters. -/
theorem destination_append (hn : n.rules? = some (xs ++ ys)) (hx : nx.rules? = some xs)
    (hy : ny.rules? = some ys) (hnx : nx.name = n.name) (hny : ny.name = n.name) (r : Registry)
    (s : State) (input : String) :
    ((nx.destination r s input).result = .error (.indeterminate n.name .noRuleHolds) ↔
        ∀ x ∈ xs, (x.predicate.evaluate r (s.put n.name (.text input))).result = .ok false) ∧
      ((∃ x ∈ xs, (x.predicate.evaluate r (s.put n.name (.text input))).result ≠ .ok false) →
        n.destination r s input = nx.destination r s input) ∧
      ((∀ x ∈ xs, (x.predicate.evaluate r (s.put n.name (.text input))).result = .ok false) →
        (n.destination r s input).result = (ny.destination r s input).result ∧
          ∀ target, ys = [.goTo .otherwise target] →
            (n.destination r s input).result = .ok target) ∧
      (∀ e, (nx.destination r s input).result = .error e →
        e ≠ .indeterminate n.name .noRuleHolds → (n.destination r s input).result = .error e) ∧
      ∀ x rest, xs = x :: rest → x.predicate = .otherwise →
        n.destination r s input = nx.destination r s input := by
  have hnone : (nx.destination r s input).result = .error (.indeterminate n.name .noRuleHolds) ↔
      ∀ x ∈ xs, (x.predicate.evaluate r (s.put n.name (.text input))).result = .ok false := by
    rw [← hnx]
    exact destination_eq_noRuleHolds hx
  refine ⟨hnone, destination_append_of_decided hn hx hy hnx hny, fun hpassed => ?_,
    fun e he hne => ?_, ?_⟩
  · have hys := destination_append_of_passed hn hy hny hpassed
    refine ⟨hys, ?_⟩
    rintro target rfl
    rw [hys, destination_eq_search hy]
    rfl
  · rw [destination_append_of_decided hn hx hy hnx hny ?_, he]
    refine Classical.byContradiction fun hall => hne ?_
    rw [hnone.mpr (by simpa using hall)] at he
    cases he
    rfl
  · rintro x rest rfl hfirst
    refine destination_append_of_decided hn hx hy hnx hny ⟨x, List.mem_cons_self, ?_⟩
    rw [hfirst]
    exact nofun

/-- A node with these rules. -/
def staying (rules : List Rule) : Node := ⟨"stay", [.rules rules], ⟨[]⟩⟩

/-- Two rules of which the second is a group. -/
def shortOrLong : List Rule :=
  [.goTo (.equals "stay" "none") "out",
    .group (.oneOf "stay" ["short", "long"]) [.goTo (.equals "stay" "long") "visa"]]

/-- A rule `otherwise` after these does not help a short stay out of the group, but leads on from
every other one. -/
theorem destination_append_staying :
    ((staying (shortOrLong ++ [.goTo .otherwise "help"])).destination .empty (.start "stay")
        "short").result =
      .error (.indeterminate "stay" (.noRuleHoldsUnder (.oneOf "stay" ["short", "long"]))) ∧
    ((staying (shortOrLong ++ [.goTo .otherwise "help"])).destination .empty (.start "stay")
        "weekend").result = .ok "help" := by
  have happend := @destination_append (staying (shortOrLong ++ [.goTo .otherwise "help"]))
    (staying shortOrLong) (staying [.goTo .otherwise "help"]) shortOrLong
    [.goTo .otherwise "help"] rfl rfl rfl rfl rfl .empty (.start "stay")
  obtain ⟨-, -, -, hfail, -⟩ := happend "short"
  obtain ⟨-, -, hpassed, -, -⟩ := happend "weekend"
  refine ⟨hfail _ rfl nofun, (hpassed ?_).2 _ rfl⟩
  intro x hx
  simp only [shortOrLong, List.mem_cons, List.not_mem_nil, or_false] at hx
  rcases hx with rfl | rfl <;> rfl

end Node

end Interview
