import Interview.Proofs.Rule.Descent

/-!
# Rules that cover every case

A list of rules is covered if it ends with a rule `otherwise` and the children of every group in it
are covered too. A search through it cannot pass over every rule, at whatever depth it is, so it
finds a target unless the evaluation of a predicate fails.

* `Rule.Covered`: lists of rules that are covered.
* `Rule.Concludes`: a search found a target, or the evaluation of a predicate failed.
* `Rule.concludes_target?`, `Rule.concludes_search`: from the children of a group to the group, and
  from some rules to the list of them.
* `Node.exists_target_or_failed_of_covered`: how a step from such a node ends.
* `Node.destination_of_covered`: a node whose rules are covered is no dead end.
-/

namespace Interview

variable {r : Registry} {s : State} {node : String}

namespace Rule

/-- The last rule is one for `otherwise`, and so it is for the children of every group in the list,
at every depth. -/
inductive Covered : List Rule → Prop
  | intro {earlier : List Rule} {last : Rule} : last.predicate = .otherwise →
      (∀ p children, group p children ∈ earlier ++ [last] → Covered children) →
      Covered (earlier ++ [last])

/-- There is a target, or the evaluation of one of these predicates failed. -/
inductive Concludes (r : Registry) (s : State) (ps : List Predicate) :
    Except Fault (Option String) → Prop
  | found (target : String) : Concludes r s ps (.ok (some target))
  | failed {p : Predicate} {e : Fault} : p ∈ ps → (p.evaluate r s).result = .error e →
      Concludes r s ps (.error e)

theorem Concludes.mono {ps qs : List Predicate} {x : Except Fault (Option String)}
    (h : Concludes r s ps x) (hsub : ps ⊆ qs) : Concludes r s qs x := by
  cases h with
  | found target => exact .found target
  | failed hp he => exact .failed (hsub hp) he

theorem Concludes.ne_none {ps : List Predicate} {x : Except Fault (Option String)}
    (h : Concludes r s ps x) : x ≠ .ok none := by
  cases h <;> nofun

/-- A rule is passed over or concludes, if the children conclude that it may be bound to. -/
theorem concludes_target? {rule : Rule} (hkids : ∀ p children, rule = group p children →
    Concludes r s (allPredicates children) (search r s node children).result) :
    (rule.predicate.evaluate r s).result = .ok false ∨
      Concludes r s rule.predicates (target? r s node rule).result := by
  cases hp : (rule.predicate.evaluate r s).result with
  | error e =>
    right
    rw [target?_of_error hp]
    exact .failed (by cases rule <;> exact List.mem_cons_self) hp
  | ok holds =>
    cases holds with
    | false => exact .inl rfl
    | true =>
      right
      cases rule with
      | goTo p t =>
        rw [predicate] at hp
        rw [target?_goTo_of_true hp]
        exact .found t
      | group p children =>
        rw [predicate] at hp
        have hc := hkids p children rfl
        rw [target?_group_of_true hp hc.ne_none]
        exact hc.mono (List.subset_cons_self ..)

/-- Of rules that are passed over or conclude, all are passed over or the list concludes. -/
theorem concludes_search {rules : List Rule} (h : ∀ rule ∈ rules,
    (rule.predicate.evaluate r s).result = .ok false ∨
      Concludes r s rule.predicates (target? r s node rule).result) :
    (∀ rule ∈ rules, (rule.predicate.evaluate r s).result = .ok false) ∨
      Concludes r s (allPredicates rules) (search r s node rules).result := by
  induction rules with
  | nil => exact .inl (List.forall_mem_nil _)
  | cons rule rules ih =>
    obtain ⟨hrule, hrules⟩ := List.forall_mem_cons.mp h
    rw [search]
    rcases hrule with hpassed | hrule
    · rw [Inquiry.bind_ok (target?_eq_none.mpr hpassed)]
      refine (ih hrules).imp (fun hall => List.forall_mem_cons.mpr ⟨hpassed, hall⟩) fun hc => ?_
      exact hc.mono (List.subset_append_right ..)
    · right
      refine Concludes.mono ?_ (List.subset_append_left ..)
      cases hfound : (target? r s node rule).result with
      | error e =>
        rw [Inquiry.bind_error hfound]
        exact hfound ▸ hrule
      | ok found =>
        rw [hfound] at hrule
        cases hrule
        rw [Inquiry.bind_ok hfound]
        exact .found _

/-- A search through rules that are covered concludes. -/
theorem Covered.concludes {rules : List Rule} (h : Covered rules) :
    Concludes r s (allPredicates rules) (search r s node rules).result := by
  induction h with
  | @intro earlier last hlast _ ih =>
    have hrules := @concludes_search r s node (earlier ++ [last]) fun rule hmem =>
      concludes_target? fun p children heq => ih p children (heq ▸ hmem)
    refine hrules.resolve_left fun hpassed => ?_
    have hfalse := hpassed last (by simp)
    rw [hlast] at hfalse
    cases hfalse

end Rule

namespace Node

variable {n : Node} {rules : List Rule} {input : String}

/-- A node whose rules are covered goes on to one of their targets, or fails as the evaluation of one
of their predicates fails. -/
theorem exists_target_or_failed_of_covered (hrules : n.rules? = some rules)
    (hcovered : Rule.Covered rules) :
    (∃ target ∈ Rule.allOutcomes rules, (n.destination r s input).result = .ok target) ∨
      ∃ p ∈ Rule.allPredicates rules, ∃ e,
        (p.evaluate r (s.put n.name (.text input))).result = .error e ∧
          (n.destination r s input).result = .error e := by
  have hconcludes := @Rule.Covered.concludes r (s.put n.name (.text input)) n.name _ hcovered
  cases hfound : (Rule.search r (s.put n.name (.text input)) n.name rules).result with
  | error e =>
    rw [hfound] at hconcludes
    cases hconcludes with
    | failed hp he =>
      refine .inr ⟨_, hp, e, he, ?_⟩
      rw [destination_eq_search hrules, Inquiry.bind_error hfound]
  | ok found =>
    rw [hfound] at hconcludes
    cases hconcludes with
    | found target =>
      exact .inl ⟨target, Rule.mem_allOutcomes_of_search rules hfound,
        (destination_result_eq_ok hrules).mpr hfound⟩

/-- **Covered rules leave no dead end.** A node whose rules are covered goes on to one of their
targets, or fails as the evaluation of one of their predicates fails. It never fails for want of a
way on, and if every predicate can be evaluated it does not fail at all. -/
theorem destination_of_covered (hrules : n.rules? = some rules) (hcovered : Rule.Covered rules)
    (r : Registry) (s : State) (input : String) :
    ((∃ target ∈ Rule.allOutcomes rules, (n.destination r s input).result = .ok target) ∨
        ∃ p ∈ Rule.allPredicates rules, ∃ e,
          (p.evaluate r (s.put n.name (.text input))).result = .error e ∧
            (n.destination r s input).result = .error e) ∧
      (∀ name reason, (n.destination r s input).result ≠ .error (.indeterminate name reason)) ∧
      ((∀ p ∈ Rule.allPredicates rules, ∃ holds,
          (p.evaluate r (s.put n.name (.text input))).result = .ok holds) →
        ∃ target ∈ Rule.allOutcomes rules, (n.destination r s input).result = .ok target) := by
  have hmain := @exists_target_or_failed_of_covered r s n rules input hrules hcovered
  refine ⟨hmain, fun name reason h => ?_, fun hall => ?_⟩
  · rcases hmain with ⟨target, -, ht⟩ | ⟨p, -, e, he, hfail⟩
    · rw [ht] at h
      cases h
    · rw [hfail] at h
      cases h
      exact (Predicate.faultsIn_evaluate p).noDeadEnd name reason he
  · refine hmain.resolve_right ?_
    rintro ⟨p, hp, e, he, -⟩
    obtain ⟨holds, hok⟩ := hall p hp
    rw [he] at hok
    cases hok

/-- The rules of a node that tells short stays from long ones, each list with its `otherwise`. -/
def stayRules : List Rule :=
  [.goTo (.equals "stay" "none") "out",
    .group (.oneOf "stay" ["short", "long"])
      [.goTo (.equals "nights" "few") "pass", .goTo .otherwise "visa"],
    .goTo .otherwise "help"]

theorem covered_stayRules : Rule.Covered stayRules := by
  have hkids : Rule.Covered [.goTo (.equals "nights" "few") "pass",
      .goTo .otherwise "visa"] := @Rule.Covered.intro [_] _ rfl (by simp)
  refine @Rule.Covered.intro [_, _] _ rfl fun p children hmem => ?_
  simp only [List.cons_append, List.nil_append, List.mem_cons, Rule.group.injEq, reduceCtorEq,
    List.not_mem_nil, or_false, false_or] at hmem
  exact hmem.2 ▸ hkids

/-- With these rules a node leads on, if it is known how many nights the stay has. If not, it fails
as the equality does. -/
theorem destination_of_covered_stayRules :
    (∃ target ∈ Rule.allOutcomes stayRules,
      ((Node.mk "stay" [.rules stayRules] ⟨[]⟩).destination .empty
        ((State.start "stay").put "nights" (.text "many")) "long").result = .ok target) ∧
    ((Node.mk "stay" [.rules stayRules] ⟨[]⟩).destination .empty (.start "stay") "long").result =
      .error (.undefinedValue "nights") ∧
    ((Node.mk "stay" [.rules stayRules] ⟨[]⟩).destination .empty (.start "stay") "long").result ≠
      .error (.indeterminate "stay" (.noRuleHoldsUnder (.oneOf "stay" ["short", "long"]))) := by
  have hcovered := @destination_of_covered (Node.mk "stay" [.rules stayRules] ⟨[]⟩) stayRules rfl
    covered_stayRules .empty
  refine ⟨(hcovered _ "long").2.2 ?_, rfl, (hcovered _ "long").2.1 _ _⟩
  intro p hp
  simp only [stayRules, Rule.allPredicates, Rule.predicates, List.cons_append, List.nil_append,
    List.append_nil, List.mem_cons, List.not_mem_nil, or_false] at hp
  rcases hp with rfl | rfl | rfl | rfl | rfl <;> exact ⟨_, rfl⟩

end Node

end Interview
