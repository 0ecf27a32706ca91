import Interview.Proofs.Rule.Descent
import Mathlib.Data.List.Flatten

/-!
# The calls of a search

The host is asked only while predicates are evaluated. A predicate makes its calls in document
order, each once, and stops where it is decided; a search evaluates predicates in document order,
each once, and stops where it finds its target.

* `Predicate.hostCalls`: the calls that a predicate may make.
* `Predicate.calls_isPrefix`, `Predicate.calls_of_true`: an evaluation makes the first of them, and
  all of them if the predicate holds.
* `Predicate.evaluate_all_stop`: a conjunction makes no call after the member that decides it.
* `Rule.exists_tried_of_search`: a search tries some of the predicates, in document order.
* `Rule.search_of_descends`: a search with a target tries those that its chain of links passes.
* `Node.calls_of_destination`: the calls of a step.
-/

namespace Interview

variable {r : Registry} {s : State}

/-! ## Predicates -/

namespace Predicate

mutual

/-- The calls that a predicate may make, in document order. -/
def hostCalls : Predicate → List Call
  | named name => [.predicate name]
  | call function arguments => [.function function arguments]
  | all members => allHostCalls members
  | equals _ _ | oneOf _ _ | compares _ _ _ | otherwise => []

/-- The calls that some predicates may make, in document order. -/
def allHostCalls : List Predicate → List Call
  | [] => []
  | p :: ps => hostCalls p ++ allHostCalls ps

end

mutual

/-- A predicate that holds made all of its calls. -/
theorem calls_of_true (p : Predicate) (h : (p.evaluate r s).result = .ok true) :
    (p.evaluate r s).calls = p.hostCalls := by
  match p with
  | equals _ _ | oneOf _ _ | compares _ _ _ | otherwise =>
    rw [evaluate]
    rfl
  | named name =>
    rw [evaluate, Registry.ask] at h ⊢
    split at h
    · rfl
    · cases h
  | call function arguments =>
    rw [evaluate, Registry.apply] at h ⊢
    split at h
    · rfl
    · cases h
  | all members =>
    rw [evaluate] at h ⊢
    exact allCalls_of_true members h

theorem allCalls_of_true (ps : List Predicate) (h : (evaluateAll r s ps).result = .ok true) :
    (evaluateAll r s ps).calls = allHostCalls ps := by
  match ps with
  | [] => rfl
  | p :: ps =>
    rw [evaluateAll] at h
    obtain ⟨holds, hp, h⟩ := Inquiry.result_bind_eq_ok.mp h
    cases holds with
    | false => cases h
    | true =>
      rw [evaluateAll, Inquiry.bind_ok hp, if_pos rfl, calls_of_true p hp, allCalls_of_true ps h]
      rfl

end

mutual

/-- An evaluation makes the first of the calls of its predicate, up to some point. -/
theorem calls_isPrefix (p : Predicate) : (p.evaluate r s).calls <+: p.hostCalls := by
  match p with
  | equals _ _ | oneOf _ _ | compares _ _ _ | otherwise => exact List.nil_prefix
  | named name =>
    rw [evaluate, Registry.ask]
    split
    · exact List.prefix_rfl
    · exact List.nil_prefix
  | call function arguments =>
    rw [evaluate, Registry.apply]
    split
    · exact List.prefix_rfl
    · exact List.nil_prefix
  | all members =>
    rw [evaluate]
    exact allCalls_isPrefix members

theorem allCalls_isPrefix (ps : List Predicate) :
    (evaluateAll r s ps).calls <+: allHostCalls ps := by
  match ps with
  | [] => exact List.nil_prefix
  | p :: ps =>
    have hp := calls_isPrefix p
    rw [evaluateAll, allHostCalls]
    cases hres : (p.evaluate r s).result with
    | error e =>
      rw [Inquiry.bind_error hres]
      exact List.prefix_append_of_prefix hp
    | ok holds =>
      rw [Inquiry.bind_ok hres]
      cases holds with
      | false => simpa using List.prefix_append_of_prefix hp
      | true =>
        rw [calls_of_true p hres]
        exact (List.prefix_append_right_inj _).mpr (allCalls_isPrefix ps)

end

/-- A conjunction is decided by its first member that does not hold, and makes no call after it. -/
theorem evaluate_all_stop {earlier later : List Predicate} {p : Predicate}
    (hearlier : ∀ q ∈ earlier, (q.evaluate r s).result = .ok true)
    (hp : (p.evaluate r s).result ≠ .ok true) :
    (all (earlier ++ p :: later)).evaluate r s =
      ⟨earlier.flatMap hostCalls ++ (p.evaluate r s).calls, (p.evaluate r s).result⟩ := by
  rw [evaluate]
  induction earlier with
  | nil =>
    rw [List.nil_append, evaluateAll]
    cases hres : (p.evaluate r s).result with
    | error e => exact Inquiry.bind_error hres
    | ok holds =>
      cases holds with
      | true => exact absurd hres hp
      | false => simp [Inquiry.bind_ok hres]
  | cons q earlier ih =>
    obtain ⟨hq, hearlier⟩ := List.forall_mem_cons.mp hearlier
    rw [List.cons_append, evaluateAll, Inquiry.bind_ok hq, if_pos rfl, ih hearlier,
      calls_of_true q hq, List.flatMap_cons, List.append_assoc]

end Predicate

/-! ## Rules -/

namespace Rule

variable {node target : String}

theorem allPredicates_append (xs ys : List Rule) :
    allPredicates (xs ++ ys) = allPredicates xs ++ allPredicates ys := by
  induction xs with
  | nil => rfl
  | cons x xs ih => rw [List.cons_append, allPredicates, allPredicates, ih, List.append_assoc]

mutual

theorem exists_tried_of_target? (rule : Rule) : ∃ tried : List Predicate,
    tried.Sublist rule.predicates ∧
      (target? r s node rule).calls = tried.flatMap fun p => (p.evaluate r s).calls := by
  match rule with
  | goTo p t =>
    refine ⟨[p], List.Sublist.refl _, ?_⟩
    rw [target?, List.flatMap_singleton]
    cases hp : (p.evaluate r s).result with
    | error e => rw [Inquiry.bind_error hp]
    | ok holds => cases holds <;> simp [Inquiry.bind_ok hp]
  | group p children =>
    rw [target?, predicates]
    cases hp : (p.evaluate r s).result with
    | error e =>
      refine ⟨[p], (List.nil_sublist _).cons_cons p, ?_⟩
      rw [Inquiry.bind_error hp, List.flatMap_singleton]
    | ok holds =>
      cases holds with
      | false =>
        refine ⟨[p], (List.nil_sublist _).cons_cons p, ?_⟩
        simp [Inquiry.bind_ok hp]
      | true =>
        obtain ⟨tried, htried, hcalls⟩ := exists_tried_of_search children
        refine ⟨p :: tried, htried.cons_cons p, ?_⟩
        rw [Inquiry.bind_ok hp, if_pos rfl, List.flatMap_cons, ← hcalls]
        cases hc : (search r s node children).result with
        | error e => rw [Inquiry.bind_error hc]
        | ok found => cases found <;> simp [Inquiry.bind_ok hc, Inquiry.raise]

/-- A search tries some of the predicates of the rules, in document order, and makes their calls and
no others. -/
theorem exists_tried_of_search (rules : List Rule) : ∃ tried : List Predicate,
    tried.Sublist (allPredicates rules) ∧
      (search r s node rules).calls = tried.flatMap fun p => (p.evaluate r s).calls := by
  match rules with
  | [] => exact ⟨[], List.Sublist.refl _, rfl⟩
  | rule :: rules =>
    obtain ⟨first, hfirst, hcalls⟩ := exists_tried_of_target? rule
    rw [search, allPredicates]
    cases hres : (target? r s node rule).result with
    | error e =>
      refine ⟨first, List.sublist_append_of_sublist_left hfirst, ?_⟩
      rw [Inquiry.bind_error hres, hcalls]
    | ok found =>
      cases found with
      | some t =>
        refine ⟨first, List.sublist_append_of_sublist_left hfirst, ?_⟩
        simp [Inquiry.bind_ok hres, hcalls]
      | none =>
        obtain ⟨rest, hrest, hcalls'⟩ := exists_tried_of_search rules
        refine ⟨first ++ rest, hfirst.append hrest, ?_⟩
        rw [Inquiry.bind_ok hres, List.flatMap_append, hcalls, hcalls']

end

/-- The predicates that a search tries to take the rule: those of the rules before it, and its
own. -/
def Link.tried (l : Link) : List Predicate := l.earlier.map predicate ++ [l.rule.predicate]

/-- The predicates in a list of rules up to that of the rule, in document order. -/
def Link.reached (l : Link) : List Predicate := allPredicates l.earlier ++ [l.rule.predicate]

theorem map_predicate_sublist (rules : List Rule) :
    (rules.map predicate).Sublist (allPredicates rules) := by
  induction rules with
  | nil => exact List.Sublist.refl _
  | cons rule rules ih =>
    have hfirst : [rule.predicate].Sublist rule.predicates := by
      cases rule <;> exact (List.nil_sublist _).cons_cons _
    exact hfirst.append ih

theorem Link.tried_sublist (l : Link) : l.tried.Sublist l.reached :=
  (map_predicate_sublist l.earlier).append (List.Sublist.refl _)

/-- What a chain of links reaches is the start of its rules, in document order. -/
theorem Descends.reached_isPrefix {rules : List Rule} {chain : List Link}
    (h : Descends rules chain target) : chain.flatMap Link.reached <+: allPredicates rules := by
  induction h with
  | goTo =>
    rw [allPredicates_append, List.flatMap_singleton, Link.reached]
    exact (List.prefix_append_right_inj _).mpr (List.prefix_append _ _)
  | group _ ih =>
    rw [allPredicates_append, List.flatMap_cons, Link.reached, allPredicates, predicates,
      List.append_assoc]
    exact (List.prefix_append_right_inj _).mpr
      ((List.prefix_append_right_inj _).mpr (List.prefix_append_of_prefix ih))

theorem search_of_taken {earlier later : List Rule} {rule : Rule} (calls : List Call)
    (h : Link.Taken r s ⟨earlier, rule⟩)
    (hrule : target? r s node rule = ⟨(rule.predicate.evaluate r s).calls ++ calls,
      .ok (some target)⟩) :
    search r s node (earlier ++ rule :: later) =
      ⟨(Link.mk earlier rule).tried.flatMap (fun p => (p.evaluate r s).calls) ++ calls,
        .ok (some target)⟩ := by
  have hfirst : search r s node (rule :: later) = target? r s node rule := by
    rw [search, hrule, Inquiry.bind_ok rfl]
    simp
  rw [search_of_passed h.passed, hfirst, hrule, Link.tried, List.flatMap_append,
    List.flatMap_singleton, List.append_assoc]

/-- A search with a target tries the predicates that its chain of links tries. -/
theorem search_of_descends {rules : List Rule} {chain : List Link} (h : Descends rules chain target)
    (htaken : ∀ l ∈ chain, l.Taken r s) :
    search r s node rules =
      ⟨(chain.flatMap Link.tried).flatMap fun p => (p.evaluate r s).calls, .ok (some target)⟩ := by
  induction h with
  | @goTo earlier later p t =>
    have hlink := htaken _ List.mem_cons_self
    have hp : (p.evaluate r s).result = .ok true := hlink.holds
    rw [search_of_taken [] hlink (by rw [target?_goTo_of_true hp, List.append_nil]; rfl),
      List.flatMap_singleton, List.append_nil]
  | @group earlier later children p chain t _ ih =>
    obtain ⟨hlink, hrest⟩ := List.forall_mem_cons.mp htaken
    have hp : (p.evaluate r s).result = .ok true := hlink.holds
    have hchildren := ih hrest
    have hgroup := target?_group_of_true hp (by rw [hchildren]; nofun)
    rw [hchildren] at hgroup
    rw [search_of_taken _ hlink hgroup, List.flatMap_cons, List.flatMap_append]

end Rule

/-! ## Steps -/

namespace Node

variable {n : Node} {rules : List Rule} {input : String}

/-- A step from a node with rules makes the calls of the search through them. -/
theorem calls_destination_of_rules (hrules : n.rules? = some rules) :
    (n.destination r s input).calls =
      (Rule.search r (s.put n.name (.text input)) n.name rules).calls := by
  rw [destination_eq_search hrules]
  cases hfound : (Rule.search r (s.put n.name (.text input)) n.name rules).result with
  | error e => rw [Inquiry.bind_error hfound]
  | ok found => cases found <;> simp [Inquiry.bind_ok hfound, Inquiry.raise]

/-- A step from a node tries some of the predicates of its rules, in document order. -/
theorem exists_tried_of_destination : ∃ tried : List Predicate,
    tried.Sublist (Rule.allPredicates (n.rules?.getD [])) ∧
      (n.destination r s input).calls =
        tried.flatMap fun p => (p.evaluate r (s.put n.name (.text input))).calls := by
  cases hrules : n.rules? with
  | some rules =>
    rw [calls_destination_of_rules hrules]
    exact Rule.exists_tried_of_search rules
  | none =>
    refine ⟨[], List.nil_sublist _, ?_⟩
    rw [destination, wayOn, hrules]
    cases n.startButton? <;> rfl

/-- **Calls follow the document and stop at the decision.** A step from a node tries some of the
predicates of its rules, in document order and each once, and makes their calls and no others. A
predicate makes the first of its own calls up to some point. So the calls of a step are some of
those that the rules may make, in document order. A step with a target tries exactly what the chain
of links to the target tries, and that lies before or at the rule with the target. A conjunction
makes no call after its first member that does not hold or cannot be evaluated. -/
theorem calls_of_destination (n : Node) (r : Registry) (s : State) (input : String) :
    (∃ tried : List Predicate, tried.Sublist (Rule.allPredicates (n.rules?.getD [])) ∧
        (n.destination r s input).calls =
          tried.flatMap fun p => (p.evaluate r (s.put n.name (.text input))).calls) ∧
      (∀ (p : Predicate) (s' : State), (p.evaluate r s').calls <+: p.hostCalls) ∧
      (n.destination r s input).calls.Sublist
        ((Rule.allPredicates (n.rules?.getD [])).flatMap Predicate.hostCalls) ∧
      (∀ rules target, n.rules? = some rules → (n.destination r s input).result = .ok target →
        ∃ chain, Rule.Descends rules chain target ∧
          (∀ l ∈ chain, l.Taken r (s.put n.name (.text input))) ∧
          (n.destination r s input).calls = ((chain.flatMap Rule.Link.tried).flatMap fun p =>
            (p.evaluate r (s.put n.name (.text input))).calls) ∧
          chain.flatMap Rule.Link.reached <+: Rule.allPredicates rules ∧
          (n.destination r s input).calls.Sublist
            ((chain.flatMap Rule.Link.reached).flatMap Predicate.hostCalls)) ∧
      ∀ (earlier later : List Predicate) (p : Predicate) (s' : State),
        (∀ q ∈ earlier, (q.evaluate r s').result = .ok true) →
        (p.evaluate r s').result ≠ .ok true →
        ((Predicate.all (earlier ++ p :: later)).evaluate r s').calls =
          earlier.flatMap Predicate.hostCalls ++ (p.evaluate r s').calls := by
  -- Predicates that are tried make some of the calls that they may make.
  have hsome : ∀ {tried reached : List Predicate} {s' : State}, tried.Sublist reached →
      (tried.flatMap fun p => (p.evaluate r s').calls).Sublist
        (reached.flatMap Predicate.hostCalls) := fun h =>
    (List.Sublist.flatMap_right _ fun p _ => (Predicate.calls_isPrefix p).sublist).trans
      (h.flatMap Predicate.hostCalls)
  have htried := @exists_tried_of_destination r s n input
  refine ⟨htried, fun p s' => Predicate.calls_isPrefix p, ?_, fun rules target hrules hok => ?_,
    fun earlier later p s' hearlier hp => by rw [Predicate.evaluate_all_stop hearlier hp]⟩
  · obtain ⟨tried, hsub, hcalls⟩ := htried
    rw [hcalls]
    exact hsome hsub
  · obtain ⟨chain, hchain, htaken⟩ :=
      Rule.search_eq_some.mp ((destination_result_eq_ok hrules).mp hok)
    have hcalls : (n.destination r s input).calls = _ := calls_destination_of_rules hrules
    rw [Rule.search_of_descends hchain htaken] at hcalls
    refine ⟨chain, hchain, htaken, hcalls, hchain.reached_isPrefix, ?_⟩
    rw [hcalls]
    exact hsome (List.Sublist.flatMap_right _ fun l _ => l.tried_sublist)

/-- A host with two predicates and a function, all of which hold except for `late?`. -/
def clerk : Registry where
  predicates := ((∅ : Std.ExtTreeMap String (State → Bool)).insert "late?" fun _ => false).insert
    "open?" fun _ => true
  functions := (∅ : Std.ExtTreeMap String (List String → State → Bool)).insert "any" fun _ _ => true
  countryTables := ∅

/-- Rules that ask that host, for some things more than once. -/
def counterRules : List Rule :=
  [.goTo (.all [.named "open?", .named "late?", .named "open?"]) "wait",
    .group (.call "any" ["a", "b"]) [.goTo (.named "open?") "desk", .goTo (.named "late?") "door"],
    .goTo (.named "late?") "home"]

/-- A node with these rules. -/
def counter : Node := ⟨"counter", [.rules counterRules], ⟨[]⟩⟩

/-- At that node the step to `desk` asks four times: twice in the conjunction, which is decided then,
and once for each of the two rules that hold. -/
theorem calls_of_destination_counter :
    (counter.destination clerk (.start "counter") "x").result = .ok "desk" ∧
      (counter.destination clerk (.start "counter") "x").calls =
        [.predicate "open?", .predicate "late?", .function "any" ["a", "b"], .predicate "open?"] ∧
      ∃ chain, Rule.Descends counterRules chain "desk" ∧
        (counter.destination clerk (.start "counter") "x").calls.Sublist
          ((chain.flatMap Rule.Link.reached).flatMap Predicate.hostCalls) := by
  have hdesk : (counter.destination clerk (.start "counter") "x").result = .ok "desk" := rfl
  obtain ⟨-, -, -, hchain, -⟩ := calls_of_destination counter clerk (.start "counter") "x"
  obtain ⟨chain, hdescends, -, -, -, hsub⟩ := hchain counterRules "desk" rfl hdesk
  exact ⟨hdesk, rfl, chain, hdescends, hsub⟩

end Node

end Interview
