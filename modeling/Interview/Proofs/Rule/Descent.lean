import Interview.Proofs.Rule.Search

/-!
# The descent to a target

A search goes down through nested rules. In every list it passes over rules that do not hold,
takes the first one that does, and is bound to it: a rule with a target gives the target, a group
gives what its children give.

* `Rule.Link`, `Link.Taken`: a rule of a list with the rules before it, and when a search takes it.
* `Rule.Descends`: a chain of links from a list of rules down to a target.
* `Rule.Enters`: a chain of groups from a list of rules down to a list of children.
* `Rule.search_eq_none`: a search finds nothing exactly if it passes over every rule.
* `Rule.search_eq_some`: a search finds the target of a chain of links that are taken.
* `Rule.Descends.unique`: there is at most one such chain.
* `Rule.Enters.search_eq_some`: a search is bound to the groups that it enters.
* `Node.destination_by_descent`: all of this for the rules of a node.
-/

namespace Interview

variable {r : Registry} {s : State} {node target : String}

namespace Rule

/-- A rule of a list, with the rules before it. -/
structure Link where
  /-- The rules before it in its list. -/
  earlier : List Rule
  /-- The rule. -/
  rule : Rule

/-- A search takes the rule: it holds, and none of the rules before it does. -/
structure Link.Taken (r : Registry) (s : State) (l : Link) : Prop where
  passed : ∀ q ∈ l.earlier, (q.predicate.evaluate r s).result = .ok false
  holds : (l.rule.predicate.evaluate r s).result = .ok true

/-- The chain starts in the list `rules` and goes from each group to one of its children, down to a
rule with the target. -/
inductive Descends : List Rule → List Link → String → Prop
  | goTo {earlier later : List Rule} {p : Predicate} {target : String} :
      Descends (earlier ++ goTo p target :: later) [⟨earlier, goTo p target⟩] target
  | group {earlier later children : List Rule} {p : Predicate} {chain : List Link}
      {target : String} : Descends children chain target →
      Descends (earlier ++ group p children :: later) (⟨earlier, group p children⟩ :: chain) target

/-- The chain starts in the list `rules` and goes from each group to one of its children, which is a
group too. It ends at the children `inner` of the last one. -/
inductive Enters : List Rule → List Link → List Rule → Prop
  | nil {rules : List Rule} : Enters rules [] rules
  | group {earlier later children inner : List Rule} {p : Predicate} {chain : List Link} :
      Enters children chain inner →
      Enters (earlier ++ group p children :: later) (⟨earlier, group p children⟩ :: chain) inner

/-! ## One rule -/

/-- A rule is passed over only if its predicate is false. -/
theorem target?_eq_none {rule : Rule} :
    (target? r s node rule).result = .ok none ↔
      (rule.predicate.evaluate r s).result = .ok false := by
  cases rule with
  | goTo p t =>
    rw [target?, predicate, Inquiry.result_bind_eq_ok]
    constructor
    · rintro ⟨holds, hp, h⟩
      cases holds with
      | true => cases h
      | false => exact hp
    · intro hp
      exact ⟨false, hp, rfl⟩
  | group p children =>
    rw [target?, predicate, Inquiry.result_bind_eq_ok]
    constructor
    · rintro ⟨holds, hp, h⟩
      cases holds with
      | true =>
        obtain ⟨found, -, h⟩ := Inquiry.result_bind_eq_ok.mp h
        cases found <;> cases h
      | false => exact hp
    · intro hp
      exact ⟨false, hp, rfl⟩

theorem target?_goTo_eq_some {p : Predicate} {t : String} :
    (target? r s node (goTo p t)).result = .ok (some target) ↔
      (p.evaluate r s).result = .ok true ∧ target = t := by
  rw [target?, Inquiry.result_bind_eq_ok]
  constructor
  · rintro ⟨holds, hp, h⟩
    cases holds with
    | true => cases h; exact ⟨hp, rfl⟩
    | false => cases h
  · rintro ⟨hp, rfl⟩
    exact ⟨true, hp, rfl⟩

/-- A group that holds is bound to its children. -/
theorem target?_group_eq_some {p : Predicate} {children : List Rule} :
    (target? r s node (group p children)).result = .ok (some target) ↔
      (p.evaluate r s).result = .ok true ∧
        (search r s node children).result = .ok (some target) := by
  rw [target?, Inquiry.result_bind_eq_ok]
  constructor
  · rintro ⟨holds, hp, h⟩
    cases holds with
    | true =>
      obtain ⟨found, hc, h⟩ := Inquiry.result_bind_eq_ok.mp h
      cases found with
      | some t => cases h; exact ⟨hp, hc⟩
      | none => cases h
    | false => cases h
  · rintro ⟨hp, hc⟩
    exact ⟨true, hp, Inquiry.result_bind_eq_ok.mpr ⟨some target, hc, rfl⟩⟩

theorem target?_of_error {rule : Rule} {e : Fault}
    (h : (rule.predicate.evaluate r s).result = .error e) :
    target? r s node rule = ⟨(rule.predicate.evaluate r s).calls, .error e⟩ := by
  cases rule <;> rw [target?] <;> exact Inquiry.bind_error h

theorem target?_of_false {rule : Rule} (h : (rule.predicate.evaluate r s).result = .ok false) :
    target? r s node rule = ⟨(rule.predicate.evaluate r s).calls, .ok none⟩ := by
  cases rule <;> rw [target?] <;> exact (Inquiry.bind_ok h).trans (by simp)

theorem target?_goTo_of_true {p : Predicate} {t : String} (h : (p.evaluate r s).result = .ok true) :
    target? r s node (goTo p t) = ⟨(p.evaluate r s).calls, .ok (some t)⟩ := by
  rw [target?, Inquiry.bind_ok h]
  simp

/-- A group that holds gives what its children give, if that is a target or a fault. -/
theorem target?_group_of_true {p : Predicate} {children : List Rule}
    (h : (p.evaluate r s).result = .ok true) (hc : (search r s node children).result ≠ .ok none) :
    target? r s node (group p children) =
      ⟨(p.evaluate r s).calls ++ (search r s node children).calls,
        (search r s node children).result⟩ := by
  rw [target?, Inquiry.bind_ok h, if_pos rfl]
  cases hfound : (search r s node children).result with
  | error e => rw [Inquiry.bind_error hfound]
  | ok found =>
    cases found with
    | some t => simp [Inquiry.bind_ok hfound]
    | none => exact absurd hfound hc

/-! ## A list of rules -/

theorem search_cons_eq_some {rule : Rule} {rules : List Rule} :
    (search r s node (rule :: rules)).result = .ok (some target) ↔
      (target? r s node rule).result = .ok (some target) ∨
        (rule.predicate.evaluate r s).result = .ok false ∧
          (search r s node rules).result = .ok (some target) := by
  rw [search, Inquiry.result_bind_eq_ok]
  constructor
  · rintro ⟨found, hf, h⟩
    cases found with
    | some t => cases h; exact .inl hf
    | none => exact .inr ⟨target?_eq_none.mp hf, h⟩
  · rintro (hf | ⟨hp, h⟩)
    · exact ⟨some target, hf, rfl⟩
    · exact ⟨none, target?_eq_none.mpr hp, h⟩

/-- A search through rules that are passed over evaluates their predicates and goes on to the next
rule. -/
theorem search_of_passed {earlier rules : List Rule}
    (h : ∀ q ∈ earlier, (q.predicate.evaluate r s).result = .ok false) :
    search r s node (earlier ++ rules) =
      ⟨(earlier.map predicate).flatMap (fun p => (p.evaluate r s).calls) ++
        (search r s node rules).calls, (search r s node rules).result⟩ := by
  induction earlier with
  | nil => rfl
  | cons q earlier ih =>
    obtain ⟨hq, hearlier⟩ := List.forall_mem_cons.mp h
    rw [List.cons_append, search, target?_of_false hq, Inquiry.bind_ok rfl]
    simp only [ih hearlier, List.map_cons, List.flatMap_cons, List.append_assoc]

theorem search_passed_eq_some {earlier rules : List Rule}
    (h : ∀ q ∈ earlier, (q.predicate.evaluate r s).result = .ok false) :
    (search r s node (earlier ++ rules)).result = .ok (some target) ↔
      (search r s node rules).result = .ok (some target) := by
  rw [search_of_passed h]

/-- A search that takes a rule finds what the rule gives; no rule after it is tried. -/
theorem search_taken_eq_some {earlier later : List Rule} {rule : Rule}
    (h : Link.Taken r s ⟨earlier, rule⟩) :
    (search r s node (earlier ++ rule :: later)).result = .ok (some target) ↔
      (target? r s node rule).result = .ok (some target) := by
  rw [search_passed_eq_some h.passed, search_cons_eq_some, h.holds]
  simp

/-- A search finds nothing exactly if it passes over every rule. -/
theorem search_eq_none {rules : List Rule} : (search r s node rules).result = .ok none ↔
    ∀ q ∈ rules, (q.predicate.evaluate r s).result = .ok false := by
  induction rules with
  | nil => simp [search]
  | cons rule rules ih =>
    rw [search, Inquiry.result_bind_eq_ok, List.forall_mem_cons, ← ih, ← @target?_eq_none r s node]
    constructor
    · rintro ⟨found, hf, h⟩
      cases found with
      | some t => cases h
      | none => exact ⟨hf, h⟩
    · rintro ⟨hf, h⟩
      exact ⟨none, hf, h⟩

/-! ## The chain of a search -/

mutual

theorem exists_chain_of_target? (rule : Rule) (earlier later : List Rule)
    (hpassed : ∀ q ∈ earlier, (q.predicate.evaluate r s).result = .ok false)
    (h : (target? r s node rule).result = .ok (some target)) :
    ∃ chain, Descends (earlier ++ rule :: later) chain target ∧ ∀ l ∈ chain, l.Taken r s := by
  match rule with
  | goTo p t =>
    obtain ⟨hp, rfl⟩ := target?_goTo_eq_some.mp h
    exact ⟨_, .goTo, by simpa using ⟨hpassed, hp⟩⟩
  | group p children =>
    obtain ⟨hp, hc⟩ := target?_group_eq_some.mp h
    obtain ⟨chain, hchain, htaken⟩ := exists_chain_of_search children [] nofun hc
    refine ⟨_, .group hchain, List.forall_mem_cons.mpr ⟨⟨hpassed, hp⟩, htaken⟩⟩

theorem exists_chain_of_search (rules : List Rule) (earlier : List Rule)
    (hpassed : ∀ q ∈ earlier, (q.predicate.evaluate r s).result = .ok false)
    (h : (search r s node rules).result = .ok (some target)) :
    ∃ chain, Descends (earlier ++ rules) chain target ∧ ∀ l ∈ chain, l.Taken r s := by
  match rules with
  | [] => cases h
  | rule :: rules =>
    rcases search_cons_eq_some.mp h with h | ⟨hp, h⟩
    · exact exists_chain_of_target? rule earlier rules hpassed h
    · have hpassed' : ∀ q ∈ earlier ++ [rule], (q.predicate.evaluate r s).result = .ok false := by
        simpa [or_imp, forall_and] using ⟨hpassed, hp⟩
      simpa using exists_chain_of_search rules (earlier ++ [rule]) hpassed' h

end

/-- A search finds the target of a chain of links that are taken. -/
theorem search_eq_some {rules : List Rule} :
    (search r s node rules).result = .ok (some target) ↔
      ∃ chain, Descends rules chain target ∧ ∀ l ∈ chain, l.Taken r s := by
  constructor
  · intro h
    exact exists_chain_of_search rules [] nofun h
  · rintro ⟨chain, hchain, htaken⟩
    induction hchain with
    | goTo =>
      have hlink := htaken _ List.mem_cons_self
      exact (search_taken_eq_some hlink).mpr (target?_goTo_eq_some.mpr ⟨hlink.holds, rfl⟩)
    | group _ ih =>
      have hlink := htaken _ List.mem_cons_self
      have hc := ih fun l hl => htaken l (List.mem_cons_of_mem _ hl)
      exact (search_taken_eq_some hlink).mpr (target?_group_eq_some.mpr ⟨hlink.holds, hc⟩)

/-- A list of rules has at most one rule that a search takes. -/
theorem Link.Taken.unique {earlier earlier' later later' : List Rule} {rule rule' : Rule}
    (heq : earlier ++ rule :: later = earlier' ++ rule' :: later')
    (h : Link.Taken r s ⟨earlier, rule⟩) (h' : Link.Taken r s ⟨earlier', rule'⟩) :
    earlier = earlier' ∧ rule = rule' := by
  -- A rule that is taken is not among those that are passed over.
  have key : ∀ {e e' : List Rule} {a : Rule}, Link.Taken r s ⟨e, a⟩ →
      (∀ q ∈ e', (q.predicate.evaluate r s).result = .ok false) → a ∉ e' := by
    intro e e' a ha he hmem
    have hfalse := he a hmem
    rw [ha.holds] at hfalse
    cases hfalse
  rcases List.append_eq_append_iff.mp heq with ⟨between, rfl, hb⟩ | ⟨between, rfl, hb⟩
  · cases between with
    | nil => simp_all
    | cons a between =>
      obtain ⟨rfl, -⟩ := List.cons.inj hb
      exact absurd (by simp) (key h h'.passed)
  · cases between with
    | nil => simp_all
    | cons a between =>
      obtain ⟨rfl, -⟩ := List.cons.inj hb
      exact absurd (by simp) (key h' h.passed)

/-- There is at most one chain of links that are taken. -/
theorem Descends.unique {rules : List Rule} {chain chain' : List Link} {target' : String}
    (h : Descends rules chain target) (htaken : ∀ l ∈ chain, l.Taken r s)
    (h' : Descends rules chain' target') (htaken' : ∀ l ∈ chain', l.Taken r s) :
    chain = chain' ∧ target = target' := by
  induction h generalizing chain' target' with
  | @goTo earlier later p t =>
    have hlink := htaken _ List.mem_cons_self
    generalize hrules : earlier ++ Rule.goTo p t :: later = rules' at h'
    cases h' with
    | goTo =>
      obtain ⟨rfl, heq⟩ := hlink.unique hrules (htaken' _ List.mem_cons_self)
      cases heq
      exact ⟨rfl, rfl⟩
    | group hchain' =>
      obtain ⟨-, heq⟩ := hlink.unique hrules (htaken' _ List.mem_cons_self)
      cases heq
  | @group earlier later children p chain t hchain ih =>
    have hlink := htaken _ List.mem_cons_self
    generalize hrules : earlier ++ Rule.group p children :: later = rules' at h'
    cases h' with
    | goTo =>
      obtain ⟨-, heq⟩ := hlink.unique hrules (htaken' _ List.mem_cons_self)
      cases heq
    | group hchain' =>
      obtain ⟨rfl, heq⟩ := hlink.unique hrules (htaken' _ List.mem_cons_self)
      cases heq
      obtain ⟨rfl, rfl⟩ := ih (fun l hl => htaken l (List.mem_cons_of_mem _ hl)) hchain'
        fun l hl => htaken' l (List.mem_cons_of_mem _ hl)
      exact ⟨rfl, rfl⟩

/-- A search is bound to the groups that it enters: only the children of the last one can give the
target. -/
theorem Enters.search_eq_some {rules inner : List Rule} {chain : List Link}
    (h : Enters rules chain inner) (htaken : ∀ l ∈ chain, l.Taken r s) :
    (search r s node rules).result = .ok (some target) ↔
      (search r s node inner).result = .ok (some target) := by
  induction h with
  | nil => rfl
  | group _ ih =>
    have hlink := htaken _ List.mem_cons_self
    rw [search_taken_eq_some hlink, target?_group_eq_some,
      ih fun l hl => htaken l (List.mem_cons_of_mem _ hl)]
    exact and_iff_right hlink.holds

end Rule

/-! ## The rules of a node -/

namespace Node

variable {n : Node} {rules : List Rule} {input : String}

/-- A node with rules goes on to what a search through them finds, with the answer under its
name. -/
theorem destination_eq_search (hrules : n.rules? = some rules) :
    n.destination r s input =
      Rule.search r (s.put n.name (.text input)) n.name rules >>= fun
        | some target => pure target
        | none => .raise (.indeterminate n.name .noRuleHolds) := by
  rw [destination, wayOn, hrules]
  rfl

theorem destination_result_eq_ok (hrules : n.rules? = some rules) :
    (n.destination r s input).result = .ok target ↔
      (Rule.search r (s.put n.name (.text input)) n.name rules).result = .ok (some target) := by
  rw [destination, wayOn, hrules, Inquiry.result_bind_eq_ok]
  constructor
  · rintro ⟨found, hf, h⟩
    cases found with
    | some t => cases h; exact hf
    | none => cases h
  · intro h
    exact ⟨some target, h, rfl⟩

/-- **The first match decides.** A node with rules goes on to a target if and only if a chain leads
down to it in which every rule holds and no rule before one of them does, with the answer under the
name of the node. There is at most one such chain, and its target is one that the rules declare.
Once a group is entered, only its children can give the target, whatever rules come after it; and
the start button of the node never does. -/
theorem destination_by_descent (hrules : n.rules? = some rules) (r : Registry) (s : State)
    (input : String) :
    (∀ target, (n.destination r s input).result = .ok target ↔
        ∃ chain, Rule.Descends rules chain target ∧
          ∀ l ∈ chain, l.Taken r (s.put n.name (.text input))) ∧
      (∀ chain target chain' target',
        Rule.Descends rules chain target → (∀ l ∈ chain, l.Taken r (s.put n.name (.text input))) →
        Rule.Descends rules chain' target' → (∀ l ∈ chain', l.Taken r (s.put n.name (.text input))) →
        chain = chain' ∧ target = target') ∧
      (∀ target, (n.destination r s input).result = .ok target →
        target ∈ Rule.allOutcomes rules) ∧
      (∀ chain inner, Rule.Enters rules chain inner →
        (∀ l ∈ chain, l.Taken r (s.put n.name (.text input))) →
        ∀ target, (n.destination r s input).result = .ok target ↔
          ∃ chain', Rule.Descends inner chain' target ∧
            ∀ l ∈ chain', l.Taken r (s.put n.name (.text input))) ∧
      ∀ n' : Node, n'.name = n.name → n'.rules? = n.rules? →
        n'.destination r s input = n.destination r s input := by
  refine ⟨fun target => ?_, fun _ _ _ _ h ht h' ht' => h.unique ht h' ht', fun target h => ?_,
    fun chain inner h ht target => ?_, fun n' hname hrules' => ?_⟩
  · rw [destination_result_eq_ok hrules, Rule.search_eq_some]
  · exact Rule.mem_allOutcomes_of_search rules ((destination_result_eq_ok hrules).mp h)
  · rw [destination_result_eq_ok hrules, h.search_eq_some ht, Rule.search_eq_some]
  · unfold destination wayOn withInput
    rw [hname, hrules', hrules]

/-- A node with a group in its rules, and a start button too. -/
def askingStay : Node :=
  ⟨"stay", [.startButton "elsewhere",
    .rules [.goTo (.equals "stay" "none") "out",
      .group (.oneOf "stay" ["short", "long"])
        [.goTo (.equals "stay" "long") "visa", .goTo .otherwise "pass"],
      .goTo .otherwise "help"]], ⟨[]⟩⟩

/-- At that node a short stay leads through the group, past its first child. -/
theorem destination_by_descent_askingStay :
    (askingStay.destination .empty (.start "stay") "short").result = .ok "pass" ∧
      ∀ target, (askingStay.destination .empty (.start "stay") "short").result = .ok target ↔
        ∃ chain, Rule.Descends [.goTo (.equals "stay" "long") "visa", .goTo .otherwise "pass"]
          chain target ∧ ∀ l ∈ chain, l.Taken .empty ((State.start "stay").put "stay" (.text "short")) := by
  have hrules : askingStay.rules? = some _ := rfl
  obtain ⟨-, -, -, henters, -⟩ := destination_by_descent hrules .empty (State.start "stay") "short"
  have hgroup : Rule.Enters [.goTo (.equals "stay" "none") "out", .group (.oneOf "stay" ["short", "long"])
      [.goTo (.equals "stay" "long") "visa", .goTo .otherwise "pass"], .goTo .otherwise "help"]
      [⟨[.goTo (.equals "stay" "none") "out"], .group (.oneOf "stay" ["short", "long"])
        [.goTo (.equals "stay" "long") "visa", .goTo .otherwise "pass"]⟩] _ :=
    @Rule.Enters.group [_] _ _ _ _ _ .nil
  refine ⟨rfl, henters _ _ hgroup ?_⟩
  intro l hl
  obtain rfl := List.mem_singleton.mp hl
  refine ⟨fun q hq => ?_, rfl⟩
  obtain rfl := List.mem_singleton.mp hq
  rfl

end Node

end Interview
