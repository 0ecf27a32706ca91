import Interview.Evaluation

/-!
# The grouping of conjunctions

A conjunction is decided by its first member that does not hold, so only the order of the conditions
in it matters, not how conjunctions in conjunctions group them. What is kept is the value, the fault
and the calls to the host.

* `Predicate.conjuncts`: the conditions that a predicate is the conjunction of, in order.
* `Predicate.evaluate_eq_conjuncts`: a predicate is evaluated as its conjuncts are, one after the
  other.
* `Predicate.Regroups`: conjunctions in conjunctions grouped in another way.
* `Predicate.regroups_flatten`, `Predicate.flat_flatten`: every predicate can be regrouped so that no
  member of a conjunction is a conjunction.
* `Predicate.regroups_iff`: predicates regroup into each other if that makes them equal.
* `Predicate.evaluate_regrouped`: conjunction is sequential, and its grouping does not matter.
-/

namespace Interview

namespace Predicate

/-- One predicate is the other with conjunctions in conjunctions grouped in another way: the members
of one take its place, or are gathered into one, at any depth and any number of times. -/
inductive Regroups : Predicate → Predicate → Prop
  | refl (p : Predicate) : Regroups p p
  | splice (earlier members later : List Predicate) :
      Regroups (all (earlier ++ all members :: later)) (all (earlier ++ members ++ later))
  | member (earlier later : List Predicate) {p q : Predicate} : Regroups p q →
      Regroups (all (earlier ++ p :: later)) (all (earlier ++ q :: later))
  | symm {p q : Predicate} : Regroups p q → Regroups q p
  | trans {p q t : Predicate} : Regroups p q → Regroups q t → Regroups p t

mutual

/-- The conditions that a predicate is the conjunction of, in order. None is a conjunction. -/
def conjuncts : Predicate → List Predicate
  | all members => allConjuncts members
  | p => [p]

/-- The conditions that some predicates are the conjunction of, in order. -/
def allConjuncts : List Predicate → List Predicate
  | [] => []
  | p :: ps => conjuncts p ++ allConjuncts ps

end

/-- The predicate with the members of a conjunction in place of every conjunction in a
conjunction. -/
def flatten : Predicate → Predicate
  | all members => all (allConjuncts members)
  | p => p

/-- The predicate is no conjunction. -/
def Single (p : Predicate) : Prop := ∀ members, p ≠ all members

/-- No member of the predicate is a conjunction. -/
def Flat (p : Predicate) : Prop := ∀ members, p = all members → ∀ q ∈ members, q.Single

variable {r : Registry} {s : State} {p q : Predicate}

/-! ## Conjuncts -/

theorem allConjuncts_append (ps qs : List Predicate) :
    allConjuncts (ps ++ qs) = allConjuncts ps ++ allConjuncts qs := by
  induction ps with
  | nil => rfl
  | cons p ps ih => rw [List.cons_append, allConjuncts, allConjuncts, ih, List.append_assoc]

mutual

theorem single_of_mem_conjuncts (p : Predicate) (h : q ∈ conjuncts p) : q.Single := by
  match p with
  | all members => exact single_of_mem_allConjuncts members h
  | equals _ _ | oneOf _ _ | compares _ _ _ | named _ | otherwise | call _ _ =>
    obtain rfl := List.mem_singleton.mp h
    nofun

theorem single_of_mem_allConjuncts (ps : List Predicate) (h : q ∈ allConjuncts ps) :
    q.Single := by
  match ps with
  | [] => cases h
  | p :: ps =>
    rcases List.mem_append.mp h with h | h
    · exact single_of_mem_conjuncts p h
    · exact single_of_mem_allConjuncts ps h

end

/-- What a conjunction adds to is its members, what any other predicate adds to is itself. -/
theorem conjuncts_and (p q : Predicate) : (p.and q).conjuncts = p.conjuncts ++ q.conjuncts := by
  have hpair : allConjuncts [p, q] = p.conjuncts ++ q.conjuncts := by
    simp only [allConjuncts, List.append_nil]
  cases p with
  | all members =>
    rw [and, conjuncts, allConjuncts_append, conjuncts, allConjuncts, allConjuncts, List.append_nil]
  | _ => exact hpair

/-! ## Evaluation -/

theorem evaluateAll_singleton (r : Registry) (s : State) (p : Predicate) :
    evaluateAll r s [p] = p.evaluate r s := by
  have hlast : ∀ b : Bool, (if b then pure true else pure false : Inquiry Bool) = pure b := by
    intro b
    cases b <;> rfl
  simp only [evaluateAll, hlast, bind_pure]

mutual

/-- A predicate is evaluated as its conjuncts are, one after the other. -/
theorem evaluate_eq_conjuncts (p : Predicate) :
    p.evaluate r s = evaluateAll r s p.conjuncts := by
  match p with
  | all members =>
    rw [evaluate, conjuncts]
    exact evaluateAll_eq_allConjuncts members
  | equals _ _ | oneOf _ _ | compares _ _ _ | named _ | otherwise | call _ _ =>
    exact (evaluateAll_singleton r s _).symm

theorem evaluateAll_eq_allConjuncts (ps : List Predicate) :
    evaluateAll r s ps = evaluateAll r s (allConjuncts ps) := by
  match ps with
  | [] => rfl
  | p :: ps =>
    rw [allConjuncts, evaluateAll_append, evaluateAll, evaluate_eq_conjuncts p,
      evaluateAll_eq_allConjuncts ps]

end

/-- Conjunction is sequential. -/
theorem evaluate_and (r : Registry) (s : State) (p q : Predicate) :
    (p.and q).evaluate r s =
      p.evaluate r s >>= fun b => if b then q.evaluate r s else pure false := by
  rw [evaluate_eq_conjuncts (p.and q), conjuncts_and, evaluateAll_append,
    ← evaluate_eq_conjuncts p, ← evaluate_eq_conjuncts q]

theorem evaluate_and_of_true (h : (p.evaluate r s).result = .ok true) :
    (p.and q).evaluate r s =
      ⟨(p.evaluate r s).calls ++ (q.evaluate r s).calls, (q.evaluate r s).result⟩ := by
  rw [evaluate_and, Inquiry.bind_ok h, if_pos rfl]

theorem evaluate_and_of_not_true (h : (p.evaluate r s).result ≠ .ok true) :
    (p.and q).evaluate r s = p.evaluate r s := by
  rw [evaluate_and]
  generalize p.evaluate r s = i at h
  obtain ⟨calls, result⟩ := i
  cases result with
  | error e => exact Inquiry.bind_error rfl
  | ok holds =>
    cases holds with
    | true => exact absurd rfl h
    | false => simp [Inquiry.bind_ok (i := ⟨calls, .ok false⟩) rfl]

/-- Only the conjuncts of a predicate matter to its evaluation. -/
theorem evaluate_eq_of_conjuncts_eq (h : p.conjuncts = q.conjuncts) :
    p.evaluate r s = q.evaluate r s := by
  rw [evaluate_eq_conjuncts p, h, ← evaluate_eq_conjuncts q]

/-! ## Regrouping -/

theorem Regroups.conjuncts_eq (h : p.Regroups q) : p.conjuncts = q.conjuncts := by
  induction h with
  | refl => rfl
  | splice earlier members later =>
    simp only [conjuncts, allConjuncts_append, allConjuncts, List.append_assoc]
  | member earlier later _ ih => simp only [conjuncts, allConjuncts_append, allConjuncts, ih]
  | symm _ ih => exact ih.symm
  | trans _ _ ih ih' => exact ih.trans ih'

theorem flatten_all (members : List Predicate) :
    flatten (all members) = all (conjuncts (all members)) := rfl

theorem Regroups.flatten_eq (h : p.Regroups q) : p.flatten = q.flatten := by
  induction h with
  | refl => rfl
  | splice earlier members later =>
    rw [flatten_all, (Regroups.splice earlier members later).conjuncts_eq, ← flatten_all]
  | member earlier later hpq =>
    rw [flatten_all, (hpq.member earlier later).conjuncts_eq, ← flatten_all]
  | symm _ ih => exact ih.symm
  | trans _ _ ih ih' => exact ih.trans ih'

mutual

/-- A predicate can be regrouped into its flat form. -/
theorem regroups_flatten (p : Predicate) : p.Regroups p.flatten := by
  match p with
  | all members => exact regroups_allConjuncts members []
  | equals _ _ | oneOf _ _ | compares _ _ _ | named _ | otherwise | call _ _ => exact .refl _

/-- The members of a conjunction can be regrouped one after the other. -/
theorem regroups_allConjuncts (ps earlier : List Predicate) :
    (all (earlier ++ ps)).Regroups (all (earlier ++ allConjuncts ps)) := by
  match ps with
  | [] => exact .refl _
  | p :: ps =>
    have hrest := regroups_allConjuncts ps (earlier ++ conjuncts p)
    rw [List.append_assoc, List.append_assoc] at hrest
    refine .trans ?_ hrest
    match p with
    | all members =>
      have hmember := (regroups_flatten (all members)).member earlier ps
      have hsplice := Regroups.splice earlier (allConjuncts members) ps
      rw [List.append_assoc] at hsplice
      exact hmember.trans hsplice
    | equals _ _ | oneOf _ _ | compares _ _ _ | named _ | otherwise | call _ _ => exact .refl _

end

theorem flat_flatten (p : Predicate) : p.flatten.Flat := by
  intro members h q hq
  cases p with
  | all ps =>
    rw [flatten, all.injEq] at h
    exact single_of_mem_allConjuncts ps (h ▸ hq)
  | _ => cases h

/-- Predicates regroup into each other exactly if they have the same flat form. -/
theorem regroups_iff : p.Regroups q ↔ p.flatten = q.flatten := by
  constructor
  · exact Regroups.flatten_eq
  · intro h
    have hq := (regroups_flatten q).symm
    rw [← h] at hq
    exact (regroups_flatten p).trans hq

/-- **The grouping of conjunctions does not matter.** A conjunction of two predicates is evaluated as
the second one where the first one holds, after the calls of the first one, and as the first one
otherwise. Grouping to the left and to the right is the same; so is every other way of grouping,
among them the flat form, in which no member of a conjunction is a conjunction. Value, fault and
calls are all kept. -/
theorem evaluate_regrouped (r : Registry) (s : State) :
    (∀ p q : Predicate, (p.evaluate r s).result = .ok true →
        (p.and q).evaluate r s =
          ⟨(p.evaluate r s).calls ++ (q.evaluate r s).calls, (q.evaluate r s).result⟩) ∧
      (∀ p q : Predicate, (p.evaluate r s).result ≠ .ok true →
        (p.and q).evaluate r s = p.evaluate r s) ∧
      (∀ p q t : Predicate, ((p.and q).and t).evaluate r s = (p.and (q.and t)).evaluate r s) ∧
      (∀ p q : Predicate, p.Regroups q → p.evaluate r s = q.evaluate r s) ∧
      (∀ p q : Predicate, p.Regroups q ↔ p.flatten = q.flatten) ∧
      ∀ p : Predicate, p.Regroups p.flatten ∧ p.flatten.Flat ∧
        p.flatten.evaluate r s = p.evaluate r s := by
  have hregroups : ∀ p q : Predicate, p.Regroups q → p.evaluate r s = q.evaluate r s :=
    fun p q h => evaluate_eq_of_conjuncts_eq h.conjuncts_eq
  refine ⟨fun p q => evaluate_and_of_true, fun p q => evaluate_and_of_not_true, fun p q t => ?_,
    hregroups, fun p q => regroups_iff, fun p => ⟨regroups_flatten p, flat_flatten p, ?_⟩⟩
  · exact evaluate_eq_of_conjuncts_eq (by simp only [conjuncts_and, List.append_assoc])
  · exact (hregroups p p.flatten (regroups_flatten p)).symm

/-- A host with a predicate and a function, which both hold. -/
def porter : Registry where
  predicates := (∅ : Std.ExtTreeMap String (State → Bool)).insert "member?" fun _ => true
  functions := (∅ : Std.ExtTreeMap String (List String → State → Bool)).insert "within" fun _ _ => true
  countryTables := ∅

/-- Three conditions in groups of groups, one of which is empty. -/
def grouped : Predicate :=
  all [all [named "member?", all []], all [all [call "within" ["a"]], equals "key" "gold"]]

/-- Without a key the groups fail, after both calls. So does the conjunction with another condition,
which is not evaluated; and so does the flat form. -/
theorem evaluate_regrouped_grouped :
    grouped.flatten = all [named "member?", call "within" ["a"], equals "key" "gold"] ∧
      grouped.flatten.evaluate porter (.start "door") =
        ⟨[.predicate "member?", .function "within" ["a"]], .error (.undefinedValue "key")⟩ ∧
      (grouped.and (named "guest?")).evaluate porter (.start "door") =
        ⟨[.predicate "member?", .function "within" ["a"]], .error (.undefinedValue "key")⟩ ∧
      ((named "member?").and grouped).evaluate porter (.start "door") =
        ⟨[.predicate "member?", .predicate "member?", .function "within" ["a"]],
          .error (.undefinedValue "key")⟩ := by
  have hgrouped : grouped.evaluate porter (.start "door") =
      ⟨[.predicate "member?", .function "within" ["a"]], .error (.undefinedValue "key")⟩ := rfl
  obtain ⟨hholds, hfails, -, -, -, hflat⟩ := evaluate_regrouped porter (.start "door")
  refine ⟨rfl, (hflat grouped).2.2.trans hgrouped, (hfails _ _ ?_).trans hgrouped,
    (hholds _ _ rfl).trans ?_⟩
  · rw [hgrouped]
    nofun
  · rw [hgrouped]
    rfl

end Predicate

end Interview
