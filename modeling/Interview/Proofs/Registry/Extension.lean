import Interview.Proofs.Session.Replay

/-!
# A host that knows more

A registry may be extended by names that it lacked. An outcome that does not fail for want of a name
is settled: no name that was asked for was missing, so a host that knows more is asked the same and
tells the same.

* `Registry.ExtendedBy`, `Registry.extendedBy_insert`: what the larger registry keeps.
* `Inquiry.Persists`, `Inquiry.Persists.bind`: a settled outcome stays, step by step.
* `Predicate.persists_evaluate`, `Rule.persists_search`, `Guide.persists_replayFrom`: the three
  recursions of a session.
* `Registry.ExtendedBy.settled_outcomes`: no settled outcome changes when a registry is extended.
-/

namespace Interview

/-- Each predicate and each function of `r` is one of `r'`, under the same name. The tables of
countries do not matter to a session. -/
structure Registry.ExtendedBy (r r' : Registry) : Prop where
  predicate : ∀ {name : String} {p : State → Bool},
    r.predicates[name]? = some p → r'.predicates[name]? = some p
  function : ∀ {name : String} {f : List String → State → Bool},
    r.functions[name]? = some f → r'.functions[name]? = some f

variable {r r' : Registry} {s : State}

namespace Inquiry

variable {α β : Type} {i j : Inquiry α}

/-- The outcome does not fail for want of a name. -/
def Settled (i : Inquiry α) : Prop := ∀ name, i.result ≠ .error (.unknownPredicate name)

/-- If `i` is settled, `j` has the same result and made the same calls. -/
def Persists (i j : Inquiry α) : Prop := i.Settled → j = i

theorem Persists.refl (i : Inquiry α) : i.Persists i := fun _ => rfl

theorem persists_raise {name : String} : (raise (.unknownPredicate name)).Persists j :=
  fun h => absurd rfl (h name)

/-- A sequence persists if each of its steps does. -/
theorem Persists.bind {f g : α → Inquiry β} (hi : i.Persists j) (hf : ∀ a, (f a).Persists (g a)) :
    (i >>= f).Persists (j >>= g) := by
  intro hsettled
  -- A name that the first step lacks is lacking in the whole.
  have hfirst : i.Settled := fun name h => hsettled name (result_bind_eq_error.mpr (.inl h))
  rw [hi hfirst]
  cases hres : i.result with
  | error e => rw [bind_error hres, bind_error hres]
  | ok a =>
    have hrest : (f a).Settled := fun name h =>
      hsettled name (result_bind_eq_error.mpr (.inr ⟨a, hres, h⟩))
    rw [bind_ok hres, bind_ok hres, hf a hrest]

end Inquiry

open Inquiry

/-! ## Registries -/

namespace Registry

/-- A predicate under a new name extends a registry. -/
theorem extendedBy_insert {name : String} (h : r.predicates[name]? = none) (p : State → Bool) :
    r.ExtendedBy { r with predicates := r.predicates.insert name p } where
  predicate {other q} hq := by
    rw [Std.ExtTreeMap.getElem?_insert]
    split
    · rename_i hsame
      rw [← Std.LawfulEqCmp.eq_of_compare hsame, h] at hq
      cases hq
    · exact hq
  function h := h

theorem persists_ask (h : r.ExtendedBy r') (name : String) :
    (r.ask name s).Persists (r'.ask name s) := by
  unfold ask
  cases hp : r.predicates[name]? with
  | none => exact persists_raise
  | some p =>
    rw [h.predicate hp]
    exact .refl _

theorem persists_apply (h : r.ExtendedBy r') (name : String) (arguments : List String) :
    (r.apply name arguments s).Persists (r'.apply name arguments s) := by
  unfold apply
  cases hf : r.functions[name]? with
  | none => exact persists_raise
  | some f =>
    rw [h.function hf]
    exact .refl _

end Registry

/-! ## Predicates -/

namespace Predicate

mutual

/-- An evaluation needs the registry only for the names that it comes to. -/
theorem persists_evaluate (h : r.ExtendedBy r') (p : Predicate) :
    (p.evaluate r s).Persists (p.evaluate r' s) := by
  match p with
  | equals _ _ | oneOf _ _ | compares _ _ _ | otherwise =>
    rw [evaluate, evaluate]
    exact .refl _
  | named name =>
    rw [evaluate, evaluate]
    exact Registry.persists_ask h name
  | all members =>
    rw [evaluate, evaluate]
    exact persists_evaluateAll h members
  | call name arguments =>
    rw [evaluate, evaluate]
    exact Registry.persists_apply h name arguments

theorem persists_evaluateAll (h : r.ExtendedBy r') (ps : List Predicate) :
    (evaluateAll r s ps).Persists (evaluateAll r' s ps) := by
  match ps with
  | [] => exact .refl _
  | p :: ps =>
    rw [evaluateAll, evaluateAll]
    refine (persists_evaluate h p).bind fun holds => ?_
    cases holds with
    | true => exact persists_evaluateAll h ps
    | false => exact .refl _

end

end Predicate

/-! ## Rules -/

namespace Rule

variable {node : String}

mutual

theorem persists_target? (h : r.ExtendedBy r') (rule : Rule) :
    (target? r s node rule).Persists (target? r' s node rule) := by
  match rule with
  | goTo p target =>
    rw [target?, target?]
    exact (Predicate.persists_evaluate h p).bind fun _ => .refl _
  | group p children =>
    rw [target?, target?]
    refine (Predicate.persists_evaluate h p).bind fun holds => ?_
    cases holds with
    | true => exact (persists_search h children).bind fun _ => .refl _
    | false => exact .refl _

/-- A search needs the registry only for the rules that it comes to. -/
theorem persists_search (h : r.ExtendedBy r') (rules : List Rule) :
    (search r s node rules).Persists (search r' s node rules) := by
  match rules with
  | [] => exact .refl _
  | rule :: rules =>
    rw [search, search]
    refine (persists_target? h rule).bind fun found => ?_
    cases found with
    | some target => exact .refl _
    | none => exact persists_search h rules

end

end Rule

/-! ## Sessions -/

namespace Node

variable {n : Node} {input : String}

theorem persists_destination (h : r.ExtendedBy r') :
    (n.destination r s input).Persists (n.destination r' s input) := by
  unfold destination wayOn
  cases n.rules? with
  | some rules => exact (Rule.persists_search h rules).bind fun _ => .refl _
  | none => exact .refl _

theorem persists_answer (h : r.ExtendedBy r') :
    (n.answer r s input).Persists (n.answer r' s input) := by
  unfold answer
  exact (persists_destination h).bind fun _ => .refl _

end Node

namespace Guide

variable {flow : Flow} {inputs : List String}

/-- A replay goes on in the larger registry as in the smaller one, answer by answer. -/
theorem persists_replayFrom (h : r.ExtendedBy r') :
    (replayFrom ⟨flow, r⟩ s inputs).Persists (replayFrom ⟨flow, r'⟩ s inputs) := by
  have hanswer : ∀ {s input}, (answer ⟨flow, r⟩ s input).Persists (answer ⟨flow, r'⟩ s input) :=
    (Persists.refl _).bind fun _ => Node.persists_answer h
  induction inputs generalizing s with
  | nil => exact .refl _
  | cons input inputs ih =>
    rw [replayFrom, replayFrom]
    refine (Persists.refl _).bind fun n => ?_
    split
    · exact .refl _
    · exact hanswer.bind fun _ => ih

end Guide

namespace Registry

/-- **Settled outcomes stay.** Extending a registry changes no evaluation, no step and no replay
that did not fail for want of a name: result and calls are the same. -/
theorem ExtendedBy.settled_outcomes (h : r.ExtendedBy r') :
    (∀ (p : Predicate) (s : State), (p.evaluate r s).Persists (p.evaluate r' s)) ∧
      (∀ (n : Node) (s : State) (input : String),
        (n.destination r s input).Persists (n.destination r' s input) ∧
          (n.answer r s input).Persists (n.answer r' s input)) ∧
      ∀ (flow : Flow) (inputs : List String),
        (Guide.replay ⟨flow, r⟩ inputs).Persists (Guide.replay ⟨flow, r'⟩ inputs) :=
  ⟨fun p _ => Predicate.persists_evaluate h p,
    fun _ _ _ => ⟨Node.persists_destination h, Node.persists_answer h⟩,
    fun _ _ => Guide.persists_replayFrom h⟩

/-- A registry with one predicate, which holds where the answer to `door` is `key`. -/
def doorkeeper : Registry where
  predicates := (∅ : Std.ExtTreeMap String (State → Bool)).insert "member?" fun s =>
    (s.getText "door").toOption == some "key"
  functions := ∅
  countryTables := ∅

/-- The registry that also knows guests. -/
def host : Registry :=
  { doorkeeper with predicates := doorkeeper.predicates.insert "guest?" fun _ => true }

/-- A flow that asks for members first and for guests after them. -/
def house : Flow where
  name := "door"
  nodes := [
    ⟨"door", [.rules [.goTo (.named "member?") "hall", .goTo (.named "guest?") "porch"]], ⟨[]⟩⟩,
    ⟨"hall", [], ⟨[]⟩⟩, ⟨"porch", [], ⟨[]⟩⟩]

/-- A member is let in by both. A guest is known to the larger registry only. -/
theorem ExtendedBy.settled_outcomes_member :
    doorkeeper.ExtendedBy host ∧ (Guide.replay ⟨house, doorkeeper⟩ ["key"]).Settled ∧
      Guide.replay ⟨house, host⟩ ["key"] = Guide.replay ⟨house, doorkeeper⟩ ["key"] ∧
      ¬ (Guide.replay ⟨house, doorkeeper⟩ ["bell"]).Settled ∧
      Guide.replay ⟨house, host⟩ ["bell"] ≠ Guide.replay ⟨house, doorkeeper⟩ ["bell"] := by
  have hhost : doorkeeper.ExtendedBy host := extendedBy_insert rfl _
  have hmember : (Guide.replay ⟨house, doorkeeper⟩ ["key"]).result = .ok _ := rfl
  have hsettled : (Guide.replay ⟨house, doorkeeper⟩ ["key"]).Settled := by
    intro name h
    rw [hmember] at h
    cases h
  have hbell : (Guide.replay ⟨house, doorkeeper⟩ ["bell"]).result =
      .error (.unknownPredicate "guest?") := rfl
  have hguest : (Guide.replay ⟨house, host⟩ ["bell"]).result = .ok _ := rfl
  refine ⟨hhost, hsettled, hhost.settled_outcomes.2.2 house ["key"] hsettled,
    fun h => h "guest?" hbell, fun h => ?_⟩
  rw [h, hbell] at hguest
  cases hguest

end Registry

end Interview
