import Interview.Proofs.Except
import Interview.Proofs.Predicate.Rendering
import Interview.Proofs.Rule.Search

/-!
# The predicates that documents give rise to

The conditions of a document stand at its conditionals and its bullets, at every depth; the
predicates of a node stand at the same places. All conditions of a document that was read have
spellings, and each predicate of its node is typed from one of them.

* `Block.Reads.spelled`: every condition of a document has a spelling.
* `Element.typedFrom_ofBlocks`: every predicate is typed from a condition of the document.
* `Predicate.Authored.wellFormed`: so its own condition is well formed.
* `Predicate.read_render`: a predicate with plain values is read back from what is shown of it.
-/

namespace Interview

open Reader Text Word

/-! ## The conditions of a document -/

namespace Bullet

mutual

/-- The conditions of a bullet and of the bullets under it. -/
def clauses : Bullet → List Clause
  | goTo c _ => [c]
  | group c kids => c :: allClauses kids

/-- The conditions of some bullets. -/
def allClauses : List Bullet → List Clause
  | [] => []
  | b :: bs => clauses b ++ allClauses bs

end

theorem spelled_of_read {w : Nat} {c : Clause} {o : Option String} {s : List Char}
    (h : Read w c o s) : ∃ v, Clause.Spells v c := by
  obtain ⟨t, hstem, -⟩ := head_iff.mp h
  obtain ⟨g, m, k, u, -, -, -, -, -, -, hclause⟩ := stem_iff.mp hstem
  obtain ⟨v, -, hv⟩ := Clause.spells_of_clause hclause
  exact ⟨v, hv⟩

theorem spelled_of_laid {w : Nat} {bs : List Bullet} {ls : List Line} (h : Laid Read w bs ls) :
    ∀ c ∈ allClauses bs, ∃ v, Clause.Spells v c := by
  induction h with
  | nil => nofun
  | goTo hrow _ ih => exact List.forall_mem_cons.mpr ⟨spelled_of_read hrow, ih⟩
  | group hrow _ _ _ _ ihkids ih =>
    refine List.forall_mem_append.mpr ⟨List.forall_mem_cons.mpr ⟨spelled_of_read hrow, ihkids⟩, ih⟩

end Bullet

namespace Block

mutual

/-- The conditions of a block and of the blocks in its branches. -/
def clauses : Block → List Clause
  | conditional c bs es => c :: (allClauses bs ++ allClauses es)
  | rules bullets => Bullet.allClauses bullets
  | heading _ | paragraph _ | question _ | startButton _ | nextSteps _ => []

/-- The conditions of some blocks. -/
def allClauses : List Block → List Clause
  | [] => []
  | b :: bs => clauses b ++ allClauses bs

end

variable {ls ms r : List Line} {b : Block} {bs : List Block}

theorem spelled_of_openingText {s : List Char} {c : Clause} (h : openingText s = .ok c []) :
    ∃ v, Clause.Spells v c := by
  rw [openingText_eq] at h
  obtain ⟨_, _, -, h⟩ := bind_eq_ok.mp h
  rw [within_eq_ok, commit_eq_ok] at h
  unfold lastCondition at h
  simp only [bind_eq_ok, pure_apply, Reply.ok.injEq] at h
  obtain ⟨_, _, hclause, _, _, -, _, _, -, rfl, -⟩ := h
  obtain ⟨v, -, hv⟩ := Clause.spells_of_clause hclause
  exact ⟨v, hv⟩

theorem Spans.spelled (h : Spans ms b) : ∀ c ∈ b.clauses, ∃ v, Clause.Spells v c := by
  cases h with
  | rules _ h => exact Bullet.spelled_of_laid h
  | heading | startButton | question | choice | nextSteps | paragraph => nofun

/-- Every condition of a document that was read has a spelling. -/
theorem Reads.spelled (h : Reads ls bs r) : ∀ c ∈ allClauses bs, ∃ v, Clause.Spells v c := by
  induction h with
  | stop _ => nofun
  | vacant _ _ ih => exact ih
  | plain h _ _ ih => exact List.forall_mem_append.mpr ⟨h.spelled, ih⟩
  | conditional hopen _ _ _ ihthen ih =>
    refine List.forall_mem_append.mpr
      ⟨List.forall_mem_cons.mpr ⟨spelled_of_openingText hopen, ?_⟩, ih⟩
    exact List.forall_mem_append.mpr ⟨ihthen, nofun⟩
  | conditionalElse hopen _ _ _ _ _ ihthen ihelse ih =>
    refine List.forall_mem_append.mpr
      ⟨List.forall_mem_cons.mpr ⟨spelled_of_openingText hopen, ?_⟩, ih⟩
    exact List.forall_mem_append.mpr ⟨ihthen, ihelse⟩

end Block

/-! ## The predicates of a node -/

namespace Element

mutual

/-- The predicates of an element, of the elements in its branches and of its rules. -/
def predicates : Element → List Predicate
  | conditional p es fs => p :: (allPredicates es ++ allPredicates fs)
  | rules rs => Rule.allPredicates rs
  | heading _ | paragraph _ | question _ | startButton _ | nextSteps _ => []

/-- The predicates of some elements. -/
def allPredicates : List Element → List Predicate
  | [] => []
  | e :: es => predicates e ++ allPredicates es

end

end Element

/-! ## Typing keeps the places -/

section Typing

variable {node : String} {r : Registry}

/-- The predicate is typed from one of these conditions. -/
def Predicate.TypedFrom (node : String) (cs : List Clause) (p : Predicate) : Prop :=
  ∃ c ∈ cs, ofClause node c = .ok p

open Predicate

theorem Predicate.TypedFrom.mono {cs ds : List Clause} {p : Predicate} (h : TypedFrom node cs p)
    (hsub : cs ⊆ ds) : TypedFrom node ds p := by
  obtain ⟨c, hc, hp⟩ := h
  exact ⟨c, hsub hc, hp⟩

mutual

theorem Rule.typedFrom_ofBullet (b : Bullet) {rule : Rule} (h : Rule.ofBullet node b = .ok rule) :
    ∀ p ∈ rule.predicates, TypedFrom node b.clauses p := by
  match b with
  | .goTo c target =>
    rw [Rule.ofBullet] at h
    obtain ⟨p, hp, h⟩ := Except.bind_eq_ok.mp h
    cases h
    simpa [Rule.predicates] using ⟨c, List.mem_singleton_self c, hp⟩
  | .group c kids =>
    rw [Rule.ofBullet] at h
    obtain ⟨rules, hrules, h⟩ := Except.bind_eq_ok.mp h
    obtain ⟨p, hp, h⟩ := Except.bind_eq_ok.mp h
    cases h
    refine List.forall_mem_cons.mpr ⟨⟨c, List.mem_cons_self, hp⟩, fun q hq => ?_⟩
    exact (Rule.typedFrom_ofBullets kids hrules q hq).mono (List.subset_cons_self ..)

theorem Rule.typedFrom_ofBullets (bs : List Bullet) {rules : List Rule}
    (h : Rule.ofBullets node bs = .ok rules) :
    ∀ p ∈ Rule.allPredicates rules, TypedFrom node (Bullet.allClauses bs) p := by
  match bs with
  | [] =>
    cases h
    nofun
  | b :: bs =>
    rw [Rule.ofBullets] at h
    obtain ⟨rule, hrule, h⟩ := Except.bind_eq_ok.mp h
    obtain ⟨rest, hrest, h⟩ := Except.bind_eq_ok.mp h
    cases h
    refine List.forall_mem_append.mpr ⟨fun q hq => ?_, fun q hq => ?_⟩
    · exact (Rule.typedFrom_ofBullet b hrule q hq).mono (List.subset_append_left ..)
    · exact (Rule.typedFrom_ofBullets bs hrest q hq).mono (List.subset_append_right ..)

end

mutual

theorem Element.typedFrom_ofBlock (b : Block) {e : Element} (h : Element.ofBlock node r b = .ok e) :
    ∀ p ∈ e.predicates, TypedFrom node b.clauses p := by
  match b with
  | .conditional c bs fs =>
    rw [Element.ofBlock] at h
    obtain ⟨es, hes, h⟩ := Except.bind_eq_ok.mp h
    obtain ⟨gs, hgs, h⟩ := Except.bind_eq_ok.mp h
    obtain ⟨p, hp, h⟩ := Except.bind_eq_ok.mp h
    cases h
    refine List.forall_mem_cons.mpr ⟨⟨c, List.mem_cons_self, hp⟩,
      List.forall_mem_append.mpr ⟨fun q hq => ?_, fun q hq => ?_⟩⟩
    · refine (Element.typedFrom_ofBlocks bs hes q hq).mono fun d hd => ?_
      exact List.mem_cons_of_mem _ (List.mem_append_left _ hd)
    · refine (Element.typedFrom_ofBlocks fs hgs q hq).mono fun d hd => ?_
      exact List.mem_cons_of_mem _ (List.mem_append_right _ hd)
  | .rules bullets =>
    rw [Element.ofBlock] at h
    obtain ⟨rules, hrules, h⟩ := Except.bind_eq_ok.mp h
    cases h
    exact Rule.typedFrom_ofBullets bullets hrules
  | .question tag =>
    rw [Element.ofBlock] at h
    obtain ⟨q, -, h⟩ := Except.bind_eq_ok.mp h
    cases h
    nofun
  | .heading _ | .paragraph _ | .startButton _ | .nextSteps _ =>
    cases h
    nofun

/-- Every predicate is typed from a condition of the document. -/
theorem Element.typedFrom_ofBlocks (bs : List Block) {es : List Element}
    (h : Element.ofBlocks node r bs = .ok es) :
    ∀ p ∈ Element.allPredicates es, TypedFrom node (Block.allClauses bs) p := by
  match bs with
  | [] =>
    cases h
    nofun
  | b :: bs =>
    rw [Element.ofBlocks] at h
    obtain ⟨e, he, h⟩ := Except.bind_eq_ok.mp h
    obtain ⟨rest, hrest, h⟩ := Except.bind_eq_ok.mp h
    cases h
    refine List.forall_mem_append.mpr ⟨fun q hq => ?_, fun q hq => ?_⟩
    · exact (Element.typedFrom_ofBlock b he q hq).mono (List.subset_append_left ..)
    · exact (Element.typedFrom_ofBlocks bs hrest q hq).mono (List.subset_append_right ..)

end

end Typing

/-! ## Reading back what is shown -/

namespace Predicate

/-- The predicate itself, or a member of it at any depth. -/
inductive PartOf (p : Predicate) : Predicate → Prop
  | whole : PartOf p p
  | member {q : Predicate} {members : List Predicate} : q ∈ members → PartOf p q →
      PartOf p (.all members)

/-- A predicate of a node that some text describes, or a part of one. -/
def Authored (p : Predicate) : Prop :=
  ∃ (text : String) (d : Document) (name : String) (r : Registry) (n : Node),
    Document.ofText? text = .ok d ∧ Node.ofDocument name r d = .ok n ∧
      ∃ q ∈ Element.allPredicates n.elements, p.PartOf q

variable {p q : Predicate}

theorem PartOf.wellFormed (h : p.PartOf q) (hq : q.toClause.WellFormed) :
    p.toClause.WellFormed := by
  induction h with
  | whole => exact hq
  | @member q members hmem _ ih =>
    obtain ⟨-, hall⟩ := hq
    rw [toClauses_eq_map] at hall
    exact ih (List.forall_mem_map.mp hall q hmem).wellFormed

/-- The condition that an authored predicate is shown as is well formed. -/
theorem Authored.wellFormed (h : p.Authored) : p.toClause.WellFormed := by
  obtain ⟨text, d, name, r, n, hd, hn, q, hq, hpart⟩ := h
  obtain ⟨ms, -, hreads⟩ := Document.ofText?_eq_ok.mp hd
  rw [Node.ofDocument] at hn
  obtain ⟨es, hes, hn⟩ := Except.bind_eq_ok.mp hn
  cases hn
  obtain ⟨c, hc, htyped⟩ := Element.typedFrom_ofBlocks d.body hes q hq
  obtain ⟨v, hv⟩ := hreads.spelled c hc
  exact hpart.wellFormed (wellFormed_toClause (Clause.wellFormed_of_spells hv) htyped)

/-- **What is shown of a predicate reads back.** The text that an authored predicate with plain
values is shown as is read to its end as a condition, and that is typed to the predicate again. So
no two such predicates are shown alike. -/
theorem read_render :
    (∀ p : Predicate, p.Authored → p.Plain → ∃ c, Clause.clause p.render.toList = .ok c [] ∧
      ∀ node, ofClause node c = .ok p) ∧
    ∀ p q : Predicate, p.Authored → p.Plain → q.Authored → q.Plain →
      p.render = q.render → p = q := by
  have hread : ∀ p : Predicate, p.Authored → p.Plain →
      Clause.clause p.render.toList = .ok p.toClause [] :=
    fun p hp hplain => clause_render hplain hp.wellFormed
  refine ⟨fun p hp hplain => ⟨_, hread p hp hplain, fun node => ofClause_toClause node p⟩, ?_⟩
  intro p q hp hplain hq hplain' hshown
  have hsame := hread p hp hplain
  rw [hshown, hread q hq hplain'] at hsame
  have htyped := ofClause_toClause "" p
  rw [← (Reply.ok.inj hsame).1, ofClause_toClause "" q] at htyped
  exact (Except.ok.inj htyped).symm

/-- A predicate with three members, as it is typed from `x == "a b" and f(c, d) and ok?`. -/
def admission : Predicate :=
  .all [.equals "x" "a b", .call "f" ["c", "d"], .named "ok?"]

theorem authored_admission : admission.Authored := by
  refine ⟨"* x == \"a b\" and f( c,d ) and ok? => e", ⟨[], [.rules [.goTo (.conjunction
    [.comparison "x" "==" "a b", .call "f" ["c", "d"], .named "ok?"]) "e"]]⟩, "n", .empty, _,
    by with_unfolding_all rfl, rfl, admission, List.mem_cons_self, .whole⟩

theorem read_render_admission : admission.Authored ∧ admission.Plain ∧
    admission.render = "x is 'a b' and f(c, d) and ok?" ∧
    (∃ c, Clause.clause "x is 'a b' and f(c, d) and ok?".toList = .ok c [] ∧
      ∀ node, ofClause node c = .ok admission) ∧
    ∀ q : Predicate, q.Authored → q.Plain → q.render = "x is 'a b' and f(c, d) and ok?" →
      q = admission := by
  have hbare : ∀ v ∈ ["c", "d"], BareValue v := by
    simp [BareValue, isBlank]
  have hplain : admission.Plain := by
    refine .all fun p hp => ?_
    simp only [List.mem_cons, List.not_mem_nil, or_false] at hp
    rcases hp with rfl | rfl | rfl
    · exact .equals (by decide)
    · exact .call hbare
    · exact .named
  have hshown : admission.render = "x is 'a b' and f(c, d) and ok?" := by decide +kernel
  refine ⟨authored_admission, hplain, hshown, ?_, fun q hq hqplain hsame => ?_⟩
  · exact hshown ▸ read_render.1 admission authored_admission hplain
  · exact read_render.2 q admission hq hqplain authored_admission hplain (hsame.trans hshown.symm)

end Predicate

end Interview
