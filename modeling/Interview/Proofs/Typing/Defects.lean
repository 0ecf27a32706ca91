import Interview.Proofs.Document.Conditions
import Interview.Proofs.Question.Writing

/-!
# Which defect a document has

Typing comes to the operators and the question tags of a document in a fixed order: the blocks one
after the other, the branches of a conditional before its condition, the bullets of a group before
the condition of the group, the members of a conjunction from left to right. It fails at the first
of these sites that is defective, and it fails nowhere else. A document without a defect is typed
part by part: each part of the node stands where the part of the document stands that it comes from.

* `Site.Sound`, `Site.Defective`: when nothing is wrong at a site, and what is wrong otherwise.
* `Document.sites`: the sites of a document, in the order of typing.
* `Predicate.Typed`, `Rule.Typed`, `Element.Typed`: a part of a document and the part of a node
  that it becomes.
* `Element.failure?_ofBlocks`: typing fails with the first defect.
* `Element.ofBlocks_eq_ok`: typing succeeds part by part.
* `Node.ofDocument_first_defect`: both for a document.
-/

namespace Interview

open QuestionTag

variable {node : String} {r : Registry}

/-! ## Sites -/

/-- A place of a document that may be defective. -/
inductive Site where
  /-- The operator of a comparison. -/
  | operator (operator : String)
  /-- A question. -/
  | question (tag : QuestionTag)

/-- The operators that a comparison may have. -/
def knownOperators : List String := ["is", "==", "<", "<=", ">", ">="]

namespace Site

/-- Nothing is wrong: the operator is known; the last option `countries` of a question about a
country names a table of the host. -/
def Sound (r : Registry) : Site → Prop
  | operator op => op ∈ knownOperators
  | question tag => tag.kind = .country →
      ∃ table, LastOption tag.options "countries" (some table) ∧ table ∈ r.countryTables

/-- What is wrong at a site of a node. -/
inductive Defective (node : String) (r : Registry) : Site → Defect → Prop
  | unknownOperator {op : String} : op ∉ knownOperators →
      Defective node r (operator op) (.unknownOperator node op)
  | missingOption {tag : QuestionTag} : tag.kind = .country →
      LastOption tag.options "countries" none →
      Defective node r (question tag) (.missingOption node tag.name "countries")
  | unknownCountryTable {tag : QuestionTag} {table : String} : tag.kind = .country →
      LastOption tag.options "countries" (some table) → table ∉ r.countryTables →
      Defective node r (question tag) (.unknownCountryTable node tag.name table)

end Site

namespace Clause

mutual

/-- The sites of a condition. -/
def sites : Clause → List Site
  | comparison _ operator _ => [.operator operator]
  | conjunction members => allSites members
  | membership _ _ | named _ | otherwise | call _ _ => []

/-- The sites of some conditions. -/
def allSites : List Clause → List Site
  | [] => []
  | c :: cs => sites c ++ allSites cs

end

end Clause

namespace Bullet

mutual

/-- The sites of a bullet. Those of the bullets under it come first. -/
def sites : Bullet → List Site
  | goTo c _ => c.sites
  | group c kids => allSites kids ++ c.sites

/-- The sites of some bullets. -/
def allSites : List Bullet → List Site
  | [] => []
  | b :: bs => sites b ++ allSites bs

end

end Bullet

namespace Block

mutual

/-- The sites of a block. Those of the branches of a conditional come first. -/
def sites : Block → List Site
  | question tag => [.question tag]
  | conditional c bs es => allSites bs ++ (allSites es ++ c.sites)
  | rules bullets => Bullet.allSites bullets
  | heading _ | paragraph _ | startButton _ | nextSteps _ => []

/-- The sites of some blocks. -/
def allSites : List Block → List Site
  | [] => []
  | b :: bs => sites b ++ allSites bs

end

end Block

/-- The sites of a document, in the order of typing. -/
def Document.sites (d : Document) : List Site := Block.allSites d.body

/-! ## What the parts become -/

/-- The predicate that a condition becomes: one for each member of a conjunction, in order. -/
inductive Predicate.Typed : Clause → Predicate → Prop
  | equals {subject operator expected : String} : operator = "is" ∨ operator = "==" →
      Typed (.comparison subject operator expected) (.equals subject expected)
  | compares {subject bound : String} (c : Comparison) :
      Typed (.comparison subject c.symbol bound) (.compares subject c bound)
  | oneOf {subject : String} {values : List String} :
      Typed (.membership subject values) (.oneOf subject values)
  | named {name : String} : Typed (.named name) (.named name)
  | otherwise : Typed .otherwise .otherwise
  | all {cs : List Clause} {ps : List Predicate} : List.Forall₂ Typed cs ps →
      Typed (.conjunction cs) (.all ps)
  | call {name : String} {arguments : List String} :
      Typed (.call name arguments) (.call name arguments)

/-- The rule that a bullet becomes: one for each bullet under it, in order. -/
inductive Rule.Typed : Bullet → Rule → Prop
  | goTo {c : Clause} {p : Predicate} {target : String} : p.Typed c →
      Typed (.goTo c target) (.goTo p target)
  | group {c : Clause} {p : Predicate} {kids : List Bullet} {rules : List Rule} : p.Typed c →
      List.Forall₂ Typed kids rules → Typed (.group c kids) (.group p rules)

/-- The element that a block becomes: one for each block of its branches, in order. -/
inductive Element.Typed (r : Registry) : Block → Element → Prop
  | heading {text : String} : Typed r (.heading text) (.heading text)
  | paragraph {text : String} : Typed r (.paragraph text) (.paragraph text)
  | startButton {target : String} : Typed r (.startButton target) (.startButton target)
  | nextSteps {text : String} : Typed r (.nextSteps text) (.nextSteps text)
  | question {tag : QuestionTag} {otherName : Option String} {form : AnswerForm} :
      LastOption tag.options "alias" otherName → tag.Asks r form →
      Typed r (.question tag) (.question ⟨tag.name, otherName, form⟩)
  | conditional {c : Clause} {p : Predicate} {bs cs : List Block} {es fs : List Element} :
      Predicate.Typed c p → List.Forall₂ (Typed r) bs es → List.Forall₂ (Typed r) cs fs →
      Typed r (.conditional c bs cs) (.conditional p es fs)
  | rules {bullets : List Bullet} {rules : List Rule} : List.Forall₂ Rule.Typed bullets rules →
      Typed r (.rules bullets) (.rules rules)

/-! ## The first defect -/

/-- The fault of a result, if there is one. -/
def failure? {ε α : Type} : Except ε α → Option ε
  | .ok _ => none
  | .error e => some e

section

variable {ε α β γ : Type} {x : Except ε α}

theorem failure?_eq_none : failure? x = none ↔ ∃ a, x = .ok a := by
  cases x <;> simp [failure?]

theorem failure?_eq_some {e : ε} : failure? x = some e ↔ x = .error e := by
  cases x <;> simp [failure?]

/-- A sequence fails with its first fault, if the second step fails alike for every value. -/
theorem failure?_bind {f : α → Except ε β} {o : Option ε} (h : ∀ a, failure? (f a) = o) :
    failure? (x >>= f) = (failure? x).or o := by
  cases x with
  | error e => rfl
  | ok a => exact h a

/-- A step whose value is only used fails like itself. -/
theorem failure?_bind_pure (f : α → β) : failure? (x >>= fun a => pure (f a)) = failure? x := by
  cases x <;> rfl

/-- Two steps whose values are only used fail like the first of them that fails. -/
theorem failure?_bind_bind_pure {y : Except ε β} (f : α → β → γ) :
    failure? (x >>= fun a => y >>= fun b => pure (f a b)) = (failure? x).or (failure? y) :=
  failure?_bind fun a => failure?_bind_pure (f a)

end

namespace Site

/-- What is found wrong at a site of a node. -/
def defect? (node : String) (r : Registry) : Site → Option Defect
  | operator op => if op ∈ knownOperators then none else some (.unknownOperator node op)
  | question tag => if tag.kind = .country then failure? (tag.countries node r) else none

variable {site : Site}

theorem defect?_eq_none : site.defect? node r = none ↔ site.Sound r := by
  cases site with
  | operator op => simp [defect?, Sound]
  | question tag =>
    have htable : ∀ t, (∃ cs, r.countryTables[t]? = some cs) ↔ t ∈ r.countryTables := fun t => by
      rw [Std.ExtTreeMap.mem_iff_isSome_getElem?, Option.isSome_iff_exists]
    simp only [defect?, Sound, ite_eq_right_iff, failure?_eq_none, countries_eq_ok]
    refine imp_congr_right fun _ => ?_
    rw [exists_comm]
    simp only [exists_and_left, htable]

theorem defect?_eq_some {e : Defect} : site.defect? node r = some e ↔ site.Defective node r e := by
  cases site with
  | operator op =>
    simp only [defect?]
    constructor
    · intro h
      split at h
      · cases h
      · rename_i hop
        cases h
        exact .unknownOperator hop
    · intro h
      cases h with
      | unknownOperator hop => rw [if_neg hop]
  | question tag =>
    simp only [defect?, Option.ite_none_right_eq_some, failure?_eq_some, countries]
    constructor
    · rintro ⟨hk, h⟩
      split at h
      · rename_i hnone
        cases h
        exact .missingOption hk (option?_eq_iff.mp hnone)
      · rename_i table hsome
        split at h
        · rename_i habsent
          cases h
          refine .unknownCountryTable hk (option?_eq_iff.mp hsome) ?_
          simp [Std.ExtTreeMap.mem_iff_isSome_getElem?, habsent]
        · cases h
    · intro h
      cases h with
      | missingOption hk hnone =>
        rw [option?_eq_iff.mpr hnone]
        exact ⟨hk, rfl⟩
      | unknownCountryTable hk hsome habsent =>
        rw [option?_eq_iff.mpr hsome]
        simp only [Std.ExtTreeMap.getElem?_eq_none habsent]
        exact ⟨hk, trivial⟩

end Site

theorem mem_knownOperators {op : String} :
    op ∈ knownOperators ↔ (op = "is" ∨ op = "==") ∨ (Comparison.ofSymbol? op).isSome := by
  constructor
  · intro h
    simp only [knownOperators, List.mem_cons, List.not_mem_nil, or_false] at h
    rcases h with rfl | rfl | rfl | rfl | rfl | rfl <;> decide
  · rintro ((rfl | rfl) | h)
    · decide
    · decide
    · obtain ⟨c, hc⟩ := Option.isSome_iff_exists.mp h
      obtain rfl := Comparison.symbol_of_ofSymbol? hc
      cases c <;> decide

namespace Predicate

-- Typing recurses on conditions, bullets and blocks, each with its lists; so do the sites. The
-- theorems on failures and on successes below follow that recursion, one for a part and one for a
-- list of parts.

theorem failure?_ofOperator (subject op value : String) :
    failure? (ofOperator node subject op value) = (Site.operator op).defect? node r := by
  unfold ofOperator
  simp only [Site.defect?, mem_knownOperators]
  split
  · rename_i h
    rw [if_pos (.inl h)]
    rfl
  · rename_i h
    cases hc : Comparison.ofSymbol? op <;> simp [h, failure?]

mutual

theorem failure?_ofClause (c : Clause) :
    failure? (ofClause node c) = c.sites.findSome? (Site.defect? node r) := by
  match c with
  | .comparison subject op value =>
    rw [ofClause, Clause.sites, failure?_ofOperator (r := r)]
    simp
  | .conjunction members =>
    rw [ofClause, Clause.sites, failure?_bind_pure, failure?_ofClauses members]
  | .membership _ _ | .named _ | .otherwise | .call _ _ => rfl

theorem failure?_ofClauses (cs : List Clause) :
    failure? (ofClauses node cs) = (Clause.allSites cs).findSome? (Site.defect? node r) := by
  match cs with
  | [] => rfl
  | c :: cs =>
    rw [ofClauses, Clause.allSites, List.findSome?_append, failure?_bind_bind_pure,
      failure?_ofClause c, failure?_ofClauses cs]

end

end Predicate

namespace Rule

mutual

theorem failure?_ofBullet (b : Bullet) :
    failure? (ofBullet node b) = b.sites.findSome? (Site.defect? node r) := by
  match b with
  | .goTo c target =>
    rw [ofBullet, Bullet.sites, failure?_bind_pure, Predicate.failure?_ofClause c]
  | .group c kids =>
    rw [ofBullet, Bullet.sites, List.findSome?_append, failure?_bind_bind_pure,
      failure?_ofBullets kids, Predicate.failure?_ofClause c]

theorem failure?_ofBullets (bs : List Bullet) :
    failure? (ofBullets node bs) = (Bullet.allSites bs).findSome? (Site.defect? node r) := by
  match bs with
  | [] => rfl
  | b :: bs =>
    rw [ofBullets, Bullet.allSites, List.findSome?_append, failure?_bind_bind_pure,
      failure?_ofBullet b, failure?_ofBullets bs]

end

end Rule

/-- The only site of a question tag is the tag. -/
theorem Question.failure?_ofTag (tag : QuestionTag) :
    failure? (Question.ofTag node r tag) = (Site.question tag).defect? node r := by
  rw [Question.ofTag, failure?_bind_pure]
  simp only [AnswerForm.ofTag, Site.defect?]
  cases hk : tag.kind with
  | country => rw [failure?_bind_pure, if_pos rfl]
  | choice | text | salary | date => rfl

namespace Element

mutual

theorem failure?_ofBlock (b : Block) :
    failure? (ofBlock node r b) = b.sites.findSome? (Site.defect? node r) := by
  match b with
  | .question tag =>
    rw [ofBlock, Block.sites, failure?_bind_pure, Question.failure?_ofTag]
    simp
  | .conditional c bs es =>
    rw [ofBlock, Block.sites, List.findSome?_append, List.findSome?_append, ← failure?_ofBlocks bs,
      ← failure?_ofBlocks es, ← Predicate.failure?_ofClause c]
    exact failure?_bind fun thenElements => failure?_bind_bind_pure _
  | .rules bullets =>
    rw [ofBlock, Block.sites, failure?_bind_pure, Rule.failure?_ofBullets bullets]
  | .heading _ | .paragraph _ | .startButton _ | .nextSteps _ => rfl

/-- Typing some blocks fails with the first defect of their sites. -/
theorem failure?_ofBlocks (bs : List Block) :
    failure? (ofBlocks node r bs) = (Block.allSites bs).findSome? (Site.defect? node r) := by
  match bs with
  | [] => rfl
  | b :: bs =>
    rw [ofBlocks, Block.allSites, List.findSome?_append, failure?_bind_bind_pure,
      failure?_ofBlock b, failure?_ofBlocks bs]

end

end Element

/-! ## Part by part -/

namespace Predicate

theorem ofOperator_eq_ok {subject op value : String} {p : Predicate} :
    ofOperator node subject op value = .ok p ↔ p.Typed (.comparison subject op value) := by
  unfold ofOperator
  constructor
  · intro h
    split at h
    · rename_i hop
      cases h
      exact .equals hop
    · split at h
      · rename_i c hc
        cases h
        obtain rfl := Comparison.symbol_of_ofSymbol? hc
        exact .compares c
      · cases h
  · intro h
    cases h with
    | equals hop => rw [if_pos hop]
    | compares c =>
      -- No symbol of a comparison is one of the two words for equality.
      rw [if_neg (by cases c <;> decide), Comparison.ofSymbol?_symbol]

mutual

theorem ofClause_eq_ok (c : Clause) {p : Predicate} : ofClause node c = .ok p ↔ p.Typed c := by
  match c with
  | .comparison subject op value =>
    rw [ofClause]
    exact ofOperator_eq_ok
  | .conjunction members =>
    rw [ofClause, Except.bind_pure_eq_ok]
    simp only [ofClauses_eq_ok_iff_typed members]
    constructor
    · rintro ⟨ps, hps, rfl⟩
      exact .all hps
    · intro h
      cases h with
      | all hps => exact ⟨_, hps, rfl⟩
  | .membership _ _ | .named _ | .otherwise | .call _ _ =>
    constructor
    · rintro ⟨⟩
      constructor
    · rintro ⟨⟩
      rfl

theorem ofClauses_eq_ok_iff_typed (cs : List Clause) {ps : List Predicate} :
    ofClauses node cs = .ok ps ↔ List.Forall₂ Typed cs ps := by
  match cs with
  | [] => simp [ofClauses, eq_comm]
  | c :: cs =>
    rw [ofClauses, Except.bind_bind_pure_eq_ok, List.forall₂_cons_left_iff]
    simp only [ofClause_eq_ok c, ofClauses_eq_ok_iff_typed cs]

end

end Predicate

namespace Rule

mutual

theorem ofBullet_eq_ok (b : Bullet) {rule : Rule} :
    ofBullet node b = .ok rule ↔ rule.Typed b := by
  match b with
  | .goTo c target =>
    rw [ofBullet, Except.bind_pure_eq_ok]
    simp only [Predicate.ofClause_eq_ok c]
    constructor
    · rintro ⟨p, hp, rfl⟩
      exact .goTo hp
    · intro h
      cases h with
      | goTo hp => exact ⟨_, hp, rfl⟩
  | .group c kids =>
    rw [ofBullet, Except.bind_bind_pure_eq_ok]
    simp only [Predicate.ofClause_eq_ok c, ofBullets_eq_ok kids]
    constructor
    · rintro ⟨rules, p, hrules, hp, rfl⟩
      exact .group hp hrules
    · intro h
      cases h with
      | group hp hrules => exact ⟨_, _, hrules, hp, rfl⟩

theorem ofBullets_eq_ok (bs : List Bullet) {rules : List Rule} :
    ofBullets node bs = .ok rules ↔ List.Forall₂ Typed bs rules := by
  match bs with
  | [] => simp [ofBullets, eq_comm]
  | b :: bs =>
    rw [ofBullets, Except.bind_bind_pure_eq_ok, List.forall₂_cons_left_iff]
    simp only [ofBullet_eq_ok b, ofBullets_eq_ok bs]

end

end Rule

namespace Element

mutual

theorem ofBlock_eq_ok (b : Block) {e : Element} : ofBlock node r b = .ok e ↔ e.Typed r b := by
  match b with
  | .question tag =>
    rw [ofBlock_iff]
    constructor
    · rintro ⟨x, form, rfl, hx, hform⟩
      exact .question hx hform
    · intro h
      cases h with
      | question hx hform => exact ⟨_, _, rfl, hx, hform⟩
  | .conditional c bs cs =>
    rw [ofBlock]
    constructor
    · intro h
      obtain ⟨es, hes, h⟩ := Except.bind_eq_ok.mp h
      obtain ⟨fs, p, hfs, hp, rfl⟩ := Except.bind_bind_pure_eq_ok.mp h
      exact .conditional ((Predicate.ofClause_eq_ok c).mp hp) ((ofBlocks_eq_ok bs).mp hes)
        ((ofBlocks_eq_ok cs).mp hfs)
    · intro h
      cases h with
      | conditional hp hes hfs =>
        rw [(ofBlocks_eq_ok bs).mpr hes, (ofBlocks_eq_ok cs).mpr hfs,
          (Predicate.ofClause_eq_ok c).mpr hp]
        rfl
  | .rules bullets =>
    rw [ofBlock, Except.bind_pure_eq_ok]
    simp only [Rule.ofBullets_eq_ok bullets]
    constructor
    · rintro ⟨rules, hrules, rfl⟩
      exact .rules hrules
    · intro h
      cases h with
      | rules hrules => exact ⟨_, hrules, rfl⟩
  | .heading _ | .paragraph _ | .startButton _ | .nextSteps _ =>
    constructor
    · rintro ⟨⟩
      constructor
    · rintro ⟨⟩
      rfl

/-- Some blocks are typed one by one, in order. -/
theorem ofBlocks_eq_ok (bs : List Block) {es : List Element} :
    ofBlocks node r bs = .ok es ↔ List.Forall₂ (Typed r) bs es := by
  match bs with
  | [] => simp [ofBlocks, eq_comm]
  | b :: bs =>
    rw [ofBlocks, Except.bind_bind_pure_eq_ok, List.forall₂_cons_left_iff]
    simp only [ofBlock_eq_ok b, ofBlocks_eq_ok bs]

end

end Element

/-! ## Documents -/

namespace Node

/-- **The first defect is reported.** A document becomes a node if and only if no site of it is
defective. Otherwise typing fails with what is wrong at the first site that is defective, in the
order of typing, and says so of this node. The elements of the node are what the blocks of the
document become, one for each block, in order and at every depth. -/
theorem ofDocument_first_defect (name : String) (r : Registry) (d : Document) :
    ((∃ n, Node.ofDocument name r d = .ok n) ↔ ∀ site ∈ d.sites, site.Sound r) ∧
      (∀ e, Node.ofDocument name r d = .error e ↔
        ∃ before site after, d.sites = before ++ site :: after ∧
          (∀ earlier ∈ before, earlier.Sound r) ∧ site.Defective name r e) ∧
      ∀ n, Node.ofDocument name r d = .ok n ↔ n.name = name ∧
        n.frontMatter.entries = d.frontMatter ∧
        List.Forall₂ (Element.Typed r) d.body n.elements := by
  have hfailure : failure? (Node.ofDocument name r d) =
      d.sites.findSome? (Site.defect? name r) := by
    rw [Node.ofDocument, failure?_bind_pure, Element.failure?_ofBlocks, Document.sites]
  refine ⟨?_, fun e => ?_, fun n => ?_⟩
  · rw [← failure?_eq_none, hfailure, List.findSome?_eq_none_iff]
    simp only [Site.defect?_eq_none]
  · rw [← failure?_eq_some, hfailure, List.findSome?_eq_some_iff]
    simp only [Site.defect?_eq_none, Site.defect?_eq_some, and_comm]
  · rw [Node.ofDocument, Except.bind_pure_eq_ok]
    simp only [Element.ofBlocks_eq_ok]
    constructor
    · rintro ⟨es, hes, rfl⟩
      exact ⟨rfl, rfl, hes⟩
    · rintro ⟨rfl, hfront, hes⟩
      exact ⟨_, hes, by rw [← hfront]⟩

/-- A document with two unknown operators. The one that is written first stands above the other. -/
def lenientDocument : Document where
  frontMatter := []
  body := [.rules [.group (.comparison "age" "!=" "3")
    [.goTo (.conjunction [.comparison "child" "==" "yes", .comparison "age" "=<" "9"]) "school"]]]

/-- Of these two, the lower one is reported. -/
theorem ofDocument_first_defect_lenient :
    Node.ofDocument "n" .empty lenientDocument = .error (.unknownOperator "n" "=<") :=
  ((ofDocument_first_defect "n" .empty lenientDocument).2.1 _).mpr
    ⟨[.operator "=="], .operator "=<", [.operator "!="], rfl,
      List.forall_mem_singleton.mpr (show "==" ∈ knownOperators by decide),
      .unknownOperator (by decide)⟩

end Node

end Interview
