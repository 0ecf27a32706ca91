import Interview.Proofs.Manuscript.Compilation
import Interview.Proofs.Manuscript.Expansion

/-!
# Which fault a manuscript has

A manuscript is assembled source by source. What a source makes, a node or a fault, depends on
nothing but the source, the snippets and the host. If a name is repeated, that is the fault; else
it is the fault of the first source that has one; else the nodes make up the flow in order.

* `Manuscript.Makes`: what a source makes, by how far it gets.
* `Manuscript.node_eq_iff`: this is what is computed.
* `Manuscript.Makes.node?_eq`: the fault of a source names that source.
* `Manuscript.exists_of_firstRepeated`: the first repeated name.
* `Manuscript.flow_source_by_source`: what a manuscript makes, in every case.
-/

namespace Interview

/-- The node that has the defect. -/
def Defect.node : Defect → String
  | unknownOperator node _ => node
  | unknownCountryTable node _ _ => node
  | missingOption node _ _ => node

/-- The node that a fault is about, if it is about one. -/
def ManuscriptFault.node? : ManuscriptFault → Option String
  | duplicateNode _ => none
  | unknownSnippet node _ => some node
  | unreadable node _ => some node
  | defective defect => some defect.node

/-! ## Defects are those of the node -/

/-- If there is a defect, it is one of this node. -/
def DefectsOf {α : Type} (node : String) (x : Except Defect α) : Prop :=
  ∀ d, x = .error d → d.node = node

section

variable {α β : Type} {node : String} {x : Except Defect α} {r : Registry}

theorem defectsOf_ok (a : α) : DefectsOf node (.ok a) := by
  intro d h
  cases h

theorem defectsOf_error {d : Defect} (h : d.node = node) : DefectsOf (α := α) node (.error d) := by
  intro d' h'
  cases h'
  exact h

theorem DefectsOf.bind {f : α → Except Defect β} (hx : DefectsOf node x)
    (hf : ∀ a, DefectsOf node (f a)) : DefectsOf node (x >>= f) := by
  cases x with
  | error d => exact defectsOf_error (hx d rfl)
  | ok a => exact hf a

namespace Predicate

theorem defectsOf_ofOperator (subject operator value : String) :
    DefectsOf node (ofOperator node subject operator value) := by
  unfold ofOperator
  split
  · exact defectsOf_ok _
  · split
    · exact defectsOf_ok _
    · exact defectsOf_error rfl

mutual

theorem defectsOf_ofClause (c : Clause) : DefectsOf node (ofClause node c) := by
  match c with
  | .comparison subject operator value => exact defectsOf_ofOperator subject operator value
  | .membership subject values => exact defectsOf_ok _
  | .named name => exact defectsOf_ok _
  | .otherwise => exact defectsOf_ok _
  | .conjunction members => exact (defectsOf_ofClauses members).bind fun _ => defectsOf_ok _
  | .call function arguments => exact defectsOf_ok _

theorem defectsOf_ofClauses (cs : List Clause) : DefectsOf node (ofClauses node cs) := by
  match cs with
  | [] => exact defectsOf_ok _
  | c :: cs =>
    refine (defectsOf_ofClause c).bind fun _ => ?_
    exact (defectsOf_ofClauses cs).bind fun _ => defectsOf_ok _

end

end Predicate

namespace Rule

mutual

theorem defectsOf_ofBullet (b : Bullet) : DefectsOf node (ofBullet node b) := by
  match b with
  | .goTo condition target =>
    exact (Predicate.defectsOf_ofClause condition).bind fun _ => defectsOf_ok _
  | .group condition children =>
    refine (defectsOf_ofBullets children).bind fun _ => ?_
    exact (Predicate.defectsOf_ofClause condition).bind fun _ => defectsOf_ok _

theorem defectsOf_ofBullets (bs : List Bullet) : DefectsOf node (ofBullets node bs) := by
  match bs with
  | [] => exact defectsOf_ok _
  | b :: bs =>
    refine (defectsOf_ofBullet b).bind fun _ => ?_
    exact (defectsOf_ofBullets bs).bind fun _ => defectsOf_ok _

end

end Rule

theorem Question.defectsOf_ofTag (tag : QuestionTag) : DefectsOf node (ofTag node r tag) := by
  have hcountries : DefectsOf node (tag.countries node r) := by
    unfold QuestionTag.countries
    split
    · exact defectsOf_error rfl
    · split
      · exact defectsOf_error rfl
      · exact defectsOf_ok _
  have hform : DefectsOf node (AnswerForm.ofTag node r tag) := by
    unfold AnswerForm.ofTag
    cases tag.kind with
    | country => exact hcountries.bind fun _ => defectsOf_ok _
    | _ => exact defectsOf_ok _
  exact hform.bind fun _ => defectsOf_ok _

namespace Element

mutual

theorem defectsOf_ofBlock (b : Block) : DefectsOf node (ofBlock node r b) := by
  match b with
  | .heading text => exact defectsOf_ok _
  | .paragraph text => exact defectsOf_ok _
  | .question tag => exact (Question.defectsOf_ofTag tag).bind fun _ => defectsOf_ok _
  | .startButton target => exact defectsOf_ok _
  | .nextSteps text => exact defectsOf_ok _
  | .conditional condition thenBlocks elseBlocks =>
    refine (defectsOf_ofBlocks thenBlocks).bind fun _ => ?_
    refine (defectsOf_ofBlocks elseBlocks).bind fun _ => ?_
    exact (Predicate.defectsOf_ofClause condition).bind fun _ => defectsOf_ok _
  | .rules bullets => exact (Rule.defectsOf_ofBullets bullets).bind fun _ => defectsOf_ok _

theorem defectsOf_ofBlocks (bs : List Block) : DefectsOf node (ofBlocks node r bs) := by
  match bs with
  | [] => exact defectsOf_ok _
  | b :: bs =>
    refine (defectsOf_ofBlock b).bind fun _ => ?_
    exact (defectsOf_ofBlocks bs).bind fun _ => defectsOf_ok _

end

end Element

/-- Every defect of a document names the node that the document is for. -/
theorem Node.defectsOf_ofDocument (d : Document) : DefectsOf node (ofDocument node r d) :=
  (Element.defectsOf_ofBlocks d.body).bind fun _ => defectsOf_ok _

end

/-! ## Snippets -/

namespace Snippet

variable {snippets : Table} {e : ManuscriptFault}

/-- Putting snippets in fails only for want of a snippet. -/
theorem expand_eq_error {source : Source} (h : expand snippets source = .error e) :
    ∃ name, e = .unknownSnippet source.name name ∧ snippets[name]? = none := by
  obtain ⟨before, l, after, name, -, ⟨-, hnone⟩, -, rfl⟩ :=
    expandLines_eq_error_iff.mp (expand_eq_error_iff.mp h)
  exact ⟨name, rfl, hnone⟩

end Snippet

/-! ## One source -/

namespace Manuscript

variable {m : Manuscript} {snippets : Snippet.Table} {r : Registry} {e : ManuscriptFault}
  {source : Source} {sources : List Source}

/-- What a source makes by itself: its snippets are put in, it is read, and it is typed. -/
inductive Makes (snippets : Snippet.Table) (r : Registry) (source : Source) :
    Except ManuscriptFault Node → Prop
  /-- The first step fails: a snippet is not there. -/
  | unknownSnippet {name : String}
    (htext : Snippet.expand snippets source = .error (.unknownSnippet source.name name))
    (hnone : snippets[name]? = none) :
    Makes snippets r source (.error (.unknownSnippet source.name name))
  /-- The second step fails. -/
  | unreadable {text : String} {cause : Misreading}
    (htext : Snippet.expand snippets source = .ok text)
    (hread : Document.ofText? text = .error cause) :
    Makes snippets r source (.error (.unreadable source.name cause))
  /-- The third step fails. -/
  | defective {text : String} {d : Document} {defect : Defect}
    (htext : Snippet.expand snippets source = .ok text) (hread : Document.ofText? text = .ok d)
    (htype : Node.ofDocument source.name r d = .error defect) :
    Makes snippets r source (.error (.defective defect))
  /-- No step fails. -/
  | node {text : String} {d : Document} {n : Node}
    (htext : Snippet.expand snippets source = .ok text) (hread : Document.ofText? text = .ok d)
    (htype : Node.ofDocument source.name r d = .ok n) : Makes snippets r source (.ok n)

/-- What a source makes is what is computed from it. -/
theorem node_eq_iff {x : Except ManuscriptFault Node} :
    node snippets r source = x ↔ Makes snippets r source x := by
  constructor
  · rintro rfl
    unfold node
    cases htext : Snippet.expand snippets source with
    | error e =>
      obtain ⟨name, rfl, hnone⟩ := Snippet.expand_eq_error htext
      exact .unknownSnippet htext hnone
    | ok text =>
      simp only [bind, Except.bind]
      cases hread : Document.ofText? text with
      | error cause => exact .unreadable htext hread
      | ok d =>
        cases htype : Node.ofDocument source.name r d with
        | error defect => simpa [htype] using Makes.defective htext hread htype
        | ok n => simpa [htype] using Makes.node htext hread htype
  · intro h
    unfold node
    cases h with
    | unknownSnippet htext hnone => rw [htext]; rfl
    | unreadable htext hread => simp [htext, hread, bind, Except.bind]
    | defective htext hread htype => simp [htext, hread, htype, bind, Except.bind]
    | node htext hread htype => simp [htext, hread, htype, bind, Except.bind]

/-- The fault of a source names that source. -/
theorem Makes.node?_eq (h : Makes snippets r source (.error e)) : e.node? = some source.name := by
  cases h with
  | unknownSnippet htext hnone => rfl
  | unreadable htext hread => rfl
  | defective htext hread htype => exact congrArg some (Node.defectsOf_ofDocument _ _ htype)

/-! ## All sources -/

/-- The first repeated name: none before it is repeated, and it is one of them. -/
theorem exists_of_firstRepeated {seen names : List String} {name : String}
    (h : firstRepeated seen names = some name) :
    ∃ before after, names = before ++ name :: after ∧ before.Nodup ∧ (∀ n ∈ before, n ∉ seen) ∧
      (name ∈ seen ∨ name ∈ before) := by
  induction names generalizing seen with
  | nil => cases h
  | cons n ns ih =>
    rw [firstRepeated] at h
    split at h
    · rename_i hseen
      cases h
      exact ⟨[], ns, rfl, .nil, by simp, .inl (by simpa using hseen)⟩
    · rename_i hseen
      obtain ⟨before, after, rfl, hnodup, hnew, hname⟩ := ih h
      refine ⟨n :: before, after, rfl, ?_, ?_, ?_⟩
      · exact List.nodup_cons.mpr ⟨fun hn => hnew n hn List.mem_cons_self, hnodup⟩
      · intro k hk
        rcases List.mem_cons.mp hk with rfl | hk
        · simpa using hseen
        · exact fun hks => hnew k hk (List.mem_cons_of_mem _ hks)
      · rcases hname with hname | hname
        · rcases List.mem_cons.mp hname with rfl | hname
          · exact .inr List.mem_cons_self
          · exact .inl hname
        · exact .inr (List.mem_cons_of_mem _ hname)

/-- A repeated name is the fault, whatever the texts are. -/
theorem flow_of_not_nodup (h : ¬ (m.sources.map (·.name)).Nodup) :
    ∃ before source after, m.sources = before ++ source :: after ∧ (before.map (·.name)).Nodup ∧
      source.name ∈ before.map (·.name) ∧ m.flow r = .error (.duplicateNode source.name) := by
  cases hd : firstRepeated [] (m.sources.map (·.name)) with
  | none => exact absurd (firstRepeated_eq_none.mp hd).1 h
  | some name =>
    have hflow : m.flow r = .error (.duplicateNode name) := by
      rw [flow, hd]
    obtain ⟨before, after, hsplit, hnodup, -, hname⟩ := exists_of_firstRepeated hd
    obtain ⟨sources, rest, hsources, rfl, hrest⟩ := List.map_eq_append_iff.mp hsplit
    obtain ⟨source, after, rfl, rfl, -⟩ := List.map_eq_cons_iff.mp hrest
    exact ⟨sources, source, after, hsources, hnodup, by simpa using hname, hflow⟩

theorem flow_of_nodup (h : (m.sources.map (·.name)).Nodup) :
    m.flow r = (m.sources.mapM (node m.snippets r)).map fun ns => ⟨m.cover.name, ns⟩ := by
  rw [flow, firstRepeated_eq_none.mpr ⟨h, by simp⟩]
  cases m.sources.mapM (node m.snippets r) <;> rfl

/-- Among the nodes of some sources is that of each. -/
theorem exists_node_of_mem {ns : List Node}
    (h : List.Forall₂ (fun source n => Makes snippets r source (.ok n)) sources ns)
    (hs : source ∈ sources) : ∃ n ∈ ns, Makes snippets r source (.ok n) := by
  induction h with
  | nil => cases hs
  | cons hn _ ih =>
    rcases List.mem_cons.mp hs with rfl | hs
    · exact ⟨_, List.mem_cons_self, hn⟩
    · obtain ⟨n, hmem, hn⟩ := ih hs
      exact ⟨n, List.mem_cons_of_mem _ hmem, hn⟩

theorem mapM_node_eq_ok {ns : List Node} :
    sources.mapM (node snippets r) = .ok ns ↔
      List.Forall₂ (fun source n => Makes snippets r source (.ok n)) sources ns := by
  simp only [Except.mapM_eq_ok, node_eq_iff]

theorem Makes.unique {x y : Except ManuscriptFault Node} (hx : Makes snippets r source x)
    (hy : Makes snippets r source y) : x = y :=
  (node_eq_iff.mpr hx).symm.trans (node_eq_iff.mpr hy)

/-- If a source has a fault, the first one that has is the fault of the manuscript. -/
theorem flow_of_makes_error (h : (m.sources.map (·.name)).Nodup) (hs : source ∈ m.sources)
    (he : Makes m.snippets r source (.error e)) :
    ∃ before source after e, m.sources = before ++ source :: after ∧
      (∀ b ∈ before, ∃ n, Makes m.snippets r b (.ok n)) ∧ Makes m.snippets r source (.error e) ∧
      e.node? = some source.name ∧ m.flow r = .error e := by
  cases hns : m.sources.mapM (node m.snippets r) with
  | ok ns =>
    obtain ⟨n, -, hn⟩ := exists_node_of_mem (mapM_node_eq_ok.mp hns) hs
    cases hn.unique he
  | error e =>
    obtain ⟨before, source, after, hsplit, hbefore, hsource⟩ := Except.exists_of_mapM_eq_error hns
    simp only [node_eq_iff] at hbefore hsource
    refine ⟨before, source, after, e, hsplit, hbefore, hsource, hsource.node?_eq, ?_⟩
    rw [flow_of_nodup h, hns]
    rfl

/-- If no source has a fault, their nodes make up the flow. -/
theorem flow_of_makes_ok (h : (m.sources.map (·.name)).Nodup)
    (hs : ∀ source ∈ m.sources, ∃ n, Makes m.snippets r source (.ok n)) :
    ∃ f, m.flow r = .ok f ∧ f.name = m.cover.name ∧
      List.Forall₂ (fun source n => Makes m.snippets r source (.ok n)) m.sources f.nodes ∧
      f.nodeNames = m.sources.map (·.name) ∧
      ∀ source ∈ m.sources, ∃ n, f.node? source.name = some n ∧
        Makes m.snippets r source (.ok n) := by
  cases hns : m.sources.mapM (node m.snippets r) with
  | error e =>
    obtain ⟨before, source, after, hsplit, -, hsource⟩ := Except.exists_of_mapM_eq_error hns
    obtain ⟨n, hn⟩ := hs source (by simp [hsplit])
    cases hn.unique (node_eq_iff.mp hsource)
  | ok ns =>
    have hflow : m.flow r = .ok ⟨m.cover.name, ns⟩ := by
      rw [flow_of_nodup h, hns]
      rfl
    have hmakes := mapM_node_eq_ok.mp hns
    refine ⟨_, hflow, rfl, hmakes, nodeNames_of_flow hflow, fun source hsource => ?_⟩
    obtain ⟨n, hmem, hn⟩ := exists_node_of_mem hmakes hsource
    have hname : n.name = source.name := name_of_node (node_eq_iff.mpr hn)
    exact ⟨n, (Flow.node?_eq_some (nodup_of_flow hflow)).mpr ⟨hmem, hname⟩, hn⟩

/-- **Source by source.** Each source makes one node or one fault by itself. If a name is repeated,
the first source with a name that occurred before it gives the fault, whatever the texts are. Else,
if a source has a fault, that of the first one is the fault, and it names that source. Else the
flow is named after the cover, its nodes are those of the sources in order and have their names,
and each of these names finds the node of its source. -/
theorem flow_source_by_source (m : Manuscript) (r : Registry) :
    (∀ source, ∃! x, Makes m.snippets r source x) ∧
    (¬ (m.sources.map (·.name)).Nodup →
      ∃ before source after, m.sources = before ++ source :: after ∧
        (before.map (·.name)).Nodup ∧ source.name ∈ before.map (·.name) ∧
        m.flow r = .error (.duplicateNode source.name)) ∧
    ((m.sources.map (·.name)).Nodup →
      (∃ source ∈ m.sources, ∃ e, Makes m.snippets r source (.error e)) →
      ∃ before source after e, m.sources = before ++ source :: after ∧
        (∀ b ∈ before, ∃ n, Makes m.snippets r b (.ok n)) ∧ Makes m.snippets r source (.error e) ∧
        e.node? = some source.name ∧ m.flow r = .error e) ∧
    ((m.sources.map (·.name)).Nodup →
      (∀ source ∈ m.sources, ∃ n, Makes m.snippets r source (.ok n)) →
      ∃ f, m.flow r = .ok f ∧ f.name = m.cover.name ∧
        List.Forall₂ (fun source n => Makes m.snippets r source (.ok n)) m.sources f.nodes ∧
        f.nodeNames = m.sources.map (·.name) ∧
        ∀ source ∈ m.sources, ∃ n, f.node? source.name = some n ∧
          Makes m.snippets r source (.ok n)) := by
  refine ⟨fun source => ⟨_, node_eq_iff.mp rfl, fun y hy => hy.unique (node_eq_iff.mp rfl)⟩,
    flow_of_not_nodup, ?_, flow_of_makes_ok⟩
  rintro h ⟨source, hs, e, he⟩
  exact flow_of_makes_error h hs he

/-- A visit with one name for two documents. -/
def visitTwice : Manuscript := { visit with outcomes := [⟨"form", "$IF"⟩] }

/-- A visit with two documents that have faults. -/
def visitFaulty : Manuscript :=
  { visit with
    questions := [⟨"form", "\x7b\x7bsnippet: fees\x7d\x7d"⟩], outcomes := [⟨"home", "$IF"⟩] }

/-- All three outcomes. -/
theorem flow_source_by_source_visit :
    (¬ (visitTwice.sources.map (·.name)).Nodup ∧
      ∃ name, visitTwice.flow .empty = .error (.duplicateNode name)) ∧
    ((visitFaulty.sources.map (·.name)).Nodup ∧
      Makes ∅ .empty ⟨"form", "\x7b\x7bsnippet: fees\x7d\x7d"⟩
        (.error (.unknownSnippet "form" "fees")) ∧
      ∃ source ∈ visitFaulty.sources, ∃ e, e.node? = some source.name ∧
        visitFaulty.flow .empty = .error e) ∧
    (visit.sources.map (·.name)).Nodup ∧
      ∃ f, visit.flow .empty = .ok f ∧ f.nodeNames = ["visit", "form", "home"] := by
  have htwice : ¬ (visitTwice.sources.map (·.name)).Nodup := by decide
  have hfaulty : (visitFaulty.sources.map (·.name)).Nodup := by decide
  have hvisit : (visit.sources.map (·.name)).Nodup := by decide
  have hfees : Makes ∅ .empty ⟨"form", "\x7b\x7bsnippet: fees\x7d\x7d"⟩
      (.error (.unknownSnippet "form" "fees")) :=
    .unknownSnippet (by decide +kernel) (by decide +kernel)
  obtain ⟨f, hf, -⟩ : ∃ f, visit.flow .empty = .ok f ∧ true = true :=
    exists_flow_of_any (fun _ => true) (by decide +kernel)
  have hmakes : ∀ source ∈ visit.sources, ∃ n, Makes visit.snippets .empty source (.ok n) :=
    fun source hs => by
      obtain ⟨n, -, hn⟩ := exists_node_of_mem
        ((flow_eq_ok.mp hf).2.2.imp fun source n hn => node_eq_iff.mp hn) hs
      exact ⟨n, hn⟩
  obtain ⟨-, repeated, -, -, -, -, hname⟩ := (flow_source_by_source visitTwice .empty).2.1 htwice
  obtain ⟨before, faulty, rest, e, hsplit, -, -, hnode, hflow⟩ :=
    (flow_source_by_source visitFaulty .empty).2.2.1 hfaulty
      ⟨_, by simp [visitFaulty, sources], _, hfees⟩
  obtain ⟨f', hf', -, -, hnames, -⟩ := (flow_source_by_source visit .empty).2.2.2 hvisit hmakes
  exact ⟨⟨htwice, _, hname⟩, ⟨hfaulty, hfees, faulty, by simp [hsplit], e, hnode, hflow⟩, hvisit,
    f', hf', hnames⟩

end Manuscript

end Interview
