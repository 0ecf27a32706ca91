import Interview.Proofs.Document.Composition

/-!
# What a document that was read looks like

`Document.Formed d` says of every part of a document, blocks inside branches and bullets under
bullets included, what an author can have written there: texts are trimmed, names are identifiers,
lists that must not be empty are not. A document that no text spells need not be so.

* `Clause.formed_of_spells`, `Bullet.formed_of_laid`: conditions and bullets.
* `Prose.split_joined`: a paragraph has the lines that it was put together from.
* `Block.Spans.formed`, `Block.Reads.formed`: one block, and the blocks of a list.
* `Document.formed_of_ofText?`: every document that is read is formed.
-/

namespace Interview

open Reader Text Word

/-! ## Texts -/

namespace Text

variable {s r : List Char}

/-- A text on one line that is not empty and has no blank at its ends. -/
structure Phrase (s : List Char) : Prop where
  trimmed : trim s = s
  nonempty : s ≠ []
  oneLine : ∀ c ∈ s, Prose.isBreakChar c = false

theorem mem_of_mem_trim {c : Char} (h : c ∈ trim s) : c ∈ s := by
  have hstart : trim s <+: trimStart s := ⟨_, trimEnd_append_takeWhile _⟩
  exact (List.dropWhile_suffix isBlank).subset (hstart.subset h)

theorem phrase_trim (hfeed : '\n' ∉ s) (hreturn : '\r' ∉ s) (hne : trim s ≠ []) :
    Phrase (trim s) where
  trimmed := trim_trim s
  nonempty := hne
  oneLine c hc := by
    have hmem : c ∈ s := mem_of_mem_trim hc
    simp only [Prose.isBreakChar, Bool.or_eq_false_iff, beq_eq_false_iff_ne]
    exact ⟨fun h => hfeed (h ▸ hmem), fun h => hreturn (h ▸ hmem)⟩

theorem Phrase.not_feed (h : Phrase s) : '\n' ∉ s := fun hmem =>
  absurd (h.oneLine _ hmem) (by decide)

theorem Phrase.not_return (h : Phrase s) : '\r' ∉ s := fun hmem =>
  absurd (h.oneLine _ hmem) (by decide)

end Text

namespace Reader

variable {s r : List Char}

theorem phrase_of_restTrimmed {a : String} (h : restTrimmed s = .ok a r) (hfeed : '\n' ∉ s) :
    Phrase a.toList := by
  obtain ⟨hreturn, hne, rfl, -⟩ := restTrimmed_eq_ok.mp h
  rw [String.toList_ofList]
  exact phrase_trim hfeed hreturn hne

theorem identifier_of_read {n : String} (h : identifier s = .ok n r) : Identifier n.toList := by
  obtain ⟨w, hw, rfl, -⟩ := identifier_iff.mp h
  rwa [String.toList_ofList]

end Reader

/-! ## Conditions -/

namespace Clause

/-- The word `is`, or a run of operator characters other than the arrow. -/
def Operator (o : String) : Prop :=
  o = "is" ∨ o ≠ "" ∧ o ≠ "=>" ∧ ∀ c ∈ o.toList, c ∈ ['<', '>', '=', '!']

/-- What a condition without `and` is made of. -/
def Simple : Clause → Prop
  | .comparison subject operator _ =>
    Identifier subject.toList ∧ subject ≠ "otherwise" ∧ Operator operator
  | .membership subject values => Identifier subject.toList ∧ values ≠ []
  | .named name => Identifier name.toList ∧ name.toList.getLast? = some '?'
  | .otherwise => True
  | .conjunction _ => False
  | .call function _ => Identifier function.toList

/-- What a condition is made of: two or more without `and`, if there is an `and`. -/
def Formed : Clause → Prop
  | .conjunction members => 2 ≤ members.length ∧ ∀ c ∈ members, c.Simple
  | c => c.Simple

variable {s w : List Char} {c : Clause}

theorem Simple.formed (h : c.Simple) : c.Formed := by
  cases c with
  | conjunction members => exact h.elim
  | comparison | membership | named | otherwise | call => exact h

theorem operator_of_run {o : List Char} (hne : o ≠ []) (harrow : o ≠ ['=', '>'])
    (hall : ∀ c ∈ o, isOperatorChar c = true) : Operator (String.ofList o) := by
  refine .inr ⟨ne_ofList hne, ne_ofList harrow, fun c hc => ?_⟩
  have := hall c (by simpa using hc)
  simpa [isOperatorChar, or_assoc] using this

theorem simple_of_spells (h : SpellsSingle w c) : c.Simple := by
  cases h with
  | otherwise => trivial
  | emptyCall hn _ => simpa [Simple] using hn
  | call hn _ => simpa [Simple] using hn
  | membership hn _ _ _ hset =>
    refine ⟨by simpa using hn, ?_⟩
    rcases hset with ⟨_, _, _, _, _, h, _⟩ | ⟨_, _, _, _, _, h, _⟩ <;> exact h.ne_nil
  | equality hn hother _ _ _ _ => exact ⟨by simpa using hn, ne_ofList hother, .inl rfl⟩
  | order hn hother _ hne hall harrow _ _ _ =>
    exact ⟨by simpa using hn, ne_ofList hother, operator_of_run hne harrow hall⟩
  | named hn hlast => exact ⟨by simpa using hn, by simpa using hlast⟩

theorem formed_of_spells (h : Spells w c) : c.Formed := by
  cases h with
  | single h => exact (simple_of_spells h).formed
  | conjunction h =>
    exact ⟨by simp, h.forall (P := Simple) simple_of_spells⟩

theorem formed_of_clause {r : List Char} (h : clause s = .ok c r) : c.Formed := by
  obtain ⟨w, -, hw⟩ := spells_of_clause h
  exact formed_of_spells hw

end Clause

/-! ## Bullets -/

namespace Bullet

/-- What a bullet and the bullets under it are made of. -/
inductive Formed : Bullet → Prop
  | goTo {c : Clause} {t : String} : c.Formed → Target t.toList → Formed (.goTo c t)
  | group {c : Clause} {kids : List Bullet} : c.Formed → kids ≠ [] → (∀ b ∈ kids, Formed b) →
      Formed (.group c kids)

variable {w : Nat} {c : Clause} {o : Option String} {s : List Char}

theorem formed_of_read (h : Read w c o s) : c.Formed ∧ ∀ t ∈ o, Target t.toList := by
  obtain ⟨t, hstem, hending⟩ := head_iff.mp h
  obtain ⟨g, m, k, u, -, -, -, -, -, -, hclause⟩ := stem_iff.mp hstem
  refine ⟨Clause.formed_of_clause hclause, fun n hn => ?_⟩
  obtain ⟨rfl, -⟩ | ⟨a, b, cs, p, -, -, hcs, -, rfl, -⟩ := ending_iff.mp hending
  · cases hn
  · cases hn
    simpa using hcs

theorem formed_of_laid {bs : List Bullet} {ls : List Line} (h : Laid Read w bs ls) :
    ∀ b ∈ bs, b.Formed := by
  induction h with
  | nil => nofun
  | goTo hrow _ ih =>
    obtain ⟨hclause, htarget⟩ := formed_of_read hrow
    exact List.forall_mem_cons.mpr ⟨.goTo hclause (htarget _ rfl), ih⟩
  | group hrow _ hne _ _ ihkids ih =>
    exact List.forall_mem_cons.mpr ⟨.group (formed_of_read hrow).1 hne ihkids, ih⟩

end Bullet

/-! ## Questions -/

namespace Tag

/-- What an option of a question is made of. -/
structure OptionFormed (o : String × String) : Prop where
  key : Identifier o.1.toList
  value : ∀ c ∈ [',', ']', '\n', '\r'], c ∉ o.2.toList

/-- What a choice of a question is made of. -/
structure ChoiceFormed (c : String × String) : Prop where
  value : Identifier c.1.toList
  label : Phrase c.2.toList

end Tag

/-- What a question is made of. Only a choice has choices, and it has some. -/
structure QuestionTag.Formed (q : QuestionTag) : Prop where
  name : Identifier q.name.toList
  options : ∀ o ∈ q.options, Tag.OptionFormed o
  kind : q.choices ≠ [] ↔ q.kind = .choice
  choices : ∀ c ∈ q.choices, Tag.ChoiceFormed c

namespace Tag

variable {s r : List Char}

theorem formed_of_option {o : String × String} (h : option s = .ok o r) : OptionFormed o := by
  unfold option at h
  simp only [bind_eq_ok, takeWhile1_iff, pure_apply, Reply.ok.injEq] at h
  obtain ⟨_, _, -, key, _, hkey, _, _, -, _, _, -, _, _, -, cs, _, ⟨-, -, hall, -⟩, rfl, -⟩ := h
  refine ⟨identifier_of_read hkey, fun c hc hmem => ?_⟩
  rw [String.toList_ofList] at hmem
  have hchar := hall c (mem_of_mem_trim hmem)
  simp only [List.mem_cons, List.not_mem_nil, or_false] at hc
  rcases hc with rfl | rfl | rfl | rfl <;> simp [isOptionChar] at hchar

theorem formed_of_choice {c : String × String} (h : choice s = .ok c r) (hfeed : '\n' ∉ s) :
    ChoiceFormed c := by
  unfold choice at h
  simp only [bind_eq_ok, spaces_iff, Bullet.bulletMark_iff, identifier_iff, mark_iff, pure_apply,
    Reply.ok.injEq] at h
  obtain ⟨_, _, ⟨g, -, rfl, -⟩, _, _, ⟨m, -, rfl⟩, _, _, ⟨k, -, rfl, -⟩, _, _, ⟨n, hn, rfl, rfl, -⟩,
    _, _, rfl, _, u, ⟨p, -, rfl, -⟩, label, _, hlabel, rfl, -⟩ := h
  simp only [List.mem_append, List.mem_cons, not_or] at hfeed
  exact ⟨by simpa using hn, phrase_of_restTrimmed hlabel (by tauto)⟩

/-- A tag has no choices before its bullets are read. -/
theorem formed_of_tag {q : QuestionTag} (h : tag s = .ok q r) :
    q.choices = [] ∧ Identifier q.name.toList ∧ ∀ o ∈ q.options, OptionFormed o := by
  rw [tag_eq] at h
  obtain ⟨_, _, -, h⟩ := bind_eq_ok.mp h
  obtain ⟨_, _, hcontent, h⟩ := bind_eq_ok.mp h
  cases h
  rw [within_eq_ok, commit_eq_ok] at hcontent
  unfold content at hcontent
  simp only [bind_eq_ok, pure_apply, Reply.ok.injEq] at hcontent
  obtain ⟨_, _, -, name, _, hname, options, _, hoptions, _, _, -, _, _, -, _, _, -, _, _, -, rfl, -⟩ :=
    hcontent
  refine ⟨rfl, identifier_of_read hname, fun o ho => ?_⟩
  obtain ⟨t, u, hread⟩ := exists_read_of_many consumes_option hoptions o ho
  exact formed_of_option hread

theorem identifier_of_startText {t : String} (h : startText s = .ok t r) : Identifier t.toList := by
  rw [startText_eq] at h
  obtain ⟨_, _, -, h⟩ := bind_eq_ok.mp h
  rw [within_eq_ok, commit_eq_ok] at h
  unfold startContent at h
  simp only [bind_eq_ok, pure_apply, Reply.ok.injEq] at h
  obtain ⟨_, _, -, name, _, hname, _, _, -, _, _, -, _, _, -, _, _, -, rfl, -⟩ := h
  exact identifier_of_read hname

end Tag

/-! ## Prose -/

namespace Prose

variable {s : List Char}

/-- A paragraph has the lines that it was put together from. -/
theorem split_joined {ps : List (List Char × LineBreak)} (hps : ∀ p ∈ ps, Phrase p.1)
    (hbreak : ps.IsChain fun p _ => p.2 ≠ .none) :
    (Line.split (joined ps)).map Line.text = ps.map Prod.fst := by
  induction ps with
  | nil => rfl
  | cons p ps ih =>
    obtain ⟨hp, hrest⟩ := List.forall_mem_cons.mp hps
    cases ps with
    | nil => rw [joined, Line.split_last hp.not_feed hp.nonempty]; rfl
    | cons q qs =>
      obtain ⟨hne, hchain⟩ := List.isChain_cons_cons.mp hbreak
      have hreturn : p.1.getLast? ≠ some '\r' := fun h => hp.not_return (List.mem_of_getLast? h)
      rw [joined_cons_cons, List.append_assoc, Line.split_line hp.not_feed hne fun _ => hreturn,
        List.map_cons, ih hrest hchain, List.map_cons (l := q :: qs)]

theorem joined_ne_nil {t : List Char} {b : LineBreak} {ps : List (List Char × LineBreak)}
    (h : t ≠ []) : joined ((t, b) :: ps) ≠ [] := by
  cases ps with
  | nil => exact h
  | cons q qs =>
    rw [joined_cons_cons]
    simp [h]

theorem head?_trimBreaks : ∀ c ∈ (trimBreaks s).head?, isBreakChar c = false := by
  intro c hc
  have hprefix : trimBreaks s <+: s.dropWhile isBreakChar := by
    rw [← List.reverse_suffix, trimBreaks, List.reverse_reverse]
    exact List.dropWhile_suffix _
  obtain ⟨u, hu⟩ := List.head?_eq_some_iff.mp hc
  obtain ⟨v, hv⟩ := hprefix
  have := List.head?_dropWhile_not isBreakChar s
  rw [← hv, hu] at this
  simpa using this

theorem getLast?_trimBreaks : ∀ c ∈ (trimBreaks s).getLast?, isBreakChar c = false := by
  intro c hc
  have := List.head?_dropWhile_not isBreakChar (s.dropWhile isBreakChar).reverse
  rw [trimBreaks, List.getLast?_reverse] at hc
  rw [Option.mem_def.mp hc] at this
  simpa using this

end Prose

/-! ## Blocks -/

namespace Line

variable {ls ms : List Line} {l : Line}

/-- Lines that follow one another in a text. -/
structure Proper (ls : List Line) : Prop where
  whole : Whole ls
  feed : ∀ l ∈ ls, '\n' ∉ l.text

theorem proper_split (s : List Char) : Proper (split s) := ⟨whole_split s, fun _ => split_text⟩

theorem Proper.part (h : Proper ls) (hms : ms <:+: ls) : Proper ms where
  whole := List.IsChain.infix h.whole hms
  feed l hl := h.feed l (hms.subset hl)

theorem Proper.tail (h : Proper (l :: ls)) : Proper ls := h.part (List.suffix_cons l ls).isInfix

end Line

namespace Block

/-- What a block and the blocks in its branches are made of. -/
inductive Formed : Block → Prop
  | heading {t : String} : Phrase t.toList → Formed (.heading t)
  | paragraph {t : String} : t ≠ "" → (∀ l ∈ Line.split t.toList, Phrase l.text ∧
      Directive.isDirective l.text = false) → Formed (.paragraph t)
  | question {q : QuestionTag} : q.Formed → Formed (.question q)
  | startButton {t : String} : Identifier t.toList → Formed (.startButton t)
  | nextSteps {t : String} : (∀ c ∈ t.toList.head?, Prose.isBreakChar c = false) →
      (∀ c ∈ t.toList.getLast?, Prose.isBreakChar c = false) → Formed (.nextSteps t)
  | conditional {c : Clause} {bs es : List Block} : c.Formed → (∀ b ∈ bs, Formed b) →
      (∀ b ∈ es, Formed b) → Formed (.conditional c bs es)
  | rules {bs : List Bullet} : bs ≠ [] → (∀ b ∈ bs, b.Formed) → Formed (.rules bs)

variable {l : Line} {ls ms r : List Line} {b : Block} {bs : List Block}

theorem formed_of_openingText {s : List Char} {c : Clause} (h : openingText s = .ok c []) :
    c.Formed := by
  rw [openingText_eq] at h
  obtain ⟨_, _, -, h⟩ := bind_eq_ok.mp h
  rw [within_eq_ok, commit_eq_ok] at h
  unfold lastCondition at h
  simp only [bind_eq_ok, pure_apply, Reply.ok.injEq] at h
  obtain ⟨_, _, hclause, _, _, -, _, _, -, rfl, -⟩ := h
  exact Clause.formed_of_clause hclause

theorem formed_of_paragraph (hms : Line.Proper (l :: ms))
    (hprose : ∀ m ∈ l :: ms, Prosaic m.text) :
    Formed (.paragraph (String.ofList
      (Prose.joined ((l :: ms).map fun m => (trim m.text, m.ending))))) := by
  have hphrase : ∀ m ∈ l :: ms, Phrase (trim m.text) := fun m hm =>
    phrase_trim (hms.feed m hm) (hprose m hm).1 (not_blank_of_prosaic (hprose m hm))
  have hbreak : ((l :: ms).map fun m => (trim m.text, m.ending)).IsChain
      fun p _ => p.2 ≠ LineBreak.none := by
    rw [List.isChain_map]
    exact hms.whole
  have hlines := Prose.split_joined (List.forall_mem_map.mpr hphrase) hbreak
  refine .paragraph (Clause.ne_ofList (m := []) (Prose.joined_ne_nil ?_)) fun k hk => ?_
  · exact (hphrase l List.mem_cons_self).nonempty
  · rw [String.toList_ofList] at hk
    have hmem := List.mem_map_of_mem (f := Line.text) hk
    rw [hlines, List.map_map] at hmem
    obtain ⟨m, hm, htext⟩ := List.mem_map.mp hmem
    rw [← htext]
    refine ⟨hphrase m hm, ?_⟩
    rw [← not_isDirective_of_prosaic (hprose m hm)]
    exact Directive.isDirective_trim

theorem Spans.formed (h : Spans ms b) (hms : Line.Proper ms) : b.Formed := by
  cases h with
  | @heading l t h =>
    unfold Prose.headingText at h
    simp only [bind_eq_ok, spaces_iff, spaces1_iff, mark_iff] at h
    obtain ⟨_, _, ⟨g, -, hl, -⟩, _, _, rfl, _, _, ⟨k, -, -, rfl, -⟩, h⟩ := h
    have hfeed := hms.feed l List.mem_cons_self
    rw [hl] at hfeed
    simp only [List.mem_append, List.mem_cons, not_or] at hfeed
    exact .heading (phrase_of_restTrimmed h hfeed.2.2.2)
  | startButton h => exact .startButton (Tag.identifier_of_startText h)
  | question h hkind =>
    obtain ⟨hnone, hname, hoptions⟩ := Tag.formed_of_tag h
    exact .question ⟨hname, hoptions, iff_of_false (not_not.mpr hnone) hkind, by simp [hnone]⟩
  | choice h hkind hcs hne =>
    obtain ⟨-, hname, hoptions⟩ := Tag.formed_of_tag h
    have hread := ((List.forall₂_and_left _ _).mpr ⟨hms.tail.feed, hcs⟩).flip
    exact .question ⟨hname, hoptions, iff_of_true hne hkind,
      forall_of_forall₂ hread fun hm => Tag.formed_of_choice hm.2 hm.1⟩
  | nextSteps _ _ _ _ =>
    refine .nextSteps ?_ ?_ <;> rw [String.toList_ofList]
    · exact Prose.head?_trimBreaks
    · exact Prose.getLast?_trimBreaks
  | rules hne h => exact .rules hne (Bullet.formed_of_laid h)
  | paragraph _ hprose => exact formed_of_paragraph hms hprose

theorem Reads.formed (h : Reads ls bs r) (hls : Line.Proper ls) : ∀ b ∈ bs, b.Formed := by
  induction h with
  | stop _ => nofun
  | vacant _ _ ih => exact ih hls.tail
  | plain h _ _ ih =>
    refine List.forall_mem_cons.mpr ⟨h.formed (hls.part ?_), ih (hls.part ?_)⟩
    · exact (List.prefix_append _ _).isInfix
    · exact (List.suffix_append _ _).isInfix
  | conditional hopen hthen _ _ ihthen ih =>
    have hinside := hls.tail
    have hrest := (hinside.part hthen.suffix.isInfix).tail
    exact List.forall_mem_cons.mpr
      ⟨.conditional (formed_of_openingText hopen) (ihthen hinside) nofun, ih hrest⟩
  | conditionalElse hopen hthen _ helse _ _ ihthen ihelse ih =>
    have hinside := hls.tail
    have hsecond := (hinside.part hthen.suffix.isInfix).tail
    have hrest := (hsecond.part helse.suffix.isInfix).tail
    exact List.forall_mem_cons.mpr
      ⟨.conditional (formed_of_openingText hopen) (ihthen hinside) (ihelse hsecond), ih hrest⟩

end Block

/-! ## Documents -/

namespace Document

/-- What an entry of front matter is made of. -/
structure EntryFormed (e : String × String) : Prop where
  key_nonempty : e.1 ≠ ""
  key : ∀ c ∈ e.1.toList, isNameChar c = true
  value : Phrase e.2.toList

/-- What a document is made of. -/
structure Formed (d : Document) : Prop where
  frontMatter : ∀ e ∈ d.frontMatter, EntryFormed e
  body : ∀ b ∈ d.body, b.Formed

variable {ls ms r : List Line} {es : List (String × String)}

theorem formed_of_entryText {s : List Char} {e : String × String} (h : entryText s = .ok e [])
    (hfeed : '\n' ∉ s) : EntryFormed e := by
  unfold entryText at h
  simp only [bind_eq_ok, takeWhile1_iff, mark_iff, spaces_iff, pure_apply, Reply.ok.injEq] at h
  obtain ⟨k, _, ⟨hne, rfl, hall, -⟩, _, _, rfl, _, u, ⟨g, -, rfl, -⟩, v, _, hv, rfl, -⟩ := h
  simp only [List.mem_append, List.mem_cons, not_or] at hfeed
  exact ⟨Clause.ne_ofList (m := []) hne, by simpa using hall, phrase_of_restTrimmed hv hfeed.2.2.2⟩

theorem Entries.formed (h : Entries ms es) (hms : Line.Proper ms) : ∀ e ∈ es, EntryFormed e :=
  forall_of_forall₂ ((List.forall₂_and_left _ _).mpr ⟨hms.feed, h⟩).flip
    fun hm => formed_of_entryText hm.2 hm.1

theorem Front.formed (h : Front ls es r) (hls : Line.Proper ls) : ∀ e ∈ es, EntryFormed e := by
  cases h with
  | @fenced l e ms r es _ _ hentries _ => exact hentries.formed (hls.part ⟨[l], e :: r, by simp⟩)
  | bare h =>
    obtain ⟨-, ms, rfl, hentries, -⟩ := h
    exact hentries.formed (hls.part (List.prefix_append _ _).isInfix)
  | absent _ _ => nofun

/-- **What is read is well formed.** Every document that a text spells is formed: its entries and
its blocks, at every depth of branches and bullets. -/
theorem formed_of_ofText? {t : String} {d : Document} (h : ofText? t = .ok d) : d.Formed := by
  obtain ⟨ms, hfront, hbody⟩ := ofText?_eq_ok.mp h
  have hproper := (Line.proper_split t.toList).part
    (List.dropWhile_suffix Line.isVacant).isInfix
  exact ⟨hfront.formed hproper, hbody.formed (hproper.part hfront.suffix.isInfix)⟩

/-- A text with a choice in one branch of a conditional, and a conditional and nested bullets in the
other. -/
def sampleText : String :=
  "k: v\n\n$IF a? and b is c\n[choice: x, y: z]\n* p: P\n$ELSE\n" ++
    "$IF d?\nq\n $ELSE\n$ENDIF\n* a?\n\t* b? => c\n$ENDIF"

/-- What it spells. -/
def sample : Document where
  frontMatter := [("k", "v")]
  body := [.conditional (.conjunction [.named "a?", .comparison "b" "is" "c"])
    [.question ⟨.choice, "x", [("y", "z")], [("p", "P")]⟩]
    [.conditional (.named "d?") [.paragraph "q"] [],
      .rules [.group (.named "a?") [.goTo (.named "b?") "c"]]]]

set_option maxRecDepth 2000 in
theorem ofText?_sampleText : ofText? sampleText = .ok sample := by
  with_unfolding_all rfl

theorem formed_of_ofText?_sample : ofText? sampleText = .ok sample ∧ sample.Formed :=
  ⟨ofText?_sampleText, formed_of_ofText? ofText?_sampleText⟩

end Document

end Interview
