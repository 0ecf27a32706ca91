import Interview.Proofs.Block.Opening

/-!
# The grammar of blocks

Which lines spell which blocks, said as a relation beside the readers. `Spans ms b` holds of the
lines of a block that is no conditional, `MayEnd b r` of the lines that may follow at once, and
`Reads ls bs r` of lines that start with a list of blocks, vacant lines and conditionals included,
and go on with the lines `r`.

* `Block.Spans.first`: the first line of a block begins it at once.
* `Block.Spans.prosaic_or_initial`: how the lines of a block start.
* `Block.branching_iff`, `Block.question_iff`, `Block.paragraph_iff` and so on: what the reader of
  each kind of block reads.
-/

namespace Interview

open Reader Text Word

namespace Block

/-- A line that can be part of a paragraph. -/
def Prosaic (s : List Char) : Prop := '\r' ∉ s ∧ Prose.isProse s = true

/-- A line that is read neither as a heading nor as a tag or a bullet, and does not start as one
that must be read. -/
structure Unmarked (s : List Char) : Prop where
  heading : Misses Prose.headingText s
  start : Misses Tag.startText s
  tag : Misses Tag.tag s
  bullet : Misses (Bullet.head (Bullet.width (s.takeWhile isSpace))) s

/-- The lines of a block that is no conditional. -/
inductive Spans : List Line → Block → Prop
  | heading {l : Line} {t : String} : Prose.headingText l.text = .ok t [] → Spans [l] (.heading t)
  | startButton {l : Line} {t : String} : Tag.startText l.text = .ok t [] →
      Spans [l] (.startButton t)
  | question {l : Line} {q : QuestionTag} : Tag.tag l.text = .ok q [] → q.kind ≠ .choice →
      Spans [l] (.question q)
  | choice {l : Line} {q : QuestionTag} {ms : List Line} {cs : List (String × String)} :
      Tag.tag l.text = .ok q [] → q.kind = .choice →
      List.Forall₂ (fun m c => Tag.choice m.text = .ok c []) ms cs → cs ≠ [] →
      Spans (l :: ms) (.question { q with choices := cs })
  | nextSteps {l e : Line} {ms : List Line} :
      Directive.directiveText "$NEXTSTEPS" l.text = .ok () [] → l.ending ≠ .none →
      (∀ m ∈ ms, Misses (Directive.directiveText "$ENDNEXTSTEPS") m.text ∧ '\r' ∉ m.text ∧
        m.ending ≠ .none) →
      Directive.directiveText "$ENDNEXTSTEPS" e.text = .ok () [] →
      Spans (l :: (ms ++ [e]))
        (.nextSteps (String.ofList (Prose.trimBreaks (['\n'].intercalate (ms.map Line.text)))))
  | rules {w : Nat} {bs : List Bullet} {ms : List Line} : bs ≠ [] → Bullet.Laid Bullet.Read w bs ms →
      Spans ms (.rules bs)
  | paragraph {l : Line} {ms : List Line} : Unmarked l.text → (∀ m ∈ l :: ms, Prosaic m.text) →
      Spans (l :: ms)
        (.paragraph (String.ofList (Prose.joined ((l :: ms).map fun m => (trim m.text, m.ending)))))

/-- The lines that may follow at once on a block that is no conditional. -/
def MayEnd : Block → List Line → Prop
  | .question q, r => q.kind = .choice → ∀ m ∈ r.head?, Misses Tag.choice m.text
  | .rules _, r => Bullet.Ends r
  | .paragraph _, r => ∀ m ∈ r.head?, ¬ Prosaic m.text
  | _, _ => True

/-- The lines that start with some blocks and go on with the lines `r`, where a branch ends. -/
inductive Reads : List Line → List Block → List Line → Prop
  | stop {ls : List Line} : atBranchEnd ls = true → Reads ls [] ls
  | vacant {l : Line} {ls r : List Line} {bs : List Block} : l.isVacant = true → Reads ls bs r →
      Reads (l :: ls) bs r
  | plain {ms ls r : List Line} {b : Block} {bs : List Block} : Spans ms b → MayEnd b ls →
      Reads ls bs r → Reads (ms ++ ls) (b :: bs) r
  | conditional {l e : Line} {ls ms r : List Line} {c : Clause} {bs cs : List Block} :
      openingText l.text = .ok c [] → Reads ls bs (e :: ms) →
      Directive.directiveText "$ENDIF" e.text = .ok () [] → Reads ms cs r →
      Reads (l :: ls) (.conditional c bs [] :: cs) r
  | conditionalElse {l e d : Line} {ls ms ks r : List Line} {c : Clause} {bs es cs : List Block} :
      openingText l.text = .ok c [] → Reads ls bs (e :: ms) →
      Directive.directiveText "$ELSE" e.text = .ok () [] → Reads ms es (d :: ks) →
      Directive.directiveText "$ENDIF" d.text = .ok () [] → Reads ks cs r →
      Reads (l :: ls) (.conditional c bs es :: cs) r

/-! ## How blocks start -/

variable {l : Line} {ls ms r : List Line} {b : Block} {bs : List Block}

/-- A line that starts a block is neither vacant nor the end of a branch. -/
def Begins (l : Line) : Prop := l.isVacant = false ∧ Directive.endsBranch l.text = false

theorem begins_of_initial {c : Char} (h : initial l.text = some c) (hc : isBlank c = false)
    (hne : c ≠ '$') : Begins l := by
  have hdirective := Directive.not_isDirective_of_initial h hc hne
  refine ⟨Bool.eq_false_iff.mpr fun hv => not_spaces_of_initial h (Line.isVacant_iff.mp hv),
    Bool.eq_false_iff.mpr fun he => ?_⟩
  simp [Directive.isDirective_of_endsBranch he] at hdirective

theorem begins_of_opensWith {n : String} (h : Directive.opensWith n l.text = true)
    (hn : n = "$IF" ∨ n = "$NEXTSTEPS") : Begins l := by
  constructor
  · have hall : n ∈ Directive.all := by rcases hn with rfl | rfl <;> simp [Directive.all]
    exact Line.not_isVacant_of_isDirective (Directive.isDirective_iff.mpr ⟨n, hall, h⟩)
  · refine Bool.eq_false_iff.mpr fun he => ?_
    rw [Directive.endsBranch, Bool.or_eq_true] at he
    rcases he with he | he
    all_goals rcases hn with rfl | rfl <;> exact absurd (Directive.opensWith_unique h he) (by decide)

theorem initial_of_startText {t : String} (h : Tag.startText l.text = .ok t []) :
    initial l.text = some '[' := by
  rw [Tag.startText_eq] at h
  exact Tag.startsWith_startStart.bind.initial h

theorem tagStart_of_tag {q : QuestionTag} (h : Tag.tag l.text = .ok q []) :
    ∃ k t, Tag.tagStart l.text = .ok k t := by
  rw [Tag.tag_eq] at h
  obtain ⟨k, t, hk, -⟩ := bind_eq_ok.mp h
  exact ⟨k, t, hk⟩

theorem initial_of_tag {q : QuestionTag} (h : Tag.tag l.text = .ok q []) :
    initial l.text = some '[' := by
  obtain ⟨k, t, hk⟩ := tagStart_of_tag h
  exact Tag.startsWith_tagStart.initial hk

theorem not_blank_of_prosaic {s : List Char} (h : Prosaic s) : trim s ≠ [] := by
  have := h.2
  simp only [Prose.isProse, Bool.and_eq_true, Bool.not_eq_true', List.isEmpty_eq_false_iff] at this
  exact this.1

theorem not_isDirective_of_prosaic {s : List Char} (h : Prosaic s) :
    Directive.isDirective s = false := by
  have := h.2
  simp only [Prose.isProse, Bool.and_eq_true, Bool.not_eq_true'] at this
  exact this.2

theorem begins_of_prosaic (h : Prosaic l.text) : Begins l := by
  constructor
  · refine Bool.eq_false_iff.mpr fun hv => not_blank_of_prosaic h ?_
    have hnil : trim ([] ++ l.text) = [] := trim_append_spaces (Line.isVacant_iff.mp hv)
    exact hnil
  · refine Bool.eq_false_iff.mpr fun he => ?_
    have := Directive.isDirective_of_endsBranch he
    simp [not_isDirective_of_prosaic h] at this

theorem Spans.first (h : Spans ms b) : ∃ l ks, ms = l :: ks ∧ Begins l := by
  cases h with
  | heading h =>
    exact ⟨_, [], rfl,
      begins_of_initial (Prose.startsWith_headingText.initial h) (by decide) (by decide)⟩
  | startButton h =>
    exact ⟨_, [], rfl, begins_of_initial (initial_of_startText h) (by decide) (by decide)⟩
  | question h _ =>
    exact ⟨_, [], rfl, begins_of_initial (initial_of_tag h) (by decide) (by decide)⟩
  | choice h _ _ _ =>
    exact ⟨_, _, rfl, begins_of_initial (initial_of_tag h) (by decide) (by decide)⟩
  | nextSteps h _ _ _ =>
    exact ⟨_, _, rfl, begins_of_opensWith (Directive.opensWith_of_directiveText
      (by simp [Directive.all]) h) (.inr rfl)⟩
  | @rules w bs ms hne h =>
    obtain ⟨l, ks, c, o, rfl, hl⟩ := h.first_read hne
    obtain ⟨t, ht, -⟩ := Bullet.head_iff.mp hl
    obtain ⟨m, hm, hi⟩ := Bullet.initial_of_stem ht
    exact ⟨l, ks, rfl, begins_of_initial hi (by rcases hm with rfl | rfl <;> decide)
      (by rcases hm with rfl | rfl <;> decide)⟩
  | paragraph _ h => exact ⟨_, _, rfl, begins_of_prosaic (h _ List.mem_cons_self)⟩

/-- The lines of a block, unless it is a box of next steps, are prose or start with a sign. -/
theorem Spans.prosaic_or_initial (h : Spans ms b) (hb : ∀ t, b ≠ .nextSteps t) : ∀ m ∈ ms,
    Prosaic m.text ∨ ∃ c, initial m.text = some c ∧ isBlank c = false ∧ c ≠ '$' := by
  have hsign : ∀ {s : List Char} {c : Char}, initial s = some c → c = '#' ∨ c = '[' ∨ Bullet.Mark c →
      Prosaic s ∨ ∃ c, initial s = some c ∧ isBlank c = false ∧ c ≠ '$' := by
    rintro s c hs (rfl | rfl | rfl | rfl) <;> exact .inr ⟨_, hs, by decide, by decide⟩
  cases h with
  | heading h =>
    exact List.forall_mem_singleton.mpr (hsign (Prose.startsWith_headingText.initial h) (.inl rfl))
  | startButton h =>
    exact List.forall_mem_singleton.mpr (hsign (initial_of_startText h) (.inr (.inl rfl)))
  | question h _ => exact List.forall_mem_singleton.mpr (hsign (initial_of_tag h) (.inr (.inl rfl)))
  | choice h _ hcs _ =>
    refine List.forall_mem_cons.mpr
      ⟨hsign (initial_of_tag h) (.inr (.inl rfl)), forall_of_forall₂ hcs fun hm => ?_⟩
    obtain ⟨c, hc, hi⟩ := Tag.initial_of_choice hm
    exact hsign hi (.inr (.inr hc))
  | nextSteps _ _ _ _ => exact absurd rfl (hb _)
  | rules _ h =>
    refine h.forall (fun s => Prosaic s ∨ ∃ c, initial s = some c ∧ isBlank c = false ∧ c ≠ '$')
      fun hl => ?_
    obtain ⟨t, ht, -⟩ := Bullet.head_iff.mp hl
    obtain ⟨c, hc, hi⟩ := Bullet.initial_of_stem ht
    exact hsign hi (.inr (.inr hc))
  | paragraph _ h => exact fun m hm => .inl (h m hm)

/-! ## What each kind of block reads -/

variable {s : List Char}

theorem directive_iff {n : String} (h : n ∈ Directive.all) {u : Unit} :
    Directive.directive n ls = .ok u r ↔
      ∃ l, ls = l :: r ∧ Directive.directiveText n l.text = .ok () [] := by
  obtain ⟨x, hx⟩ := Directive.exists_name_dollar h
  exact line_eq_ok (Directive.hungry_directiveText (by simp [hx]))

theorem branching_iff {f : Reader Line (List Block)} : branching f ls = .ok b r ↔
    ∃ l ms c bs e ks, ls = l :: ms ∧ openingText l.text = .ok c [] ∧ f ms = .ok bs (e :: ks) ∧
      (Directive.directiveText "$ENDIF" e.text = .ok () [] ∧ r = ks ∧ b = .conditional c bs [] ∨
        Directive.directiveText "$ELSE" e.text = .ok () [] ∧ ∃ es d, f ks = .ok es (d :: r) ∧
          Directive.directiveText "$ENDIF" d.text = .ok () [] ∧ b = .conditional c bs es) := by
  have hopening : ∀ {c ms},
      opening ls = .ok c ms ↔ ∃ l, ls = l :: ms ∧ openingText l.text = .ok c [] :=
    line_eq_ok hungry_openingText
  have hend : ∀ {u : Unit} {ls r : List Line}, Directive.directive "$ENDIF" ls = .ok u r ↔
      ∃ l, ls = l :: r ∧ Directive.directiveText "$ENDIF" l.text = .ok () [] :=
    directive_iff (by simp [Directive.all])
  have helse : ∀ {u : Unit} {ls r : List Line}, Directive.directive "$ELSE" ls = .ok u r ↔
      ∃ l, ls = l :: r ∧ Directive.directiveText "$ELSE" l.text = .ok () [] :=
    directive_iff (by simp [Directive.all])
  unfold branching
  simp only [bind_eq_ok, hopening, commit_eq_ok, maybe_eq_ok, helse]
  constructor
  · rintro ⟨c, ms, ⟨l, rfl, hl⟩, bs, t, hbs, o, u, ⟨_, rfl, e, rfl, he⟩ | ⟨rfl, rfl, -⟩, h⟩
    · simp only [Option.isSome_some, if_true, bind_eq_ok, commit_eq_ok, expecting_eq_ok, hend,
        pure_apply, Reply.ok.injEq] at h
      obtain ⟨es, _, hes, _, _, ⟨d, rfl, hd⟩, rfl, rfl⟩ := h
      exact ⟨l, ms, c, bs, e, u, rfl, hl, hbs, .inr ⟨he, es, d, hes, hd, rfl⟩⟩
    · simp only [Option.isSome_none, Bool.false_eq_true, if_false, bind_eq_ok, commit_eq_ok,
        expecting_eq_ok, hend, pure_apply, Reply.ok.injEq] at h
      obtain ⟨_, _, ⟨rfl, rfl⟩, _, w, ⟨e, rfl, he⟩, rfl, rfl⟩ := h
      exact ⟨l, ms, c, bs, e, w, rfl, hl, hbs, .inl ⟨he, rfl, rfl⟩⟩
  · rintro ⟨l, ms, c, bs, e, ks, rfl, hl, hbs, ⟨he, rfl, rfl⟩ | ⟨he, es, d, hes, hd, rfl⟩⟩
    · have hfails : Fails (Directive.directive "$ELSE") (e :: r) := by
        refine line_fails.mpr ((Directive.tentative_directiveText _).misses_iff.mpr fun u hu => ?_)
        obtain ⟨g, p, hg, -, heq⟩ := (Directive.directiveText_iff (by simp [Directive.all])).mp hu
        obtain ⟨g', p', hg', -, heq'⟩ :=
          (Directive.directiveText_iff (by simp [Directive.all])).mp he
        have h1 := dropWhile_spaces (r := "$ELSE".toList ++ p) hg (stops_cons.mpr (by decide))
        have h2 := dropWhile_spaces (r := "$ENDIF".toList ++ p') hg' (stops_cons.mpr (by decide))
        rw [← heq] at h1
        rw [← heq', h1] at h2
        simp at h2
      refine ⟨c, ms, ⟨l, rfl, hl⟩, bs, e :: r, hbs, none, e :: r, .inr ⟨rfl, rfl, hfails⟩, ?_⟩
      simp only [Option.isSome_none, Bool.false_eq_true, if_false, bind_eq_ok, commit_eq_ok,
        expecting_eq_ok, hend, pure_apply, Reply.ok.injEq]
      exact ⟨[], e :: r, ⟨rfl, rfl⟩, (), r, ⟨e, rfl, he⟩, rfl, rfl⟩
    · refine ⟨c, ms, ⟨l, rfl, hl⟩, bs, e :: ks, hbs, some (), ks, .inl ⟨(), rfl, e, rfl, he⟩, ?_⟩
      simp only [Option.isSome_some, if_true, bind_eq_ok, commit_eq_ok, expecting_eq_ok, hend,
        pure_apply, Reply.ok.injEq]
      exact ⟨es, d :: r, hes, (), r, ⟨d, rfl, hd⟩, rfl, rfl⟩

theorem nextSteps_iff {t : String} : Prose.nextSteps ls = .ok t r ↔
    ∃ l ms e, ls = l :: (ms ++ e :: r) ∧
    t = String.ofList (Prose.trimBreaks (['\n'].intercalate (ms.map Line.text))) ∧
    Directive.directiveText "$NEXTSTEPS" l.text = .ok () [] ∧ l.ending ≠ .none ∧
    (∀ m ∈ ms, Misses (Directive.directiveText "$ENDNEXTSTEPS") m.text ∧ '\r' ∉ m.text ∧
      m.ending ≠ .none) ∧ Directive.directiveText "$ENDNEXTSTEPS" e.text = .ok () [] := by
  have hfails : Fails (Directive.directiveText "$ENDNEXTSTEPS") [] :=
    (Directive.tentative_directiveText _).fails_iff.mpr
      (Directive.hungry_directiveText (by decide))
  unfold Prose.nextSteps Prose.nextStepsLines Directive.directive
  simp only [bind_eq_ok, brokenLine_eq_ok, expecting_eq_ok, commit_eq_ok,
    manyUntil_line_iff hfails (Directive.tentative_directiveText _), pure_apply, Reply.ok.injEq]
  constructor
  · rintro ⟨_, _, ⟨l, rfl, hl, hb⟩, _, _, ⟨ms, e, _, rfl, rfl, he, hms⟩, rfl, rfl⟩
    exact ⟨l, ms, e, rfl, rfl, hl, hb, hms, he⟩
  · rintro ⟨l, ms, e, rfl, rfl, hl, hb, hms, he⟩
    exact ⟨(), _, ⟨l, rfl, hl, hb⟩, _, r, ⟨ms, e, (), rfl, rfl, he, hms⟩, rfl, rfl⟩

theorem choice_fails_nil : Fails Tag.choice [] :=
  Tag.tentative_choice.fails_iff.mpr Tag.hungry_choice

theorem question_iff {q : QuestionTag} : Tag.question ls = .ok q r ↔
    ∃ l ms q', ls = l :: ms ∧ Tag.tag l.text = .ok q' [] ∧
      (q'.kind ≠ .choice ∧ q = q' ∧ r = ms ∨
        q'.kind = .choice ∧ ∃ cs ks, cs ≠ [] ∧ ms = ks ++ r ∧
          List.Forall₂ (fun m c => Tag.choice m.text = .ok c []) ks cs ∧
          (∀ m ∈ r.head?, Misses Tag.choice m.text) ∧ q = { q' with choices := cs }) := by
  have hchoices : ∀ {ms cs}, many1 (line Tag.choice) ms = .ok cs r ↔ cs ≠ [] ∧ ∃ ks, ms = ks ++ r ∧
      List.Forall₂ (fun m c => Tag.choice m.text = .ok c []) ks cs ∧
      ∀ m ∈ r.head?, Misses Tag.choice m.text := by
    intro ms cs
    rw [many1_eq_ok_iff_many (consumes_line Tag.hungry_choice), many_line_iff choice_fails_nil]
  unfold Tag.question
  simp only [bind_eq_ok, line_eq_ok Tag.hungry_tag]
  constructor
  · rintro ⟨q', ms, ⟨l, rfl, hl⟩, h⟩
    refine ⟨l, ms, q', rfl, hl, ?_⟩
    by_cases hk : q'.kind = .choice
    · rw [if_pos hk] at h
      obtain ⟨cs, t, hcs, h⟩ := bind_eq_ok.mp h
      cases h
      rw [expecting_eq_ok, commit_eq_ok, hchoices] at hcs
      obtain ⟨hne, ks, rfl, hks, hr⟩ := hcs
      exact .inr ⟨hk, cs, ks, hne, rfl, hks, hr, rfl⟩
    · rw [if_neg hk] at h
      cases h
      exact .inl ⟨hk, rfl, rfl⟩
  · rintro ⟨l, ms, q', rfl, hl, ⟨hk, rfl, rfl⟩ | ⟨hk, cs, ks, hne, rfl, hks, hr, rfl⟩⟩
    · refine ⟨q, r, ⟨l, rfl, hl⟩, ?_⟩
      rw [if_neg hk]
      rfl
    · refine ⟨q', _, ⟨l, rfl, hl⟩, ?_⟩
      rw [if_pos hk]
      refine bind_eq_ok.mpr ⟨cs, r, ?_, rfl⟩
      rw [expecting_eq_ok, commit_eq_ok, hchoices]
      exact ⟨hne, ks, rfl, hks, hr⟩

theorem proseText_iff {t : List Char} : Prose.proseText s = .ok t [] ↔ Prosaic s ∧ t = trim s := by
  unfold Prose.proseText Prosaic
  simp only [bind_eq_ok, satisfying_eq_ok, restOfLine_eq_ok, pure_apply, Reply.ok.injEq]
  constructor
  · rintro ⟨_, _, ⟨⟨rfl, rfl, hr⟩, hp⟩, rfl, -⟩
    exact ⟨⟨hr, hp⟩, rfl⟩
  · rintro ⟨⟨hr, hp⟩, rfl⟩
    exact ⟨s, [], ⟨⟨rfl, rfl, hr⟩, hp⟩, rfl, rfl⟩

theorem tentative_proseText : Tentative Prose.proseText :=
  (tentative_restOfLine.satisfying _).bind fun _ => tentative_pure _

theorem misses_proseText_iff : Misses Prose.proseText s ↔ ¬ Prosaic s := by
  rw [tentative_proseText.misses_iff]
  simp [proseText_iff]

theorem proseText_fails_nil : Fails Prose.proseText [] := by
  refine tentative_proseText.fails_iff.mpr fun t u h => ?_
  obtain ⟨_, _, hp, -⟩ := bind_eq_ok.mp h
  obtain ⟨hr, hp⟩ := satisfying_eq_ok.mp hp
  obtain ⟨rfl, -, -⟩ := restOfLine_eq_ok.mp hr
  exact absurd hp (by decide)

theorem paragraph_iff {t : String} : Prose.paragraph ls = .ok t r ↔
    ∃ ms, ms ≠ [] ∧ ls = ms ++ r ∧ (∀ m ∈ ms, Prosaic m.text) ∧ (∀ m ∈ r.head?, ¬ Prosaic m.text) ∧
      t = String.ofList (Prose.joined (ms.map fun m => (trim m.text, m.ending))) := by
  have hok : ∀ {ls p ms}, Prose.paragraphLine ls = .ok p ms ↔
      ∃ l, ls = l :: ms ∧ Prosaic l.text ∧ p = (trim l.text, l.ending) := by
    rintro ls ⟨t, e⟩ ms
    unfold Prose.paragraphLine
    rw [lineBreaking_eq_ok proseText_fails_nil.hungry]
    simp only [proseText_iff, Prod.mk.injEq, and_assoc]
  have hfails : ∀ {ls}, Fails Prose.paragraphLine ls ↔ ∀ l ∈ ls.head?, ¬ Prosaic l.text := by
    intro ls
    unfold Prose.paragraphLine
    simp only [lineBreaking_fails_iff proseText_fails_nil, misses_proseText_iff]
  have hconsumes : Consumes Prose.paragraphLine := by
    intro ls p ms h
    obtain ⟨l, rfl, -⟩ := hok.mp h
    exact ⟨List.suffix_cons l ms, Nat.lt_succ_self _⟩
  have hlines : ∀ {ms : List Line} {ps},
      List.Forall₂ (fun l p => Prosaic l.text ∧ p = (trim l.text, l.ending)) ms ps ↔
        (∀ m ∈ ms, Prosaic m.text) ∧ ps = ms.map fun m => (trim m.text, m.ending) := by
    intro ms ps
    induction ms generalizing ps with
    | nil => simp
    | cons m ms ih => cases ps <;> simp [ih, and_assoc, and_left_comm]
  unfold Prose.paragraph
  simp only [bind_eq_ok, many1_eq_ok_iff_many hconsumes, many_lines_iff hok hfails, hlines, pure_apply,
    Reply.ok.injEq]
  constructor
  · rintro ⟨_, _, ⟨hne, ms, rfl, ⟨hms, rfl⟩, hr⟩, rfl, rfl⟩
    exact ⟨ms, by simpa using hne, rfl, hms, hr, rfl⟩
  · rintro ⟨ms, hne, rfl, hms, hr, rfl⟩
    exact ⟨_, r, ⟨by simpa using hne, ms, rfl, ⟨hms, rfl⟩, hr⟩, rfl, rfl⟩

end Block

end Interview
