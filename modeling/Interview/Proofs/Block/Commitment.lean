import Interview.Proofs.Document.Front

/-!
# What starts like a construct is no prose

A paragraph is read where nothing else fits, so a mistake in a question or a rule could turn it into
text that is shown. It does not: after the start of a line that tells a construct, such as `[date:`
or the condition of a bullet, there is no way back to the paragraph.

* `Construct.Opens`, `Construct.Stands`: a line starts like a construct, and the construct is read.
* `Construct.Opens.unique`: a line starts like one construct at most.
* `Construct.reads_paragraph_iff`: where a paragraph is read.
* `Construct.stands_of_single`: a block is read as the construct that its first line starts like.
* `Document.Reaches`: the places of a text where blocks are looked for, in branches too.
* `Construct.never_prose`: no paragraph starts like a construct, and a construct that cannot be read
  makes its document unreadable.
-/

namespace Interview

open Reader Text Word

/-- What can be written besides prose. -/
inductive Construct where
  /-- A heading. -/
  | heading
  /-- A button that leads to the first node. -/
  | startButton
  /-- A question of some kind. -/
  | question (kind : TagKind)
  /-- A list of bullets. -/
  | bullet
  /-- A directive line with this word. -/
  | directive (name : String)

namespace Construct

/-- The line starts like the construct, after its spaces: a number sign and more than blanks; the
start of a tag; a bullet mark and a condition up to an arrow or the end of the line; or it is the
line of a directive. -/
def Opens : Construct → List Char → Prop
  | .heading, s => ∃ g t, Gap g ∧ (∃ c ∈ t, isBlank c = false) ∧
      s.dropWhile isSpace = '#' :: (g ++ t)
  | .startButton, s => "[start:".toList <+: s.dropWhile isSpace
  | .question k, s => '[' :: (k.keyword.toList ++ [':']) <+: s.dropWhile isSpace
  | .bullet, s => ∃ m g u c t, Bullet.Mark m ∧ Gap g ∧ s.dropWhile isSpace = m :: (g ++ u) ∧
      Clause.clause u = .ok c t ∧ (Spaces t ∨ "=>".toList <+: t.dropWhile isSpace)
  | .directive n, s => n ∈ Directive.all ∧ Directive.opensWith n s = true

/-- The construct is read from these lines on, where one of the directives `ends` may close what is
being read. The directives that close something are read there only. -/
def Stands (ends : List String) : Construct → List Line → Prop
  | .heading, ls => ∃ t r, Prose.heading ls = .ok t r
  | .startButton, ls => ∃ t r, Tag.startButton ls = .ok t r
  | .question k, ls => ∃ q r, Tag.question ls = .ok q r ∧ q.kind = k
  | .bullet, ls => ∃ bs r, Bullet.block ls = .ok bs r
  | .directive n, ls => n = "$IF" ∧ (∃ b r, Block.branching Block.list ls = .ok b r) ∨
      n = "$NEXTSTEPS" ∧ (∃ t r, Prose.nextSteps ls = .ok t r) ∨
      n ∈ ends ∧ ∃ u r, Directive.directive n ls = .ok u r

end Construct

/-- Blocks are looked for at the lines while the text is read, up to one of the directives, or up to
the end of the input if there are none. -/
inductive Document.Reaches (text : String) : List String → List Line → Prop
  /-- After the front matter. -/
  | body {es : List (String × String)} {ls : List Line} :
      Front ((Line.split text.toList).dropWhile Line.isVacant) es ls → Reaches text [] ls
  /-- After a vacant line. -/
  | vacant {ends : List String} {l : Line} {ls : List Line} : Reaches text ends (l :: ls) →
      l.isVacant = true → Reaches text ends ls
  /-- After a block. -/
  | next {ends : List String} {l : Line} {ls r : List Line} {b : Block} :
      Reaches text ends (l :: ls) → Block.Begins l →
      Block.single Block.list (l :: ls) = .ok b r → Reaches text ends r
  /-- In the first branch of a conditional. -/
  | thenBranch {ends : List String} {l : Line} {ls : List Line} {c : Clause} :
      Reaches text ends (l :: ls) → Block.openingText l.text = .ok c [] →
      Reaches text ["$ELSE", "$ENDIF"] ls
  /-- In the second branch of a conditional. -/
  | elseBranch {ends : List String} {l e : Line} {ls ms : List Line} {c : Clause}
      {bs : List Block} : Reaches text ends (l :: ls) → Block.openingText l.text = .ok c [] →
      Block.list ls = .ok bs (e :: ms) → Directive.directiveText "$ELSE" e.text = .ok () [] →
      Reaches text ["$ENDIF"] ms

variable {s u : List Char} {l : Line} {ls ms r : List Line} {b : Block} {ends : List String}

namespace Construct

/-! ## The starts of lines -/

theorem exists_headingText_iff :
    (∃ t, Prose.headingText s = .ok t []) ↔ heading.Opens s ∧ '\r' ∉ s := by
  obtain ⟨p, hp, hs⟩ := exists_spaces s
  have hreturn : '\r' ∉ s ↔ '\r' ∉ s.dropWhile isSpace := by
    conv_lhs => rw [hs]
    simp [not_mem_of_spaces hp]
  unfold Prose.headingText restTrimmed Opens
  simp only [bind_eq_ok, spaces_eq_ok, mark_iff, spaces1_iff, satisfying_eq_ok, restOfLine_eq_ok,
    pure_apply, Reply.ok.injEq, Bool.not_eq_true', List.isEmpty_eq_false_iff, ne_eq,
    trim_eq_nil_iff, hreturn]
  constructor
  · rintro ⟨_, _, _, rfl, _, v, hv, _, w, ⟨g, hne, hg, rfl, -⟩, _, _, ⟨⟨rfl, rfl, hr⟩, htext⟩, -, -⟩
    refine ⟨⟨g, _, ⟨hne, hg⟩, by simpa using htext, hv⟩, ?_⟩
    rw [hv]
    simp [not_mem_of_spaces hg, hr]
  · rintro ⟨⟨g, t, hg, htext, hv⟩, hr⟩
    obtain ⟨h, hh, hh'⟩ := exists_spaces t
    have hgh : Spaces (g ++ h) := List.forall_mem_append.mpr ⟨hg.2, hh⟩
    have hrest : ∃ c ∈ t.dropWhile isSpace, isBlank c = false := by
      obtain ⟨c, hc, hblank⟩ := htext
      rw [hh'] at hc
      rcases List.mem_append.mp hc with hc | hc
      · simp [isBlank_of_isSpace (hh c hc)] at hblank
      · exact ⟨c, hc, hblank⟩
    rw [hv, hh'] at hr
    refine ⟨_, (), _, rfl, (), g ++ t, hv, (), t.dropWhile isSpace,
      ⟨g ++ h, by simp [hg.1], hgh, by rw [List.append_assoc, ← hh'], stops_dropWhile⟩,
      t.dropWhile isSpace, [], ⟨⟨rfl, rfl, ?_⟩, ?_⟩, rfl, rfl⟩
    · intro hmem
      exact hr (by simp [hmem])
    · simpa using hrest

theorem misses_headingText_iff :
    Misses Prose.headingText s ↔ ¬ (heading.Opens s ∧ '\r' ∉ s) := by
  rw [Prose.tentative_headingText.misses_iff, ← exists_headingText_iff, not_exists]

theorem misses_startText_iff : Misses Tag.startText s ↔ ¬ startButton.Opens s := by
  rw [Tag.misses_startText_iff, Tag.steady_startStart.tentative.fails_iff]
  unfold Tag.startStart Opens
  simp only [ne_eq, bind_eq_ok, spaces_eq_ok, word_iff]
  constructor
  · rintro h ⟨t, ht⟩
    exact h () t ⟨(), _, rfl, ht.symm⟩
  · rintro h u t ⟨_, _, rfl, ht⟩
    exact h ⟨t, ht.symm⟩

/-- A keyword is read as the kind it stands for. -/
theorem kind_keyword (k : TagKind) : Tag.kind (k.keyword.toList ++ u) = .ok k u := by
  cases k <;> rfl

theorem tagStart_iff {k : TagKind} :
    (∃ t, Tag.tagStart s = .ok k t) ↔ (question k).Opens s := by
  unfold Tag.tagStart Opens
  simp only [bind_eq_ok, spaces_eq_ok, mark_iff, pure_apply, Reply.ok.injEq]
  constructor
  · rintro ⟨t, _, _, rfl, _, v, hv, j, w, hj, _, u, rfl, rfl, -⟩
    rw [Tag.kind_eq_ok hj] at hv
    exact ⟨u, by rw [hv]; simp⟩
  · rintro ⟨t, ht⟩
    exact ⟨t, (), _, rfl, (), k.keyword.toList ++ ':' :: t, by simp [← ht], k, ':' :: t,
      kind_keyword k, (), t, rfl, rfl, rfl⟩

theorem misses_tag_iff : Misses Tag.tag s ↔ ∀ k, ¬ (question k).Opens s := by
  rw [Tag.misses_tag_iff, Tag.steady_tagStart.tentative.fails_iff]
  simp only [← tagStart_iff, not_exists, ne_eq]

theorem opens_of_tag {q : QuestionTag} (h : Tag.tag s = .ok q u) : (question q.kind).Opens s := by
  rw [Tag.tag_eq] at h
  obtain ⟨k, t, hk, h⟩ := bind_eq_ok.mp h
  obtain ⟨_, _, -, h⟩ := bind_eq_ok.mp h
  cases h
  exact tagStart_iff.mp ⟨t, hk⟩

theorem misses_head_iff :
    Misses (Bullet.head (Bullet.width (s.takeWhile isSpace))) s ↔ ¬ bullet.Opens s := by
  rw [Bullet.misses_head_iff]
  unfold Opens
  constructor
  · rintro h ⟨m, g, u, c, t, hm, hg, hs, hc, ht⟩
    obtain ⟨w, rfl, hw⟩ := Clause.spells_of_clause hc
    obtain ⟨p, hp, hsplit⟩ := exists_spaces s
    have hstop : Stops isSpace (m :: (g ++ (w ++ t))) := stops_cons.mpr hm.not_space
    rw [hs] at hsplit
    have hwidth : s.takeWhile isSpace = p := by
      rw [hsplit, ← (run_iff.mpr ⟨rfl, hp, hstop⟩).1]
    obtain ⟨hspaces, harrow⟩ := h c t <| Bullet.stem_iff.mpr
      ⟨p, m, g, w ++ t, hp, by rw [hwidth], hm, hg, hw.stops, hsplit, hc⟩
    exact ht.elim hspaces harrow
  · rintro h c t hstem
    obtain ⟨p, m, g, u, hp, -, hm, hg, -, rfl, hc⟩ := Bullet.stem_iff.mp hstem
    have hstop : Stops isSpace (m :: (g ++ u)) := stops_cons.mpr hm.not_space
    exact not_or.mp fun ht => h ⟨m, g, u, c, t, hm, hg, dropWhile_spaces hp hstop, hc, ht⟩

/-! ## One construct at most -/

variable {k k' : Construct}

/-- The characters that a construct starts with. A directive line is told by its word. -/
inductive Sign : Construct → Char → Prop
  | heading : Sign heading '#'
  | startButton : Sign startButton '['
  | question {j : TagKind} : Sign (question j) '['
  | bullet {m : Char} : Bullet.Mark m → Sign bullet m

theorem Opens.sign (h : k.Opens s) : (∃ n ∈ Directive.all, k = .directive n ∧
    Directive.opensWith n s = true) ∨ ∃ c, k.Sign c ∧ initial s = some c := by
  unfold initial
  cases k with
  | heading =>
    obtain ⟨g, t, -, -, hs⟩ := h
    exact .inr ⟨'#', .heading, by rw [hs]; rfl⟩
  | startButton =>
    obtain ⟨t, hs⟩ := h
    exact .inr ⟨'[', .startButton, by rw [← hs]; rfl⟩
  | question j =>
    obtain ⟨t, hs⟩ := h
    exact .inr ⟨'[', .question, by rw [← hs]; rfl⟩
  | bullet =>
    obtain ⟨m, g, u, c, t, hm, -, hs, -⟩ := h
    exact .inr ⟨m, .bullet hm, by rw [hs]; rfl⟩
  | directive n => exact .inl ⟨n, h.1, rfl, h.2⟩

theorem not_isDirective_of_sign {c : Char} (hc : k.Sign c) (h : initial s = some c) :
    Directive.isDirective s = false := by
  cases hc with
  | heading | startButton | question =>
    exact Directive.not_isDirective_of_initial h (by decide) (by decide)
  | bullet hm =>
    exact Directive.not_isDirective_of_initial h (by rcases hm with rfl | rfl <;> decide)
      (hm.ne (by simp [Bullet.Mark]))

/-- Constructs with one sign are told apart by what comes after it. -/
theorem Sign.unique {c : Char} (hc : k.Sign c) (hc' : k'.Sign c) (h : k.Opens s) (h' : k'.Opens s) :
    k = k' := by
  have hnumber : ¬ Bullet.Mark '#' := by simp [Bullet.Mark]
  have hbracket : ¬ Bullet.Mark '[' := by simp [Bullet.Mark]
  have hstart {u v : List Char} (hu : u <+: s.dropWhile isSpace) (hv : v <+: s.dropWhile isSpace) :
      u <+: v ∨ v <+: u := List.prefix_or_prefix_of_prefix hu hv
  generalize hd : c = d at hc'
  cases hc with
  | heading =>
    cases hc' with
    | heading => rfl
    | startButton | question => simp at hd
    | bullet hm => exact absurd (hd ▸ hm) hnumber
  | startButton =>
    cases hc' with
    | heading => simp at hd
    | startButton => rfl
    | @question j => exact absurd (hstart h h') (by cases j <;> decide)
    | bullet hm => exact absurd (hd ▸ hm) hbracket
  | @question i =>
    cases hc' with
    | heading => simp at hd
    | startButton => exact absurd (hstart h h') (by cases i <;> decide)
    | @question j =>
      have hkeywords := hstart h h'
      cases i <;> cases j <;> simp [TagKind.keyword] at hkeywords ⊢
    | bullet hm => exact absurd (hd ▸ hm) hbracket
  | bullet hm =>
    cases hc' with
    | heading => exact absurd (hd ▸ hm) hnumber
    | startButton | question => exact absurd (hd ▸ hm) hbracket
    | bullet _ => rfl

/-- A line starts like one construct at most. -/
theorem Opens.unique (h : k.Opens s) (h' : k'.Opens s) : k = k' := by
  rcases h.sign with ⟨n, hn, rfl, hopens⟩ | ⟨c, hc, hi⟩ <;>
    rcases h'.sign with ⟨n', hn', rfl, hopens'⟩ | ⟨c', hc', hi'⟩
  · -- None of the words of directives starts another.
    have hnames : ∀ n ∈ Directive.all, ∀ m ∈ Directive.all,
        n.toList <+: m.toList ∨ m.toList <+: n.toList → n = m := by decide
    rw [hnames n hn n' hn' (Directive.opensWith_unique hopens hopens')]
  · have := not_isDirective_of_sign hc' hi'
    rw [Directive.isDirective_iff.mpr ⟨n, hn, hopens⟩] at this
    cases this
  · have := not_isDirective_of_sign hc hi
    rw [Directive.isDirective_iff.mpr ⟨n', hn', hopens'⟩] at this
    cases this
  · obtain rfl : c = c' := Option.some.inj (hi.symm.trans hi')
    exact hc.unique hc' h h'

theorem Opens.not_isVacant (h : k.Opens l.text) : l.isVacant = false := by
  rcases h.sign with ⟨n, hn, -, hopens⟩ | ⟨c, -, hi⟩
  · exact Line.not_isVacant_of_isDirective (Directive.isDirective_iff.mpr ⟨n, hn, hopens⟩)
  · exact Bool.eq_false_iff.mpr fun hv => not_spaces_of_initial hi (Line.isVacant_iff.mp hv)

/-! ## One block -/

/-- A line of prose has no mark if and only if it starts like no construct. -/
theorem unmarked_iff (hprose : Block.Prosaic s) :
    Block.Unmarked s ↔ ∀ k : Construct, ¬ k.Opens s := by
  constructor
  · intro hmark k h
    cases k with
    | heading =>
      -- A carriage return keeps a line from being a heading, and from being prose.
      exact misses_headingText_iff.mp hmark.heading ⟨h, hprose.1⟩
    | startButton => exact misses_startText_iff.mp hmark.start h
    | question j => exact misses_tag_iff.mp hmark.tag j h
    | bullet => exact misses_head_iff.mp hmark.bullet h
    | directive n =>
      have := Block.not_isDirective_of_prosaic hprose
      rw [Directive.isDirective_iff.mpr ⟨n, h⟩] at this
      cases this
  · intro hnot
    exact {
      heading := misses_headingText_iff.mpr fun h => hnot _ h.1
      start := misses_startText_iff.mpr (hnot _)
      tag := misses_tag_iff.mpr fun j => hnot _
      bullet := misses_head_iff.mpr (hnot _) }

/-- The lines with a property that come first. -/
theorem exists_longest (P : Line → Prop) (ls : List Line) :
    ∃ ms r, ls = ms ++ r ∧ (∀ m ∈ ms, P m) ∧ ∀ m ∈ r.head?, ¬ P m := by
  induction ls with
  | nil => exact ⟨[], [], rfl, nofun, nofun⟩
  | cons l ls ih =>
    by_cases hl : P l
    · obtain ⟨ms, r, rfl, hms, hr⟩ := ih
      exact ⟨l :: ms, r, rfl, List.forall_mem_cons.mpr ⟨hl, hms⟩, hr⟩
    · exact ⟨[], l :: ls, rfl, nofun, by simpa using hl⟩

/-- A paragraph is read where a line of prose starts like no construct, and only there. -/
theorem reads_paragraph_iff {f : Reader Line (List Block)} :
    (∃ t r, Block.single f ls = .ok (.paragraph t) r) ↔
      ∃ l ms, ls = l :: ms ∧ Block.Prosaic l.text ∧ ∀ k : Construct, ¬ k.Opens l.text := by
  constructor
  · rintro ⟨t, r, h⟩
    rcases Block.single_iff.mp h with h | ⟨ms, rfl, hms, -⟩
    · obtain ⟨l, ms, c, bs, e, ks, -, -, -, ⟨-, -, h⟩ | ⟨-, es, d, -, -, h⟩⟩ :=
        Block.branching_iff.mp h <;> cases h
    · cases hms with
      | @paragraph l ms hmark hprose =>
        have hl := hprose l List.mem_cons_self
        exact ⟨l, ms ++ r, rfl, hl, (unmarked_iff hl).mp hmark⟩
  · rintro ⟨l, ms, rfl, hl, hnot⟩
    obtain ⟨ks, r, rfl, hks, hr⟩ := exists_longest (Block.Prosaic ·.text) ms
    have hspans : Block.Spans (l :: ks) (.paragraph _) :=
      .paragraph ((unmarked_iff hl).mpr hnot) (List.forall_mem_cons.mpr ⟨hl, hks⟩)
    exact ⟨_, r, Block.single_of_spans hspans hr⟩

/-- A block is read as the construct that its first line starts like. -/
theorem stands_of_single (h : Block.single Block.list (l :: ls) = .ok b r) (hk : k.Opens l.text) :
    k.Stands ends (l :: ls) := by
  rcases Block.single_cases h with h | ⟨t, ht, -⟩ | ⟨t, ht, -⟩ | ⟨t, ht, -⟩ | ⟨q, hq, -⟩ |
    ⟨bs, hbs, -⟩ | ⟨t, -, rfl, -⟩
  · obtain ⟨_, _, c, _, _, _, heq, hl, -⟩ := Block.branching_iff.mp h
    cases heq
    have hopens : (directive "$IF").Opens l.text :=
      ⟨by simp [Directive.all], Block.opensWith_of_openingText hl⟩
    obtain rfl := hopens.unique hk
    exact .inl ⟨rfl, b, r, h⟩
  · obtain ⟨_, _, _, heq, -, hl, -⟩ := Block.nextSteps_iff.mp ht
    cases heq
    have hopens : (directive "$NEXTSTEPS").Opens l.text :=
      ⟨by simp [Directive.all], Directive.opensWith_of_directiveText (by simp [Directive.all]) hl⟩
    obtain rfl := hopens.unique hk
    exact .inr (.inl ⟨rfl, t, r, ht⟩)
  · obtain ⟨hl, -⟩ := line_cons_eq_ok.mp ht
    obtain rfl := (exists_headingText_iff.mp ⟨t, hl⟩).1.unique hk
    exact ⟨t, r, ht⟩
  · obtain ⟨hl, -⟩ := line_cons_eq_ok.mp ht
    have hopens : startButton.Opens l.text := by
      by_contra hnot
      exact (misses_startText_iff.mpr hnot).not_ok hl
    obtain rfl := hopens.unique hk
    exact ⟨t, r, ht⟩
  · obtain ⟨_, _, q', heq, hl, hq'⟩ := Block.question_iff.mp hq
    cases heq
    have hkind : q.kind = q'.kind := by
      rcases hq' with ⟨-, rfl, -⟩ | ⟨-, _, _, -, -, -, -, rfl⟩ <;> rfl
    obtain rfl := (opens_of_tag hl).unique hk
    exact ⟨q, r, hq, hkind⟩
  · have hopens : bullet.Opens l.text := by
      by_contra hnot
      have hfails : Fails (Block.rules <$> Bullet.block) (l :: ls) :=
        Block.rules_fails.mpr (misses_head_iff.mpr hnot)
      exact hfails.not_ok (map_eq_ok.mpr ⟨bs, hbs, rfl⟩)
    obtain rfl := hopens.unique hk
    exact ⟨bs, r, hbs⟩
  · obtain ⟨_, _, heq, -, hnot⟩ := reads_paragraph_iff.mp ⟨t, r, h⟩
    cases heq
    exact absurd hk (hnot k)

end Construct

/-! ## Whole documents -/

namespace Document

open Construct

variable {text : String} {d : Document}

/-- What follows the blocks that are read up to one of the directives: one of them, or the end of
the input. -/
def EndedBy (ends : List String) (r : List Line) : Prop :=
  r = [] ∨ ∃ n ∈ ends, ∃ u ms, Directive.directive n r = .ok u ms

theorem Reaches.ends_subset (h : Reaches text ends ls) : ends ⊆ Directive.all := by
  induction h with
  | body _ => simp
  | vacant _ _ ih | next _ _ _ ih => exact ih
  | thenBranch _ _ _ | elseBranch _ _ _ _ _ => decide

theorem opens_of_directiveText {n : String} {v : Unit} (hn : n ∈ Directive.all)
    (h : Directive.directiveText n s = .ok v []) : (directive n).Opens s :=
  ⟨hn, Directive.opensWith_of_directiveText hn h⟩

theorem endedBy_of_directiveText {n : String} (hn : n ∈ ends) (hall : n ∈ Directive.all)
    (h : Directive.directiveText n l.text = .ok () []) : EndedBy ends (l :: ls) :=
  .inr ⟨n, hn, (), ls, (Block.directive_iff hall).mpr ⟨l, rfl, h⟩⟩

/-- After the line that opens a conditional, its branches are read. -/
theorem exists_branch_of_list {bs : List Block} {c : Clause}
    (hl : Block.openingText l.text = .ok c []) (h : Block.list (l :: ls) = .ok bs r) :
    ∃ cs e ms, Block.list ls = .ok cs (e :: ms) ∧
      (Directive.directiveText "$ENDIF" e.text = .ok () [] ∨
        Directive.directiveText "$ELSE" e.text = .ok () [] ∧ ∃ es d ks,
          Block.list ms = .ok es (d :: ks) ∧
            Directive.directiveText "$ENDIF" d.text = .ok () []) := by
  have hopens := Block.opensWith_of_openingText hl
  obtain ⟨b, ms, cs, hb, -⟩ :=
    Block.exists_single_of_list (Block.begins_of_opensWith hopens (.inl rfl)) h
  have hk : (directive "$IF").Opens l.text := ⟨by simp [Directive.all], hopens⟩
  have hstands : (directive "$IF").Stands [] (l :: ls) := stands_of_single hb hk
  obtain ⟨-, b, ms, hb⟩ | ⟨hn, -⟩ | ⟨hn, -⟩ := hstands
  · obtain ⟨_, _, _, bs, e, ks, heq, -, hbs, he⟩ := Block.branching_iff.mp hb
    cases heq
    refine ⟨bs, e, ks, hbs, ?_⟩
    rcases he with ⟨he, -⟩ | ⟨he, es, d, hes, hd, -⟩
    · exact .inl he
    · exact .inr ⟨he, es, d, _, hes, hd⟩
  · exact absurd hn (by decide)
  · cases hn

/-- From a place that is reached in a document that is read, blocks are read up to their end. -/
theorem Reaches.read (h : Reaches text ends ls) (hd : ofText? text = .ok d) :
    ∃ bs r, Block.list ls = .ok bs r ∧ EndedBy ends r := by
  have hif : "$ENDIF" ∈ Directive.all := by simp [Directive.all]
  have helse : "$ELSE" ∈ Directive.all := by simp [Directive.all]
  induction h with
  | body hfront =>
    obtain ⟨ms, hfront', hread⟩ := ofText?_eq_ok.mp hd
    obtain rfl := hfront.unique hfront'
    exact ⟨d.body, [], Block.list_iff.mpr hread, .inl rfl⟩
  | vacant _ hv ih =>
    obtain ⟨bs, r, hlist, hend⟩ := ih
    exact ⟨bs, r, Block.list_iff.mpr ((Block.list_iff.mp hlist).of_vacant hv), hend⟩
  | next _ hl hb ih =>
    obtain ⟨bs, r, hlist, hend⟩ := ih
    -- The reader of blocks reads the same block here, and so leaves the same lines.
    obtain ⟨b', ms, cs, hb', hcs⟩ := Block.exists_single_of_list hl hlist
    rw [hb] at hb'
    cases hb'
    exact ⟨cs, r, hcs, hend⟩
  | thenBranch _ hl ih =>
    obtain ⟨bs, r, hlist, -⟩ := ih
    obtain ⟨cs, e, ms, hcs, he | ⟨he, -⟩⟩ := exists_branch_of_list hl hlist
    · exact ⟨cs, e :: ms, hcs, endedBy_of_directiveText (by simp) hif he⟩
    · exact ⟨cs, e :: ms, hcs, endedBy_of_directiveText (by simp) helse he⟩
  | elseBranch _ hl hbs he ih =>
    obtain ⟨bs, r, hlist, -⟩ := ih
    obtain ⟨cs, e', ms, hcs, he'⟩ := exists_branch_of_list hl hlist
    rw [hbs] at hcs
    cases hcs
    rcases he' with he' | ⟨-, es, d, ks, hes, hd⟩
    · -- No line is two directives.
      have := (opens_of_directiveText helse he).unique (opens_of_directiveText hif he')
      simp at this
    · exact ⟨es, d :: ks, hes, endedBy_of_directiveText (by simp) hif hd⟩

/-- Where a line of a document that is read starts like a construct, that construct is read. -/
theorem Reaches.stands {k : Construct} (h : Reaches text ends (l :: ls))
    (hd : ofText? text = .ok d) (hk : k.Opens l.text) : k.Stands ends (l :: ls) := by
  obtain ⟨bs, r, hlist, hend⟩ := h.read hd
  have hks : l :: ls = (l :: ls).dropWhile Line.isVacant := by
    rw [List.dropWhile_cons_of_neg (by simp [hk.not_isVacant])]
  rcases (Block.list_round hks).mp hlist with ⟨-, -, rfl⟩ | ⟨-, b, ms, cs, hb, -⟩
  · rcases hend with hnil | ⟨n, hn, u, ms, hread⟩
    · cases hnil
    · obtain ⟨_, heq, hl⟩ := (Block.directive_iff (h.ends_subset hn)).mp hread
      cases heq
      obtain rfl := (opens_of_directiveText (h.ends_subset hn) hl).unique hk
      exact .inr (.inr ⟨hn, u, _, hread⟩)
  · exact stands_of_single (Block.single_of_below hb) hk

end Document

namespace Construct

/-- **No construct becomes prose.** A paragraph is read where the first line is prose and starts
like no construct, and only there, whatever the branches of conditionals are read with. And where a
line of a document starts like a construct that cannot be read there, at any depth, the document is
not read. -/
theorem never_prose :
    (∀ (f : Reader Line (List Block)) (ls : List Line),
      (∃ t r, Block.single f ls = .ok (.paragraph t) r) ↔
        ∃ l ms, ls = l :: ms ∧ Block.Prosaic l.text ∧ ∀ k : Construct, ¬ k.Opens l.text) ∧
    (∀ (text : String) (ends : List String) (l : Line) (ms : List Line) (k : Construct),
      Document.Reaches text ends (l :: ms) → k.Opens l.text → ¬ k.Stands ends (l :: ms) →
        ∃ e, Document.ofText? text = .error e) := by
  refine ⟨fun f ls => reads_paragraph_iff, fun text ends l ms k hreach hk hnot => ?_⟩
  cases hd : Document.ofText? text with
  | ok d => exact absurd (hreach.stands hd hk) hnot
  | error e => exact ⟨e, rfl⟩

/-- A question without a name, in the branch of a conditional. -/
def nameless : String := "---\n---\n$IF a?\n\n[choice: ]\n$ENDIF"

/-- A paragraph that starts almost like a question, and a document that is not read. -/
theorem never_prose_nameless :
    (∃ l ms, [(⟨"[choices: a]".toList, .none⟩ : Line)] = l :: ms ∧ Block.Prosaic l.text ∧
      ∀ k : Construct, ¬ k.Opens l.text) ∧ ∃ e, Document.ofText? nameless = .error e := by
  have hsingle : Block.single Block.list [⟨"[choices: a]".toList, .none⟩] =
      .ok (.paragraph "[choices: a]") [] := by with_unfolding_all rfl
  refine ⟨(never_prose.1 Block.list _).mp ⟨"[choices: a]", [], hsingle⟩, ?_⟩
  have hlines : (Line.split nameless.toList).dropWhile Line.isVacant =
      [⟨"---".toList, .lineFeed⟩, ⟨"---".toList, .lineFeed⟩, ⟨"$IF a?".toList, .lineFeed⟩,
        ⟨[], .lineFeed⟩, ⟨"[choice: ]".toList, .lineFeed⟩, ⟨"$ENDIF".toList, .none⟩] := by
    decide +kernel
  have hfence : Document.Fence "---".toList := ⟨[], spaces_nil, rfl⟩
  have hbody := Document.Reaches.body <| hlines ▸ @Document.Front.fenced ⟨"---".toList, .lineFeed⟩
    ⟨"---".toList, .lineFeed⟩ [] _ [] hfence (by decide) .nil hfence
  have hopening : Block.openingText "$IF a?".toList = .ok (.named "a?") [] := by
    with_unfolding_all rfl
  have hbranch := (hbody.thenBranch hopening).vacant rfl
  refine never_prose.2 _ _ _ _ (.question .choice) hbranch ⟨" ]".toList, rfl⟩ ?_
  rintro ⟨q, r, h, -⟩
  obtain ⟨_, _, q', heq, hl, -⟩ := Block.question_iff.mp h
  cases heq
  cases hl

end Construct

end Interview
