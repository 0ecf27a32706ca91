import Interview.Proofs.Block.Grammar

/-!
# One block after another

The reader of one block takes the first kind that fits, and each kind is told by the start of its
first line. The reader of a list of blocks goes on until a branch ends, and calls itself for the
branches of a conditional.

* `Block.single_iff`: the reader of one block, given the reader of the blocks in a branch.
* `Block.list_iff`: the reader of a list of blocks reads exactly what the grammar says.
* `Block.reads_dropWhile`: vacant lines before a list of blocks make no difference.
* `Block.reads_plain_iff`: what is read where the lines of a block come first.
-/

namespace Interview

open Reader Text Word

namespace Block

variable {l : Line} {ls ms r : List Line} {b : Block} {bs : List Block}

/-! ## One block -/

theorem branching_fails {f : Reader Line (List Block)} (h : Misses openingText l.text) :
    Fails (branching f) (l :: ls) :=
  bind_fails_of_fails (line_fails.mpr h)

theorem nextSteps_fails (h : Misses (Directive.directiveText "$NEXTSTEPS") l.text) :
    Fails (nextSteps <$> Prose.nextSteps) (l :: ls) :=
  map_fails.mpr (bind_fails_of_fails (brokenLine_fails_of_misses h))

theorem heading_fails : Fails (heading <$> Prose.heading) (l :: ls) ↔
    Misses Prose.headingText l.text := map_fails.trans line_fails

theorem startButton_fails : Fails (startButton <$> Tag.startButton) (l :: ls) ↔
    Misses Tag.startText l.text := map_fails.trans line_fails

theorem question_fails : Fails (question <$> Tag.question) (l :: ls) ↔ Misses Tag.tag l.text := by
  rw [map_fails]
  unfold Tag.question
  rw [bind_fails, line_fails]
  refine or_iff_left ?_
  rintro ⟨q, ms, -, h⟩
  by_cases hk : q.kind = .choice
  · rw [if_pos hk] at h
    rcases bind_fails.mp h with h | ⟨cs, t, -, e, he, -⟩
    · exact not_fails_commit (hinting_fails.mp h)
    · cases he
  · rw [if_neg hk] at h
    obtain ⟨e, he, -⟩ := h
    cases he

theorem rules_fails : Fails (rules <$> Bullet.block) (l :: ls) ↔
    Misses (Bullet.head (Bullet.width (l.text.takeWhile isSpace))) l.text := by
  rw [map_fails, Bullet.block_fails_iff]
  simp [Bullet.Off, Bullet.nextColumn, nextText]

/-! The first kind of block that fits is read: the kinds before it do not start like it. -/

theorem skip {p q : Reader Line Block} (hf : Fails p ls) (h : q ls = .ok b r) :
    (p <|> q) ls = .ok b r := orElse_eq_ok_iff_fails.mpr (.inr ⟨hf, h⟩)

theorem directives_fail (f : Reader Line (List Block)) (ls : List Line)
    (h : Directive.isDirective l.text = false) :
    Fails (branching f) (l :: ls) ∧ Fails (nextSteps <$> Prose.nextSteps) (l :: ls) :=
  ⟨branching_fails (misses_openingText (Directive.not_opensWith (by simp [Directive.all]) h)),
    nextSteps_fails (Directive.misses_directiveText (by simp [Directive.all]) h)⟩

theorem heading_fails_of_initial {c : Char} (h : initial l.text = some c) (hne : c ≠ '#') :
    Fails (heading <$> Prose.heading) (l :: ls) :=
  heading_fails.mpr (Prose.startsWith_headingText.misses (by simpa [h] using hne))

variable {f : Reader Line (List Block)}

theorem single_of_nextSteps {t : String} (hopens : Directive.opensWith "$NEXTSTEPS" l.text = true)
    (h : Prose.nextSteps (l :: ls) = .ok t r) : single f (l :: ls) = .ok (.nextSteps t) r := by
  have hif : Directive.opensWith "$IF" l.text = false := Bool.eq_false_iff.mpr fun hif =>
    absurd (Directive.opensWith_unique hif hopens) (by decide)
  exact expecting_eq_ok.mpr <| skip (branching_fails (misses_openingText hif)) <|
    orElse_eq_ok_iff_fails.mpr <| .inl <| map_eq_ok.mpr ⟨t, h, rfl⟩

theorem single_of_heading {t : String} (hl : Prose.headingText l.text = .ok t []) :
    single f (l :: ls) = .ok (.heading t) ls := by
  have hi := Prose.startsWith_headingText.initial hl
  obtain ⟨hbranch, hnext⟩ := directives_fail f ls
    (Directive.not_isDirective_of_initial hi (by decide) (by decide))
  exact expecting_eq_ok.mpr <| skip hbranch <| skip hnext <| orElse_eq_ok_iff_fails.mpr <| .inl <|
    map_eq_ok.mpr ⟨t, line_cons_eq_ok.mpr ⟨hl, rfl⟩, rfl⟩

theorem single_of_startButton {t : String} (hl : Tag.startText l.text = .ok t []) :
    single f (l :: ls) = .ok (.startButton t) ls := by
  have hi := initial_of_startText hl
  obtain ⟨hbranch, hnext⟩ := directives_fail f ls
    (Directive.not_isDirective_of_initial hi (by decide) (by decide))
  exact expecting_eq_ok.mpr <| skip hbranch <| skip hnext <|
    skip (heading_fails_of_initial hi (by decide)) <| orElse_eq_ok_iff_fails.mpr <| .inl <|
      map_eq_ok.mpr ⟨t, line_cons_eq_ok.mpr ⟨hl, rfl⟩, rfl⟩

theorem single_of_question {q q' : QuestionTag} (hl : Tag.tag l.text = .ok q' [])
    (h : Tag.question (l :: ls) = .ok q r) : single f (l :: ls) = .ok (.question q) r := by
  have hi := initial_of_tag hl
  obtain ⟨k, t, hk⟩ := tagStart_of_tag hl
  obtain ⟨hbranch, hnext⟩ := directives_fail f ls
    (Directive.not_isDirective_of_initial hi (by decide) (by decide))
  have hstart : Fails (startButton <$> Tag.startButton) (l :: ls) :=
    startButton_fails.mpr (Tag.misses_startText_iff.mpr (Tag.startStart_fails_of_tagStart hk))
  exact expecting_eq_ok.mpr <| skip hbranch <| skip hnext <|
    skip (heading_fails_of_initial hi (by decide)) <| skip hstart <|
      orElse_eq_ok_iff_fails.mpr <| .inl <| map_eq_ok.mpr ⟨q, h, rfl⟩

theorem single_of_rules {m : Char} {bs : List Bullet} (hm : Bullet.Mark m)
    (hi : initial l.text = some m) (h : Bullet.block (l :: ls) = .ok bs r) :
    single f (l :: ls) = .ok (.rules bs) r := by
  have hne : ∀ d, ¬ Bullet.Mark d → initial l.text ≠ some d := by
    intro d hd
    rw [hi]
    exact fun h => hm.ne hd (Option.some.inj h)
  obtain ⟨hbranch, hnext⟩ := directives_fail f ls
    (Directive.not_isDirective_of_initial hi (by rcases hm with rfl | rfl <;> decide)
      (hm.ne (by simp [Bullet.Mark])))
  have hstart : Fails (startButton <$> Tag.startButton) (l :: ls) := startButton_fails.mpr
    (Tag.misses_startText_iff.mpr (Tag.startsWith_startStart (hne '[' (by simp [Bullet.Mark]))))
  have htag : Fails (question <$> Tag.question) (l :: ls) := question_fails.mpr
    (Tag.misses_tag_iff.mpr (Tag.startsWith_tagStart (hne '[' (by simp [Bullet.Mark]))))
  exact expecting_eq_ok.mpr <| skip hbranch <| skip hnext <|
    skip (heading_fails_of_initial hi (hm.ne (by simp [Bullet.Mark]))) <| skip hstart <|
      skip htag <| orElse_eq_ok_iff_fails.mpr <| .inl <| map_eq_ok.mpr ⟨bs, h, rfl⟩

theorem single_of_paragraph {t : String} (hprose : Prosaic l.text) (hmark : Unmarked l.text)
    (h : Prose.paragraph (l :: ls) = .ok t r) : single f (l :: ls) = .ok (.paragraph t) r := by
  obtain ⟨hbranch, hnext⟩ := directives_fail f ls (not_isDirective_of_prosaic hprose)
  exact expecting_eq_ok.mpr <| skip hbranch <| skip hnext <|
    skip (heading_fails.mpr hmark.heading) <| skip (startButton_fails.mpr hmark.start) <|
      skip (question_fails.mpr hmark.tag) <| skip (rules_fails.mpr hmark.bullet) <|
        map_eq_ok.mpr ⟨t, h, rfl⟩

theorem single_of_spans (h : Spans ms b) (hend : MayEnd b r) : single f (ms ++ r) = .ok b r := by
  cases h with
  | heading hl => exact single_of_heading hl
  | startButton hl => exact single_of_startButton hl
  | @nextSteps l e ms hl hb hms he =>
    rw [List.cons_append, List.append_assoc]
    exact single_of_nextSteps (Directive.opensWith_of_directiveText (by simp [Directive.all]) hl)
      (nextSteps_iff.mpr ⟨l, ms, e, rfl, rfl, hl, hb, hms, he⟩)
  | @question l q hl hk =>
    exact single_of_question hl (question_iff.mpr ⟨l, r, q, rfl, hl, .inl ⟨hk, rfl, rfl⟩⟩)
  | @choice l q ms cs hl hk hms hne =>
    exact single_of_question hl (question_iff.mpr
      ⟨l, ms ++ r, q, rfl, hl, .inr ⟨hk, cs, ms, hne, rfl, hms, hend hk, rfl⟩⟩)
  | @rules w bs ms hne hlaid =>
    obtain ⟨l, ks, c, o, rfl, hl⟩ := hlaid.first_read hne
    obtain ⟨t, hstem, -⟩ := Bullet.head_iff.mp hl
    obtain ⟨m, hm, hi⟩ := Bullet.initial_of_stem hstem
    exact single_of_rules hm hi (Bullet.block_iff.mpr ⟨w, l :: ks, rfl, hne, hlaid, hend⟩)
  | @paragraph l ms hmark hms =>
    exact single_of_paragraph (hms l List.mem_cons_self) hmark
      (paragraph_iff.mpr ⟨l :: ms, by simp, rfl, hms, hend, rfl⟩)

/-- What is read as one block is read by the first reader that fits. -/
theorem single_cases (h : single f ls = .ok b r) : branching f ls = .ok b r ∨
    (∃ t, Prose.nextSteps ls = .ok t r ∧ b = .nextSteps t) ∨
    (∃ t, Prose.heading ls = .ok t r ∧ b = .heading t) ∨
    (∃ t, Tag.startButton ls = .ok t r ∧ b = .startButton t) ∨
    (∃ q, Tag.question ls = .ok q r ∧ b = .question q) ∨
    (∃ bs, Bullet.block ls = .ok bs r ∧ b = .rules bs) ∨
    ∃ t, Prose.paragraph ls = .ok t r ∧ b = .paragraph t ∧
      Fails (heading <$> Prose.heading) ls ∧ Fails (startButton <$> Tag.startButton) ls ∧
      Fails (question <$> Tag.question) ls ∧ Fails (rules <$> Bullet.block) ls := by
  unfold single at h
  rw [expecting_eq_ok] at h
  rcases orElse_eq_ok_iff_fails.mp h with h | ⟨-, h⟩
  · exact .inl h
  rcases orElse_eq_ok_iff_fails.mp h with h | ⟨-, h⟩
  · obtain ⟨t, ht, rfl⟩ := map_eq_ok.mp h
    exact .inr (.inl ⟨t, ht, rfl⟩)
  rcases orElse_eq_ok_iff_fails.mp h with h | ⟨hheading, h⟩
  · obtain ⟨t, ht, rfl⟩ := map_eq_ok.mp h
    exact .inr (.inr (.inl ⟨t, ht, rfl⟩))
  rcases orElse_eq_ok_iff_fails.mp h with h | ⟨hstart, h⟩
  · obtain ⟨t, ht, rfl⟩ := map_eq_ok.mp h
    exact .inr (.inr (.inr (.inl ⟨t, ht, rfl⟩)))
  rcases orElse_eq_ok_iff_fails.mp h with h | ⟨hquestion, h⟩
  · obtain ⟨q, hq, rfl⟩ := map_eq_ok.mp h
    exact .inr (.inr (.inr (.inr (.inl ⟨q, hq, rfl⟩))))
  rcases orElse_eq_ok_iff_fails.mp h with h | ⟨hrules, h⟩
  · obtain ⟨bs, hbs, rfl⟩ := map_eq_ok.mp h
    exact .inr (.inr (.inr (.inr (.inr (.inl ⟨bs, hbs, rfl⟩)))))
  · obtain ⟨t, ht, rfl⟩ := map_eq_ok.mp h
    exact .inr (.inr (.inr (.inr (.inr (.inr
      ⟨t, ht, rfl, hheading, hstart, hquestion, hrules⟩)))))

/-- **One block.** A reader of blocks for the branches gives a reader of one block, which reads a
conditional or the lines of another block. -/
theorem single_iff : single f ls = .ok b r ↔
    branching f ls = .ok b r ∨ ∃ ms, ls = ms ++ r ∧ Spans ms b ∧ MayEnd b r := by
  constructor
  · intro h
    rcases single_cases h with h | ⟨t, ht, rfl⟩ | ⟨t, ht, rfl⟩ | ⟨t, ht, rfl⟩ | ⟨q, hq, rfl⟩ |
      ⟨bs, hbs, rfl⟩ | ⟨t, ht, rfl, hheading, hstart, hquestion, hrules⟩
    · exact .inl h
    all_goals right
    · obtain ⟨l, ms, e, rfl, rfl, hl, hb, hms, he⟩ := nextSteps_iff.mp ht
      exact ⟨l :: (ms ++ [e]), by simp, .nextSteps hl hb hms he, trivial⟩
    · obtain ⟨l, rfl, hl⟩ := (line_eq_ok Prose.hungry_headingText).mp ht
      exact ⟨[l], rfl, .heading hl, trivial⟩
    · obtain ⟨l, rfl, hl⟩ := (line_eq_ok Tag.hungry_startText).mp ht
      exact ⟨[l], rfl, .startButton hl, trivial⟩
    · obtain ⟨l, ms, q', rfl, hl, ⟨hk, rfl, rfl⟩ | ⟨hk, cs, ks, hne, rfl, hks, hr, rfl⟩⟩ :=
        question_iff.mp hq
      · exact ⟨[l], rfl, .question hl hk, fun h => absurd h hk⟩
      · exact ⟨l :: ks, rfl, .choice hl hk hks hne, fun _ => hr⟩
    · obtain ⟨w, ms, rfl, hne, hlaid, hends⟩ := Bullet.block_iff.mp hbs
      exact ⟨ms, rfl, .rules hne hlaid, hends⟩
    · obtain ⟨ms, hne, rfl, hms, hr, rfl⟩ := paragraph_iff.mp ht
      obtain ⟨l, ms, rfl⟩ := List.exists_cons_of_ne_nil hne
      exact ⟨l :: ms, rfl, .paragraph ⟨heading_fails.mp hheading, startButton_fails.mp hstart,
        question_fails.mp hquestion, rules_fails.mp hrules⟩ hms, hr⟩
  · rintro (h | ⟨ms, rfl, hms, hend⟩)
    · exact expecting_eq_ok.mpr (orElse_eq_ok_iff_fails.mpr (.inl h))
    · exact single_of_spans hms hend

/-- The reader of one block may be given a reader that reads more branches. -/
theorem single_mono {g : Reader Line (List Block)}
    (hfg : ∀ {ls bs r}, f ls = .ok bs r → g ls = .ok bs r) (h : single f ls = .ok b r) :
    single g ls = .ok b r := by
  rcases single_iff.mp h with h | h
  · obtain ⟨l, us, c, bs, e, vs, heq, hl, hbs, h⟩ := branching_iff.mp h
    refine single_iff.mpr (.inl (branching_iff.mpr ⟨l, us, c, bs, e, vs, heq, hl, hfg hbs, ?_⟩))
    rcases h with h | ⟨he, es, d, hes, hd⟩
    · exact .inl h
    · exact .inr ⟨he, es, d, hfg hes, hd⟩
  · exact single_iff.mpr (.inr h)

/-! ## Lists of blocks -/

theorem below_eq_ok {α : Type} {n : Nat} {p : Reader Line α} {a : α} :
    below n p ls = .ok a r ↔ ls.length < n ∧ p ls = .ok a r := by
  unfold below
  split
  · rename_i hlt
    simp [hlt]
  · rename_i hge
    simp [hge]

theorem vacantLines_eq_ok {u : Unit} :
    vacantLines ls = .ok u r ↔ r = ls.dropWhile Line.isVacant := by
  simp [vacantLines, eq_comm]

theorem remaining_eq_ok {ks : List Line} : remaining ls = .ok ks r ↔ ks = ls ∧ r = ls := by
  simp [remaining, eq_comm]

/-- One round of the reader of a list: the end of the branch, or a block and the rest. -/
theorem list_round {ks : List Line} (hks : ks = ls.dropWhile Line.isVacant) :
    list ls = .ok bs r ↔ atBranchEnd ks = true ∧ bs = [] ∧ r = ks ∨
      atBranchEnd ks = false ∧ ∃ b ms cs, single (below ls.length list) ks = .ok b ms ∧
        ms.length < ls.length ∧ list ms = .ok cs r ∧ bs = b :: cs := by
  subst hks
  have hfix : list ls = (do
      vacantLines
      if atBranchEnd (← remaining) then
        return []
      else
        let first ← single (below ls.length list)
        let others ← below ls.length list
        return first :: others : Reader Line (List Block)) ls := by
    show fix _ () ls = _
    rw [fix_eq]
    rfl
  rw [hfix]
  simp only [bind_eq_ok, vacantLines_eq_ok, remaining_eq_ok]
  constructor
  · rintro ⟨_, _, rfl, _, _, ⟨rfl, rfl⟩, h⟩
    cases hend : atBranchEnd (ls.dropWhile Line.isVacant) with
    | true =>
      rw [hend, if_pos rfl] at h
      cases h
      exact .inl ⟨rfl, rfl, rfl⟩
    | false =>
      rw [hend, if_neg (by decide)] at h
      simp only [bind_eq_ok, below_eq_ok, pure_apply, Reply.ok.injEq] at h
      obtain ⟨b, ms, hb, cs, _, ⟨hlt, hcs⟩, rfl, rfl⟩ := h
      exact .inr ⟨rfl, b, ms, cs, hb, hlt, hcs, rfl⟩
  · rintro (⟨hend, rfl, rfl⟩ | ⟨hend, b, ms, cs, hb, hlt, hcs, rfl⟩)
    · refine ⟨(), _, rfl, _, _, ⟨rfl, rfl⟩, ?_⟩
      rw [if_pos hend]
      rfl
    · refine ⟨(), _, rfl, _, _, ⟨rfl, rfl⟩, ?_⟩
      rw [if_neg (by simp [hend])]
      simp only [bind_eq_ok, below_eq_ok, pure_apply, Reply.ok.injEq]
      exact ⟨b, ms, hb, cs, r, ⟨hlt, hcs⟩, rfl, rfl⟩

/-- The reader of one block may be given a reader of longer branches. -/
theorem single_below_mono {n m : Nat} (hnm : n ≤ m) (h : single (below n list) ls = .ok b r) :
    single (below m list) ls = .ok b r := by
  refine single_mono (fun h => ?_) h
  obtain ⟨hlt, h⟩ := below_eq_ok.mp h
  exact below_eq_ok.mpr ⟨Nat.lt_of_lt_of_le hlt hnm, h⟩

theorem single_of_below {n : Nat} (h : single (below n list) ls = .ok b r) :
    single list ls = .ok b r := single_mono (fun h => (below_eq_ok.mp h).2) h

/-- A block that begins at once is read first. -/
theorem list_of_single {cs : List Block} (hl : Begins l)
    (hb : single (below (l :: ls).length list) (l :: ls) = .ok b ms)
    (hlt : ms.length < (l :: ls).length) (hcs : list ms = .ok cs r) :
    list (l :: ls) = .ok (b :: cs) r := by
  have hks : l :: ls = (l :: ls).dropWhile Line.isVacant := by
    rw [List.dropWhile_cons_of_neg (by simp [hl.1])]
  exact (list_round hks).mpr (.inr ⟨hl.2, b, ms, cs, hb, hlt, hcs, rfl⟩)

/-- Where a block begins, the reader of blocks reads one and goes on after it. -/
theorem exists_single_of_list (hl : Begins l) (h : list (l :: ls) = .ok bs r) :
    ∃ b ms cs, single list (l :: ls) = .ok b ms ∧ list ms = .ok cs r := by
  have hks : l :: ls = (l :: ls).dropWhile Line.isVacant := by
    rw [List.dropWhile_cons_of_neg (by simp [hl.1])]
  rcases (list_round hks).mp h with ⟨hend, -, -⟩ | ⟨-, b, ms, cs, hb, -, hcs, -⟩
  · exact absurd hend (by simp [atBranchEnd, hl.2])
  · exact ⟨b, ms, cs, single_of_below hb, hcs⟩

theorem Reads.suffix (h : Reads ls bs r) : r <:+ ls := by
  induction h with
  | stop _ => exact List.suffix_rfl
  | vacant _ _ ih => exact ih.trans (List.suffix_cons _ _)
  | plain _ _ _ ih => exact ih.trans (List.suffix_append _ _)
  | conditional _ _ _ _ ih ih' =>
    exact ih'.trans <| (List.suffix_cons _ _).trans <| ih.trans (List.suffix_cons _ _)
  | conditionalElse _ _ _ _ _ _ ih ih' ih'' =>
    exact ih''.trans <| (List.suffix_cons _ _).trans <| ih'.trans <| (List.suffix_cons _ _).trans <|
      ih.trans (List.suffix_cons _ _)

/-- A list of blocks ends where a branch does. -/
theorem Reads.stops (h : Reads ls bs r) : atBranchEnd r = true := by
  induction h with
  | stop h => exact h
  | vacant _ _ ih | plain _ _ _ ih => exact ih
  | conditional _ _ _ _ _ ih => exact ih
  | conditionalElse _ _ _ _ _ _ _ _ ih => exact ih

theorem not_isVacant_of_atBranchEnd (h : atBranchEnd (l :: ls) = true) : l.isVacant = false :=
  Line.not_isVacant_of_isDirective (Directive.isDirective_of_endsBranch h)

theorem Reads.of_vacant (h : Reads (l :: ls) bs r) (hv : l.isVacant = true) : Reads ls bs r := by
  have hbegins : ¬ Begins l := fun hl => by simp [hl.1] at hv
  generalize hks : l :: ls = ks at h
  cases h with
  | stop hend =>
    subst hks
    simp [not_isVacant_of_atBranchEnd hend] at hv
  | vacant _ h =>
    cases hks
    exact h
  | plain hms _ _ =>
    obtain ⟨m, ms, rfl, hm⟩ := hms.first
    cases hks
    exact absurd hm hbegins
  | conditional hl _ _ _ | conditionalElse hl _ _ _ _ _ =>
    cases hks
    exact absurd (begins_of_opensWith (opensWith_of_openingText hl) (.inl rfl)) hbegins

/-- After vacant lines a list of blocks is read as without them. -/
theorem reads_dropWhile : Reads (ls.dropWhile Line.isVacant) bs r ↔ Reads ls bs r := by
  induction ls with
  | nil => rfl
  | cons l ls ih =>
    cases hv : l.isVacant with
    | true =>
      rw [List.dropWhile_cons_of_pos hv, ih]
      exact ⟨.vacant hv, fun h => h.of_vacant hv⟩
    | false => rw [List.dropWhile_cons_of_neg (by simp [hv])]

/-- What the reader of blocks reads, the grammar says. -/
theorem reads_of_list (h : list ls = .ok bs r) : Reads ls bs r := by
  induction hn : ls.length using Nat.strongRecOn generalizing ls bs r with
  | ind n ih =>
    refine reads_dropWhile.mp ?_
    rcases (list_round rfl).mp h with ⟨hend, rfl, rfl⟩ | ⟨-, b, ms, cs, hb, hlt, hcs, rfl⟩
    · exact .stop hend
    have hrest := ih _ (hn ▸ hlt) hcs rfl
    rcases single_iff.mp hb with hb | ⟨ks, heq, hks, hend⟩
    · obtain ⟨l, us, c, bs, e, vs, heq, hl, hbs, h⟩ := branching_iff.mp hb
      obtain ⟨hus, hbs⟩ := below_eq_ok.mp hbs
      have hthen := ih _ (hn ▸ hus) hbs rfl
      rw [heq]
      rcases h with ⟨he, rfl, rfl⟩ | ⟨he, es, d, hes, hd, rfl⟩
      · exact .conditional hl hthen he hrest
      · obtain ⟨hvs, hes⟩ := below_eq_ok.mp hes
        exact .conditionalElse hl hthen he (ih _ (hn ▸ hvs) hes rfl) hd hrest
    · rw [heq]
      exact .plain hks hend hrest

theorem list_of_stop (hend : atBranchEnd ls = true) : list ls = .ok [] ls := by
  have hks : ls = ls.dropWhile Line.isVacant := by
    cases ls with
    | nil => rfl
    | cons l ls => rw [List.dropWhile_cons_of_neg (by simp [not_isVacant_of_atBranchEnd hend])]
  exact (list_round hks).mpr (.inl ⟨hend, rfl, rfl⟩)

theorem list_of_vacant (hv : l.isVacant = true) (h : list ls = .ok bs r) :
    list (l :: ls) = .ok bs r := by
  have hks : ls.dropWhile Line.isVacant = (l :: ls).dropWhile Line.isVacant := by
    rw [List.dropWhile_cons_of_pos hv]
  have hle : ls.length ≤ (l :: ls).length := Nat.le_succ _
  rcases (list_round rfl).mp h with h | ⟨hend, b, ms, cs, hb, hlt, hcs, rfl⟩
  · exact (list_round hks).mpr (.inl h)
  · exact (list_round hks).mpr (.inr ⟨hend, b, ms, cs, single_below_mono hle hb,
      Nat.lt_of_lt_of_le hlt hle, hcs, rfl⟩)

/-- What the grammar says, the reader of blocks reads. -/
theorem list_of_reads (h : Reads ls bs r) : list ls = .ok bs r := by
  induction h with
  | stop hend => exact list_of_stop hend
  | vacant hv _ ih => exact list_of_vacant hv ih
  | @plain ms ls r b bs hms hend _ ih =>
    obtain ⟨l, ks, rfl, hl⟩ := hms.first
    have hlt : ls.length < (l :: ks ++ ls).length := by
      rw [List.length_append, List.length_cons]
      omega
    exact list_of_single hl (single_of_spans hms hend) hlt ih
  | @conditional l e ls ms r c bs cs hl hthen he _ ihthen ih =>
    have hlen := hthen.suffix.length_le
    simp only [List.length_cons] at hlen
    have hbranch : branching (below (l :: ls).length list) (l :: ls) =
        .ok (.conditional c bs []) ms :=
      branching_iff.mpr ⟨l, ls, c, bs, e, ms, rfl, hl,
        below_eq_ok.mpr ⟨by simp, ihthen⟩, .inl ⟨he, rfl, rfl⟩⟩
    refine list_of_single (begins_of_opensWith (opensWith_of_openingText hl) (.inl rfl))
      (single_iff.mpr (.inl hbranch)) ?_ ih
    simp only [List.length_cons]
    omega
  | @conditionalElse l e d ls ms ks r c bs es cs hl hthen he helse hd _ ihthen ihelse ih =>
    have hlen := hthen.suffix.length_le
    have hlen' := helse.suffix.length_le
    simp only [List.length_cons] at hlen hlen'
    have hms : ms.length < (l :: ls).length := by
      rw [List.length_cons]
      omega
    have hbranch : branching (below (l :: ls).length list) (l :: ls) =
        .ok (.conditional c bs es) ks :=
      branching_iff.mpr ⟨l, ls, c, bs, e, ms, rfl, hl, below_eq_ok.mpr ⟨by simp, ihthen⟩,
        .inr ⟨he, es, d, below_eq_ok.mpr ⟨hms, ihelse⟩, hd, rfl⟩⟩
    refine list_of_single (begins_of_opensWith (opensWith_of_openingText hl) (.inl rfl))
      (single_iff.mpr (.inl hbranch)) ?_ ih
    rw [List.length_cons]
    omega

/-- **Lists of blocks.** The reader of blocks reads exactly what the grammar says. -/
theorem list_iff : list ls = .ok bs r ↔ Reads ls bs r := ⟨reads_of_list, list_of_reads⟩

/-- A block that is no conditional is read first where its lines come first. -/
theorem reads_plain_iff (hms : Spans ms b) (hend : MayEnd b ls) :
    Reads (ms ++ ls) bs r ↔ ∃ cs, bs = b :: cs ∧ Reads ls cs r := by
  constructor
  · intro h
    obtain ⟨l, ks, rfl, hl⟩ := hms.first
    have hfirst : l :: ks ++ ls = (l :: ks ++ ls).dropWhile Line.isVacant := by
      rw [List.cons_append, List.dropWhile_cons_of_neg (by simp [hl.1])]
    rcases (list_round hfirst).mp (list_iff.mpr h) with ⟨hstop, -⟩ | ⟨-, c, us, cs, hc, -, hcs, rfl⟩
    · simp [atBranchEnd, hl.2] at hstop
    · rw [single_of_spans hms hend] at hc
      cases hc
      exact ⟨cs, rfl, list_iff.mp hcs⟩
  · rintro ⟨cs, rfl, hcs⟩
    exact .plain hms hend hcs

end Block

end Interview
