import Interview.Proofs.Bullet.Reading

/-!
# How the lines that open blocks start

The first character of a line after its spaces tells most kinds of lines apart: `$` starts the
directives, `#` a heading, `[` a tag, `*` and `-` a bullet. A reader of lines that `StartsWith` a
character cannot be read where another one stands.

* `StartsWith.misses`, `StartsWith.initial`: what such a reader says about a line.
* `misses_openingText`, `misses_directiveText`: lines that are no directives.
* `misses_startText_iff`, `misses_tag_iff`, `misses_head_iff`: once the start of a tag or the arrow
  of a bullet is read, there is no way back.
-/

namespace Interview

open Reader Text Word

namespace Text

variable {s : List Char} {c : Char}

/-- The first character of a line that is no space or tab. -/
def initial (s : List Char) : Option Char := (s.dropWhile isSpace).head?

theorem initial_eq_some : initial s = some c ↔
    ∃ g t, Spaces g ∧ isSpace c = false ∧ s = g ++ c :: t := by
  constructor
  · intro h
    obtain ⟨t, ht⟩ := List.head?_eq_some_iff.mp h
    obtain ⟨g, hg, hs⟩ := exists_spaces s
    rw [ht] at hs
    have hstop : Stops isSpace (s.dropWhile isSpace) := stops_dropWhile
    rw [ht] at hstop
    exact ⟨g, t, hg, stops_cons.mp hstop, hs⟩
  · rintro ⟨g, t, hg, hc, rfl⟩
    rw [initial, dropWhile_spaces hg (stops_cons.mpr hc)]
    rfl

theorem not_spaces_of_initial (h : initial s = some c) : ¬ Spaces s := by
  obtain ⟨g, t, -, hc, rfl⟩ := initial_eq_some.mp h
  intro hs
  have := hs c (by simp)
  simp [hc] at this

theorem trimStart_of_initial (h : initial s = some c) (hc : isBlank c = false) :
    ∃ t, trimStart s = c :: t := by
  obtain ⟨g, t, hg, -, rfl⟩ := initial_eq_some.mp h
  exact ⟨t, trimStart_spaces_append hg hc⟩

/-- A text that ends in something other than a blank keeps what comes after it apart. -/
theorem trimEnd_append_of_last {x t : List Char} (hx : ∀ c ∈ x.getLast?, isBlank c = false) :
    trimEnd (x ++ t) = x ++ trimEnd t := by
  by_cases ht : ∀ c ∈ t, isBlank c = true
  · rw [trimEnd_append ht, trimEnd_eq_self hx]
    have hnil : trimEnd t = [] := trimEnd_append (s := []) ht
    rw [hnil, List.append_nil]
  · unfold trimEnd
    rw [List.reverse_append, List.dropWhile_append, if_neg (by simpa using ht), List.reverse_append,
      List.reverse_reverse]

/-- A text that starts with something other than a blank after its spaces starts with it when it is
trimmed. -/
theorem head?_trim (h : initial s = some c) (hc : isBlank c = false) : (trim s).head? = some c := by
  obtain ⟨u, hu⟩ := trimStart_of_initial h hc
  have hlast : ∀ d ∈ [c].getLast?, isBlank d = false := by simpa using hc
  rw [trim, hu, ← List.singleton_append, trimEnd_append_of_last hlast]
  rfl

theorem trim_eq_nil_iff : trim s = [] ↔ ∀ c ∈ s, isBlank c = true := by
  constructor
  · intro h
    have hstart : trimStart s = [] := by
      have hall : ∀ c ∈ trimStart s, isBlank c = true := by
        simpa [trim, trimEnd, List.dropWhile_eq_nil_iff] using h
      by_contra hne
      obtain ⟨c, t, hct⟩ := List.exists_cons_of_ne_nil hne
      have hhead := List.head?_dropWhile_not isBlank s
      rw [trimStart] at hct
      have := hall c (by simp [trimStart, hct])
      simp [hct, this] at hhead
    exact List.dropWhile_eq_nil_iff.mp hstart
  · intro h
    have hstart : trimStart s = [] := List.dropWhile_eq_nil_iff.mpr h
    simp [trim, hstart, trimEnd]

end Text

namespace Directive

variable {s : List Char} {n : String} {c : Char}

/-- A line with another first character is no directive line. -/
theorem not_isDirective_of_initial (h : initial s = some c) (hc : isBlank c = false)
    (hne : c ≠ '$') : isDirective s = false := by
  refine Bool.eq_false_iff.mpr fun hd => ?_
  obtain ⟨t, ht⟩ := exists_dollar hd
  obtain ⟨u, hu⟩ := trimStart_of_initial h hc
  rw [ht] at hu
  exact hne (List.cons.inj hu).1.symm

theorem last_not_blank (h : n ∈ all) : ∀ c ∈ n.toList.getLast?, isBlank c = false := by
  refine (Option.any_eq_false ..).mp ?_
  simp only [all, List.mem_cons, List.not_mem_nil, or_false] at h
  rcases h with rfl | rfl | rfl | rfl | rfl <;> decide

/-- A line that starts with the word of a directive, alone or before a space, is its line. -/
theorem opensWith_of_word {g t : List Char} (hn : n ∈ all) (hg : Spaces g)
    (ht : ∀ c ∈ t.head?, isSpace c = true) : opensWith n (g ++ (n.toList ++ t)) = true := by
  obtain ⟨x, hx⟩ := exists_name_dollar hn
  have htrim : trim (g ++ (n.toList ++ t)) = n.toList ++ trimEnd t := by
    rw [trim, hx, List.cons_append, trimStart_spaces_append hg (by decide), ← List.cons_append, ← hx,
      trimEnd_append_of_last (last_not_blank hn)]
  have hsplit := trimEnd_append_takeWhile t
  unfold opensWith
  rw [htrim]
  cases h : trimEnd t with
  | nil => simp
  | cons c u =>
    rw [h] at hsplit
    have hc : isSpace c = true := ht c (by rw [← hsplit]; rfl)
    simp [hc]

theorem not_opensWith (hn : n ∈ all) (h : isDirective s = false) : opensWith n s = false :=
  Bool.eq_false_iff.mpr fun hopens => by
    rw [isDirective_iff.mpr ⟨n, hn, hopens⟩] at h
    cases h

/-- A directive line starts with its word, after blanks. -/
theorem isPrefix_of_opensWith (h : opensWith n s = true) : n.toList <+: trimStart s := by
  simp only [opensWith, Bool.and_eq_true, List.isPrefixOf_iff_prefix] at h
  obtain ⟨⟨t, ht⟩, -⟩ := h
  have hend := trimEnd_append_takeWhile (trimStart s)
  rw [← trim, ← ht, List.append_assoc] at hend
  exact ⟨_, hend⟩

/-- A directive line opens with one word only. -/
theorem opensWith_unique {m : String} (hn : opensWith n s = true) (hm : opensWith m s = true) :
    n.toList <+: m.toList ∨ m.toList <+: n.toList :=
  List.prefix_or_prefix_of_prefix (isPrefix_of_opensWith hn) (isPrefix_of_opensWith hm)

end Directive

namespace Reader

variable {α β : Type} {p : Reader Char α} {f : α → Reader Char β} {s r : List Char} {d : Char}
  {a : α}

/-- After spaces, `p` needs the character `d`. -/
def StartsWith (d : Char) (p : Reader Char α) : Prop := ∀ ⦃s⦄, initial s ≠ some d → Fails p s

theorem StartsWith.bind (h : StartsWith d p) : StartsWith d (p >>= f) :=
  fun _ hs => bind_fails_of_fails (h hs)

theorem startsWith_spaces_bind (h : ∀ {s}, s.head? ≠ some d → Fails p s) :
    StartsWith d (spaces >>= fun _ => p) :=
  fun _ hs => bind_fails.mpr (.inr ⟨(), _, spaces_eq_ok.mpr rfl, h hs⟩)

theorem StartsWith.misses (h : StartsWith d p) (hs : initial s ≠ some d) : Misses p s :=
  .inr (h hs)

/-- What such a reader reads starts with its character. -/
theorem StartsWith.initial (h : StartsWith d p) (hs : p s = .ok a r) : initial s = some d := by
  by_contra hne
  exact (h hne).not_ok hs

theorem mark_fails (h : s.head? ≠ some d) : Fails (mark d) s := by
  refine bind_fails_of_fails ?_
  unfold Fails character
  cases s with
  | nil => simp
  | cons c s =>
    have hc : (c == d) = false := beq_eq_false_iff_ne.mpr fun h' => h (by rw [h']; rfl)
    simp [hc]

theorem word_fails_of_head {w : String} {x : List Char} (hw : w.toList = d :: x)
    (h : s.head? ≠ some d) : Fails (word w) s := by
  refine word_fails ?_
  rintro ⟨t, rfl⟩
  exact h (by rw [hw]; rfl)

end Reader

namespace Directive

variable {s r : List Char} {n : String}

theorem directiveText_iff (h : n ∈ all) {u : Unit} : directiveText n s = .ok u [] ↔
    ∃ g p, Spaces g ∧ Spaces p ∧ s = g ++ (n.toList ++ p) := by
  obtain ⟨x, hx⟩ := exists_name_dollar h
  unfold directiveText
  simp only [bind_eq_ok, spaces_iff, word_iff]
  constructor
  · rintro ⟨_, _, ⟨g, hg, rfl, -⟩, _, _, rfl, p, hp, rfl, -⟩
    exact ⟨g, p, hg, hp, by simp⟩
  · rintro ⟨g, p, hg, hp, rfl⟩
    have hstop : Stops isSpace (n.toList ++ p) := by
      rw [hx]
      exact stops_cons.mpr (by decide)
    exact ⟨(), _, ⟨g, hg, rfl, hstop⟩, (), p, rfl, p, hp, by simp, stops_nil⟩

theorem opensWith_of_directiveText (h : n ∈ all) {u : Unit} (hs : directiveText n s = .ok u []) :
    opensWith n s = true := by
  obtain ⟨g, p, hg, hp, rfl⟩ := (directiveText_iff h).mp hs
  exact opensWith_of_word h hg fun c hc => hp c (List.mem_of_mem_head? hc)

/-- A line that is no directive line is read as no directive. -/
theorem misses_directiveText (h : n ∈ all) (hs : isDirective s = false) :
    Misses (directiveText n) s := by
  refine (tentative_directiveText n).misses_iff.mpr fun u hu => ?_
  have := isDirective_iff.mpr ⟨n, h, opensWith_of_directiveText h hu⟩
  simp [hs] at this

end Directive

namespace Block

variable {s r : List Char}

/-- The start of an `$IF` line, after which there must be a condition. -/
def openingStart : Reader Char Unit := do
  spaces
  word "$IF"
  spaces1

theorem openingText_eq :
    openingText = openingStart >>= fun _ => lastCondition.commit.within "$IF predicate" := by
  unfold openingText openingStart
  simp only [bind_assoc]

theorem opensWith_of_openingStart {u : Unit} (h : openingStart s = .ok u r) :
    Directive.opensWith "$IF" s = true := by
  unfold openingStart at h
  simp only [bind_eq_ok, spaces_iff, word_iff, spaces1_iff] at h
  obtain ⟨_, _, ⟨g, hg, rfl, -⟩, _, _, rfl, k, hne, hk, rfl, -⟩ := h
  refine Directive.opensWith_of_word (by simp [Directive.all]) hg fun c hc => ?_
  obtain ⟨d, k, rfl⟩ := List.exists_cons_of_ne_nil hne
  cases hc
  exact hk c List.mem_cons_self

theorem opensWith_of_openingText {c : Clause} (h : openingText s = .ok c r) :
    Directive.opensWith "$IF" s = true := by
  rw [openingText_eq] at h
  obtain ⟨_, t, hstart, -⟩ := bind_eq_ok.mp h
  exact opensWith_of_openingStart hstart

/-- Once the start of an `$IF` line is read there is no way back. -/
theorem misses_openingText (h : Directive.opensWith "$IF" s = false) : Misses openingText s := by
  have htentative : Tentative openingStart := loose_spaces.tentative.bind fun _ =>
    (steady_word (by decide)).tentative.bind fun _ => loose_spaces1.tentative
  rw [openingText_eq]
  refine .inr (bind_fails_of_fails (htentative.fails_iff.mpr fun u t hu => ?_))
  rw [opensWith_of_openingStart hu] at h
  cases h

end Block

namespace Prose

theorem startsWith_headingText : StartsWith '#' headingText :=
  startsWith_spaces_bind fun hs => bind_fails_of_fails (mark_fails hs)

end Prose

namespace Tag

variable {s r : List Char}

theorem startsWith_startStart : StartsWith '[' startStart :=
  startsWith_spaces_bind fun hs => word_fails_of_head (x := "start:".toList) rfl hs

theorem startsWith_tagStart : StartsWith '[' tagStart :=
  startsWith_spaces_bind fun hs => bind_fails_of_fails (mark_fails hs)

/-- A reader that goes on with a committed one misses what it does not start to read. -/
theorem misses_bind_commit {α β : Type} {p : Reader Char α} {f : α → Reader Char β}
    (hf : ∀ {a t}, ¬ Fails (f a) t) (hall : ∀ {a t b r}, f a t = .ok b r → r = []) :
    Misses (p >>= f) s ↔ Fails p s := by
  constructor
  · rintro (⟨b, c, r, h⟩ | h)
    · obtain ⟨a, t, -, hb⟩ := bind_eq_ok.mp h
      exact absurd (hall hb) (by simp)
    · rcases bind_fails.mp h with h | ⟨a, t, -, h⟩
      · exact h
      · exact absurd h hf
  · exact fun h => .inr (bind_fails_of_fails h)

theorem finished_bind_eq_ok {α : Type} {a b : α} :
    (finished >>= fun _ => (pure a : Reader Char α)) s = .ok b r → r = [] := by
  intro h
  obtain ⟨_, t, ht, h⟩ := bind_eq_ok.mp h
  cases h
  exact (finished_eq_ok.mp ht).2

theorem misses_startText_iff : Misses startText s ↔ Fails startStart s := by
  rw [startText_eq]
  refine misses_bind_commit (fun h => not_fails_commit (hinting_fails.mp h)) fun h => ?_
  rw [within_eq_ok, commit_eq_ok] at h
  unfold startContent at h
  obtain ⟨_, _, -, h⟩ := bind_eq_ok.mp h
  obtain ⟨_, _, -, h⟩ := bind_eq_ok.mp h
  obtain ⟨_, _, -, h⟩ := bind_eq_ok.mp h
  obtain ⟨_, _, -, h⟩ := bind_eq_ok.mp h
  obtain ⟨_, _, -, h⟩ := bind_eq_ok.mp h
  exact finished_bind_eq_ok h

theorem misses_tag_iff : Misses tag s ↔ Fails tagStart s := by
  rw [tag_eq]
  refine misses_bind_commit (fun h => ?_) fun h => ?_
  · rcases bind_fails.mp h with h | ⟨c, t, -, e, he, -⟩
    · exact not_fails_commit (hinting_fails.mp h)
    · cases he
  · obtain ⟨c, t, hc, h⟩ := bind_eq_ok.mp h
    cases h
    rw [within_eq_ok, commit_eq_ok] at hc
    unfold content at hc
    obtain ⟨_, _, -, h⟩ := bind_eq_ok.mp hc
    obtain ⟨_, _, -, h⟩ := bind_eq_ok.mp h
    obtain ⟨_, _, -, h⟩ := bind_eq_ok.mp h
    obtain ⟨_, _, -, h⟩ := bind_eq_ok.mp h
    obtain ⟨_, _, -, h⟩ := bind_eq_ok.mp h
    obtain ⟨_, _, -, h⟩ := bind_eq_ok.mp h
    exact finished_bind_eq_ok h

theorem kind_eq_ok {k : TagKind} (h : kind s = .ok k r) : s = k.keyword.toList ++ r := by
  have hkeyword : ∀ {j}, keyword j s = .ok k r → s = k.keyword.toList ++ r := by
    intro j h
    unfold keyword at h
    simp only [bind_eq_ok, word_iff, pure_apply, Reply.ok.injEq] at h
    obtain ⟨_, _, rfl, rfl, rfl⟩ := h
    rfl
  unfold kind at h
  simp only [orElse_eq_ok_iff_fails] at h
  rcases h with h | ⟨-, h | ⟨-, h | ⟨-, h | ⟨-, h⟩⟩⟩⟩ <;> exact hkeyword h

/-- No start button has the keyword of a question. -/
theorem startStart_fails_of_tagStart {k : TagKind} (h : tagStart s = .ok k r) :
    Fails startStart s := by
  refine steady_startStart.tentative.fails_iff.mpr fun u t ht => ?_
  unfold tagStart at h
  unfold startStart at ht
  simp only [bind_eq_ok, spaces_eq_ok, mark_iff, word_iff] at h ht
  obtain ⟨_, _, rfl, _, v, hv, j, x, hj, _, _, rfl, -⟩ := h
  obtain ⟨_, _, rfl, ht⟩ := ht
  rw [hv, kind_eq_ok hj] at ht
  cases j <;> simp [TagKind.keyword] at ht

theorem initial_of_choice {c : String × String} (h : choice s = .ok c r) :
    ∃ m, Bullet.Mark m ∧ initial s = some m := by
  obtain ⟨_, t, ht, h⟩ := bind_eq_ok.mp h
  obtain ⟨_, u, hu, -⟩ := bind_eq_ok.mp h
  obtain ⟨m, hm, rfl⟩ := Bullet.bulletMark_iff.mp hu
  obtain ⟨g, hg, rfl, -⟩ := spaces_iff.mp ht
  exact ⟨m, hm, initial_eq_some.mpr ⟨g, u, hg, hm.not_space, rfl⟩⟩

end Tag

namespace Bullet

variable {s t r : List Char} {w : Nat} {c : Clause}

theorem Mark.ne {m d : Char} (h : Mark m) (hd : ¬ Mark d) : m ≠ d := by
  rintro rfl
  exact hd h

theorem initial_of_stem (h : stem w s = .ok c t) : ∃ m, Mark m ∧ initial s = some m := by
  obtain ⟨g, m, k, u, hg, -, hm, -, -, rfl, -⟩ := stem_iff.mp h
  exact ⟨m, hm, initial_eq_some.mpr ⟨g, _, hg, hm.not_space, rfl⟩⟩

theorem lastTarget_not_misses : ¬ Misses lastTarget s := by
  unfold lastTarget
  simp only [misses_bind, not_or, not_exists, not_and]
  refine ⟨?_, fun _ u _ => ⟨fun h => not_fails_commit (hinting_fails.mp h), fun n v _ =>
    ⟨not_fails_commit, fun _ x hx => ?_⟩⟩⟩
  · rintro ⟨e, h, -⟩
    cases h
  · rintro (⟨_, _, _, h⟩ | ⟨e, h, -⟩)
    · cases h
      obtain ⟨_, y, -, hy⟩ := bind_eq_ok.mp (commit_eq_ok.mp hx)
      cases (finished_eq_ok.mp hy).2
    · cases h

theorem misses_ending_iff :
    Misses ending t ↔ ¬ Spaces t ∧ ¬ "=>".toList <+: t.dropWhile isSpace := by
  have hsame : ending t = ((word "=>").maybe >>= fun arrow => if arrow.isSome then
      lastTarget >>= fun name => pure (some name) else pure none) (t.dropWhile isSpace) := rfl
  by_cases harrow : "=>".toList <+: t.dropWhile isSpace
  · refine iff_of_false ?_ fun h => h.2 harrow
    obtain ⟨u, hu⟩ := harrow
    have hread : (word "=>").maybe (t.dropWhile isSpace) = .ok (some ()) u :=
      maybe_eq_ok.mpr (.inl ⟨(), rfl, word_iff.mpr hu.symm⟩)
    have hgo : ending t = (lastTarget >>= fun name => pure (some name)) u := by
      rw [hsame]
      show Reader.bind _ _ _ = _
      unfold Reader.bind
      rw [hread]
      rfl
    intro h
    have h : Misses (lastTarget >>= fun name => (pure (some name) : Reader Char _)) u := by
      simpa only [Misses, Fails, hgo] using h
    rcases misses_bind.mp h with h | ⟨n, v, hn, h⟩
    · exact lastTarget_not_misses (.inr h)
    · rcases h with ⟨_, d, x, h⟩ | ⟨e, h, -⟩
      · cases h
        exact lastTarget_not_misses (.inl ⟨n, d, x, hn⟩)
      · cases h
  · have hread : (word "=>").maybe (t.dropWhile isSpace) = .ok none (t.dropWhile isSpace) :=
      maybe_eq_ok.mpr (.inr ⟨rfl, rfl, word_fails harrow⟩)
    have hgo : ending t = .ok none (t.dropWhile isSpace) := by
      rw [hsame]
      show Reader.bind _ _ _ = _
      unfold Reader.bind
      rw [hread]
      rfl
    simp only [harrow, not_false_eq_true, and_true, spaces_iff_dropWhile]
    unfold Misses Fails
    rw [hgo]
    cases t.dropWhile isSpace <;> simp

/-- A line is missed as a bullet if it does not start as one, or if neither the end of the line
nor an arrow follows its condition. -/
theorem misses_head_iff : Misses (head w) s ↔
    ∀ c t, stem w s = .ok c t → ¬ Spaces t ∧ ¬ "=>".toList <+: t.dropWhile isSpace := by
  have hpure : ∀ {c t}, Misses (ending >>= fun o => (pure (c, o) : Reader Char (Clause × _))) t ↔
      Misses ending t := by
    intro c t
    constructor
    · rintro (⟨_, d, r, h⟩ | h)
      · obtain ⟨o, u, ho, h⟩ := bind_eq_ok.mp h
        cases h
        exact .inl ⟨o, d, r, ho⟩
      · rcases bind_fails.mp h with h | ⟨_, _, -, e, h, -⟩
        · exact .inr h
        · cases h
    · rintro (⟨o, d, r, h⟩ | h)
      · exact .inl ⟨(c, o), d, r, bind_eq_ok.mpr ⟨o, d :: r, h, rfl⟩⟩
      · exact .inr (bind_fails_of_fails h)
  rw [head_eq, misses_bind]
  simp only [hpure, misses_ending_iff]
  constructor
  · rintro (h | ⟨c, t, hstem, h⟩) c' t' hstem'
    · exact absurd hstem' h.not_ok
    · rw [hstem] at hstem'
      cases hstem'
      exact h
  · intro h
    cases hs : stem w s with
    | fail e => exact .inl ⟨e, hs, (steady_stem w).tentative hs⟩
    | ok c t => exact .inr ⟨c, t, rfl, h c t hs⟩

end Bullet

end Interview
