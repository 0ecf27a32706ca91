import Interview.Proofs.Block.Likeness
import Interview.Proofs.Block.Sequence

/-!
# Front matter

Which lines spell front matter, said as a relation beside the readers. `Front ls es r` holds of
lines that start with the entries `es`, between two fences or up to a vacant line, and go on with
the lines `r`; or that start with neither, and then there are no entries.

* `Document.reader_iff`: what is read as a document.
* `Document.ofText?_eq_ok`: and which texts spell it.
-/

namespace Interview

open Reader Text Word

namespace Document

variable {l m : Line} {ls ms r : List Line} {es : List (String × String)} {s : List Char}

/-- Three hyphens, with spaces after them. -/
def Fence (s : List Char) : Prop := ∃ p, Spaces p ∧ s = "---".toList ++ p

/-- The lines of some entries. -/
def Entries (ms : List Line) (es : List (String × String)) : Prop :=
  List.Forall₂ (fun m e => entryText m.text = .ok e []) ms es

/-- The lines `ls` start with entries, and go on with a vacant line or end after them. -/
def Bare (ls : List Line) (es : List (String × String)) (r : List Line) : Prop :=
  es ≠ [] ∧ ∃ ms, ls = ms ++ r ∧ Entries ms es ∧ ∀ l ∈ r.head?, l.isVacant = true

/-- The lines that start with some entries of front matter and go on with the lines `r`. -/
inductive Front : List Line → List (String × String) → List Line → Prop
  | fenced {l e : Line} {ms r : List Line} {es : List (String × String)} : Fence l.text →
      l.ending ≠ .none → Entries ms es → Fence e.text → Front (l :: (ms ++ e :: r)) es r
  | bare {ls r : List Line} {es : List (String × String)} : Bare ls es r → Front ls es r
  | absent {ls : List Line} : (∀ l ∈ ls.head?, Fence l.text → l.ending = .none) →
      (∀ es r, ¬ Bare ls es r) → Front ls [] ls

/-! ## Lines -/

theorem fence_iff {u : Unit} : fence s = .ok u [] ↔ Fence s := by
  unfold fence Fence
  simp only [bind_eq_ok, word_iff, spaces_iff]
  constructor
  · rintro ⟨_, _, rfl, p, hp, rfl, -⟩
    exact ⟨p, hp, by simp⟩
  · rintro ⟨p, hp, rfl⟩
    exact ⟨(), p, rfl, p, hp, by simp, stops_nil⟩

/-- An entry starts with name characters and a colon. -/
theorem exists_key_of_entryText {e : String × String} (h : entryText s = .ok e []) :
    ∃ c k t, isNameChar c = true ∧ s = c :: (k ++ ':' :: t) := by
  unfold entryText at h
  simp only [bind_eq_ok, takeWhile1_iff, mark_iff] at h
  obtain ⟨k, _, ⟨hne, rfl, hall, -⟩, _, t, rfl, -⟩ := h
  obtain ⟨c, k, rfl⟩ := List.exists_cons_of_ne_nil hne
  exact ⟨c, k, t, hall c List.mem_cons_self, rfl⟩

theorem misses_entryText (h : ':' ∉ s) : Misses entryText s := by
  refine tentative_entryText.misses_iff.mpr fun e he => h ?_
  obtain ⟨c, k, t, -, rfl⟩ := exists_key_of_entryText he
  simp

theorem not_mem_of_fence (h : Fence s) : ':' ∉ s := by
  obtain ⟨p, hp, rfl⟩ := h
  intro hmem
  rcases List.mem_append.mp hmem with hmem | hmem
  · exact absurd hmem (by decide)
  · exact absurd (hp ':' hmem) (by decide)

theorem not_mem_of_isVacant (h : l.isVacant = true) : ':' ∉ l.text := fun hmem =>
  absurd (Line.isVacant_iff.mp h ':' hmem) (by decide)

theorem Entries.colon {es : List (String × String)} (h : Entries ms es) :
    ∀ m ∈ ms, ':' ∈ m.text := by
  refine forall_of_forall₂ h fun {m e} hm => ?_
  obtain ⟨c, k, t, -, htext⟩ := exists_key_of_entryText hm
  simp [htext]

theorem entryText_fails_nil : Fails entryText [] :=
  tentative_entryText.fails_iff.mpr hungry_entryText

theorem many_entry_iff : many entry ls = .ok es r ↔
    ∃ ms, ls = ms ++ r ∧ Entries ms es ∧ ∀ l ∈ r.head?, Misses entryText l.text :=
  many_line_iff entryText_fails_nil

/-! ## Front matter -/

theorem fencedFrontMatter_iff : fencedFrontMatter ls = .ok es r ↔
    ∃ l ms e, ls = l :: (ms ++ e :: r) ∧ Fence l.text ∧ l.ending ≠ .none ∧ Entries ms es ∧
      Fence e.text := by
  unfold fencedFrontMatter
  simp only [bind_eq_ok, brokenLine_eq_ok, within_eq_ok, commit_eq_ok, line_eq_ok hungry_fence,
    many_entry_iff, fence_iff, pure_apply, Reply.ok.injEq]
  constructor
  · rintro ⟨_, _, ⟨l, rfl, hl, hb⟩, _, _, ⟨ms, rfl, hms, -⟩, _, _, ⟨e, rfl, he⟩, rfl, rfl⟩
    exact ⟨l, ms, e, rfl, hl, hb, hms, he⟩
  · rintro ⟨l, ms, e, rfl, hl, hb, hms, he⟩
    have hstop : ∀ m ∈ (e :: r).head?, Misses entryText m.text := by
      intro m hm
      obtain rfl : e = m := by simpa using hm
      exact misses_entryText (not_mem_of_fence he)
    exact ⟨(), _, ⟨l, rfl, hl, hb⟩, es, e :: r, ⟨ms, rfl, hms, hstop⟩, (), r, ⟨e, rfl, he⟩, rfl, rfl⟩

/-- Once the first fence is read there is no way back. -/
theorem fencedFrontMatter_fails : Fails fencedFrontMatter ls ↔
    ∀ l ∈ ls.head?, Fence l.text → l.ending = .none := by
  have hfirst : Fails fencedFrontMatter ls ↔ Fails (brokenLine fence) ls := by
    refine bind_fails.trans (or_iff_left ?_)
    rintro ⟨u, t, -, h⟩
    exact not_fails_commit (hinting_fails.mp h)
  rw [hfirst, tentative_fence.brokenLine.fails_iff]
  simp only [ne_eq, brokenLine_eq_ok, fence_iff, not_exists, not_and, not_not]
  constructor
  · intro h l hl hfence
    obtain ⟨r, rfl⟩ := List.head?_eq_some_iff.mp hl
    exact h () r l rfl hfence
  · rintro h _ r l rfl hfence
    exact h l rfl hfence

theorem bareFrontMatter_iff : bareFrontMatter ls = .ok es r ↔ Bare ls es r := by
  unfold bareFrontMatter
  simp only [bind_eq_ok, many1_eq_ok_iff_many (consumes_line hungry_entryText), entry,
    many_line_iff entryText_fails_nil, atVacantLine_iff, pure_apply, Reply.ok.injEq]
  constructor
  · rintro ⟨_, _, ⟨hne, ms, rfl, hms, -⟩, _, _, ⟨rfl, hr⟩, rfl, rfl⟩
    exact ⟨hne, ms, rfl, hms, hr⟩
  · rintro ⟨hne, ms, rfl, hms, hr⟩
    have hstop : ∀ l ∈ r.head?, Misses entryText l.text := fun l hl =>
      misses_entryText (not_mem_of_isVacant (hr l hl))
    exact ⟨es, r, ⟨hne, ms, rfl, hms, hstop⟩, (), r, ⟨rfl, hr⟩, rfl, rfl⟩

theorem tentative_bareFrontMatter : Tentative bareFrontMatter := by
  have hentry : Tentative entry := tentative_entryText.line
  refine Tentative.bind (hentry.bind fun _ => hentry.many.bind fun _ => tentative_pure _)
    fun _ => Tentative.bind ?_ fun _ => tentative_pure _
  intro s e h
  unfold atVacantLine at h
  split at h
  · cases h
  · split at h <;> cases h
    rfl

theorem bareFrontMatter_fails : Fails bareFrontMatter ls ↔ ∀ es r, ¬ Bare ls es r := by
  simp only [tentative_bareFrontMatter.fails_iff, ne_eq, bareFrontMatter_iff]

/-- Front matter without fences does not start with a fence. -/
theorem Bare.not_fence (h : Bare ls es r) (hl : l ∈ ls.head?) : ¬ Fence l.text := by
  obtain ⟨hne, ms, rfl, hms, -⟩ := h
  cases hms with
  | nil => exact absurd rfl hne
  | @cons m e ms es hm _ =>
    obtain rfl : m = l := by simpa using hl
    intro hfence
    obtain ⟨c, k, t, -, htext⟩ := exists_key_of_entryText hm
    exact not_mem_of_fence hfence (by simp [htext])

/-- The lines of front matter are fences and entries. -/
theorem Front.exists_lines (h : Front ls es r) : ∃ fs, ls = fs ++ r ∧
    ∀ l ∈ fs, Fence l.text ∨ ∃ e, entryText l.text = .ok e [] := by
  have hlines : ∀ {ms es}, Entries ms es → ∀ l ∈ ms, ∃ e, entryText l.text = .ok e [] :=
    fun hms => forall_of_forall₂ hms fun {_ e} hm => ⟨e, hm⟩
  cases h with
  | @fenced l e ms r es hl _ hms he =>
    refine ⟨l :: (ms ++ [e]), by simp, fun m hm => ?_⟩
    simp only [List.mem_cons, List.mem_append, List.not_mem_nil, or_false] at hm
    obtain rfl | hm | rfl := hm
    · exact .inl hl
    · exact .inr (hlines hms m hm)
    · exact .inl he
  | bare h =>
    obtain ⟨-, ms, rfl, hms, -⟩ := h
    exact ⟨ms, rfl, fun m hm => .inr (hlines hms m hm)⟩
  | absent _ _ => exact ⟨[], rfl, nofun⟩

theorem Front.suffix (h : Front ls es r) : r <:+ ls := by
  obtain ⟨fs, rfl, -⟩ := h.exists_lines
  exact List.suffix_append fs r

/-- They start with a hyphen or with a name. -/
theorem exists_initial_of_front (h : Fence s ∨ ∃ e, entryText s = .ok e []) :
    ∃ c, initial s = some c ∧ isBlank c = false ∧ c ≠ '$' := by
  obtain ⟨p, -, rfl⟩ | ⟨e, he⟩ := h
  · exact ⟨'-', initial_eq_some.mpr ⟨[], _, spaces_nil, by decide, rfl⟩, by decide, by decide⟩
  · obtain ⟨c, k, t, hc, rfl⟩ := exists_key_of_entryText he
    have hspace : isSpace c = false := Bool.eq_false_iff.mpr fun hs => by
      simp [isNameChar_of_isSpace hs] at hc
    refine ⟨c, initial_eq_some.mpr ⟨[], _, spaces_nil, hspace, rfl⟩,
      not_isBlank_of_isNameChar hc, ?_⟩
    rintro rfl
    exact absurd hc (by decide)

/-- **Front matter.** It is read exactly as the relation says. -/
theorem frontMatter_iff : (∃ o, (fencedFrontMatter <|> bareFrontMatter).maybe ls = .ok o r ∧
    o.getD [] = es) ↔ Front ls es r := by
  constructor
  · rintro ⟨o, ho, rfl⟩
    rcases maybe_eq_ok.mp ho with ⟨es, hes, h⟩ | ⟨hnone, hr, h⟩
    · rw [hes]
      rcases orElse_eq_ok_iff_fails.mp h with h | ⟨-, h⟩
      · obtain ⟨l, ms, e, rfl, hl, hb, hms, he⟩ := fencedFrontMatter_iff.mp h
        exact .fenced hl hb hms he
      · exact .bare (bareFrontMatter_iff.mp h)
    · rw [hnone, hr]
      obtain ⟨hfenced, hbare⟩ := orElse_fails.mp h
      exact .absent (fencedFrontMatter_fails.mp hfenced) (bareFrontMatter_fails.mp hbare)
  · intro h
    cases h with
    | @fenced l e ms r es hl hb hms he =>
      have hread : fencedFrontMatter (l :: (ms ++ e :: r)) = .ok es r :=
        fencedFrontMatter_iff.mpr ⟨l, ms, e, rfl, hl, hb, hms, he⟩
      exact ⟨some es, maybe_eq_ok.mpr (.inl ⟨es, rfl, orElse_eq_ok_iff_fails.mpr (.inl hread)⟩),
        rfl⟩
    | bare h =>
      have hfenced : Fails fencedFrontMatter ls :=
        fencedFrontMatter_fails.mpr fun l hl hfence => absurd hfence (h.not_fence hl)
      have hread := orElse_eq_ok_iff_fails.mpr (.inr ⟨hfenced, bareFrontMatter_iff.mpr h⟩)
      exact ⟨some es, maybe_eq_ok.mpr (.inl ⟨es, rfl, hread⟩), rfl⟩
    | absent hfence hbare =>
      have hfails : Fails (fencedFrontMatter <|> bareFrontMatter) ls :=
        orElse_fails.mpr ⟨fencedFrontMatter_fails.mpr hfence, bareFrontMatter_fails.mpr hbare⟩
      exact ⟨none, maybe_eq_ok.mpr (.inr ⟨rfl, rfl, hfails⟩), rfl⟩

/-- The front matter of some lines ends at one place. -/
theorem Front.unique {es' : List (String × String)} (h : Front ls es ms) (h' : Front ls es' r) :
    ms = r := by
  obtain ⟨o, ho, -⟩ := frontMatter_iff.mpr h
  obtain ⟨o', ho', -⟩ := frontMatter_iff.mpr h'
  rw [ho] at ho'
  exact (Reply.ok.inj ho').2

/-- **Documents.** Front matter after vacant lines, and blocks to the end. -/
theorem reader_iff {d : Document} : reader ls = .ok d r ↔
    r = [] ∧ ∃ ms, Front (ls.dropWhile Line.isVacant) d.frontMatter ms ∧ Block.Reads ms d.body [] := by
  unfold reader
  simp only [bind_eq_ok, Block.vacantLines_eq_ok, expecting_eq_ok, commit_eq_ok, finished_eq_ok,
    Block.list_iff, pure_apply, Reply.ok.injEq, ← frontMatter_iff]
  constructor
  · rintro ⟨_, _, rfl, o, ms, ho, bs, _, hbs, _, _, ⟨rfl, rfl⟩, rfl, rfl⟩
    exact ⟨rfl, ms, ⟨o, ho, rfl⟩, hbs⟩
  · rintro ⟨rfl, ms, ⟨o, ho, hes⟩, hbs⟩
    refine ⟨(), _, rfl, o, ms, ho, d.body, [], hbs, (), [], ⟨rfl, rfl⟩, ?_, rfl⟩
    rw [hes]

theorem ofText?_eq_ok {t : String} {d : Document} : ofText? t = .ok d ↔
    ∃ ms, Front ((Line.split t.toList).dropWhile Line.isVacant) d.frontMatter ms ∧
      Block.Reads ms d.body [] := by
  have hread : ofText? t = .ok d ↔ reader (Line.split t.toList) = .ok d [] := by
    unfold ofText?
    cases h : reader (Line.split t.toList) with
    | fail e => simp only [h, reduceCtorEq]
    | ok d' r =>
      obtain ⟨rfl, -⟩ := reader_iff.mp h
      simp only [h, Except.ok.injEq, Reply.ok.injEq, and_true]
  rw [hread, reader_iff, and_iff_right rfl]

end Document

end Interview
