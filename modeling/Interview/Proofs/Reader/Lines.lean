import Interview.Proofs.Reader.Progress
import Mathlib.Data.List.Forall2

/-!
# Readers of lines and their failures

When a line is read, and when it leaves room for an alternative, said of the reader of its text. A
repetition of a reader of one line takes the lines that fit, up to the first one that does not.

* `line_eq_ok`, `brokenLine_eq_ok`, `lineBreaking_eq_ok`: when a line is read.
* `Misses`, `line_fails`, `line_fails_iff`: when it leaves room for an alternative.
* `many_line_iff`, `manyUntil_line_iff`: repetitions.
-/

namespace Interview

namespace Reader

variable {α : Type} {p : Reader Char α} {a : α} {l : Line} {ls ms : List Line}

theorem line_eq_ok (hp : Hungry p) :
    line p ls = .ok a ms ↔ ∃ l, ls = l :: ms ∧ p l.text = .ok a [] := by
  cases ls with
  | nil =>
    rw [line_nil_eq_ok]
    constructor
    · rintro ⟨-, r, h⟩
      exact absurd h (hp a r)
    · rintro ⟨_, h, -⟩
      cases h
  | cons l ls =>
    rw [line_cons_eq_ok]
    constructor
    · rintro ⟨h, rfl⟩
      exact ⟨l, rfl, h⟩
    · rintro ⟨l', heq, h⟩
      cases heq
      exact ⟨h, rfl⟩

theorem brokenLine_eq_ok :
    brokenLine p ls = .ok a ms ↔ ∃ l, ls = l :: ms ∧ p l.text = .ok a [] ∧ l.ending ≠ .none := by
  cases ls with
  | nil =>
    have hnone : ∀ b, brokenLine p [] ≠ .ok b ms := by
      intro b h
      unfold brokenLine at h
      obtain ⟨⟨c, e⟩, t, hc, h⟩ := bind_eq_ok.mp h
      simp only [lineBreaking] at hc
      split at hc
      · cases hc
        cases h
      · cases hc
    simp [hnone]
  | cons l ls =>
    rw [brokenLine_cons_eq_ok]
    constructor
    · rintro ⟨h, hb, rfl⟩
      exact ⟨l, rfl, h, hb⟩
    · rintro ⟨l', heq, h, hb⟩
      cases heq
      exact ⟨h, hb, rfl⟩

theorem consumes_line (hp : Hungry p) : Consumes (line p) := by
  intro ls a ms h
  obtain ⟨l, rfl, -⟩ := (line_eq_ok hp).mp h
  exact ⟨List.suffix_cons l ms, Nat.lt_succ_self _⟩

/-- On this text `p` does not read all, and leaves room for an alternative. -/
def Misses (p : Reader Char α) (s : List Char) : Prop :=
  (∃ a c r, p s = .ok a (c :: r)) ∨ Fails p s

theorem Misses.not_ok {s : List Char} (h : Misses p s) : p s ≠ .ok a [] := by
  rcases h with ⟨b, c, r, hb⟩ | hf
  · rw [hb]
    nofun
  · exact hf.not_ok

theorem misses_bind {β : Type} {f : α → Reader Char β} {s : List Char} : Misses (p >>= f) s ↔
    Fails p s ∨ ∃ a t, p s = .ok a t ∧ Misses (f a) t := by
  unfold Misses
  rw [bind_fails]
  simp only [bind_eq_ok]
  constructor
  · rintro (⟨b, c, r, a, t, ha, hb⟩ | h | ⟨a, t, ha, hf⟩)
    · exact .inr ⟨a, t, ha, .inl ⟨b, c, r, hb⟩⟩
    · exact .inl h
    · exact .inr ⟨a, t, ha, .inr hf⟩
  · rintro (h | ⟨a, t, ha, ⟨b, c, r, hb⟩ | hf⟩)
    · exact .inr (.inl h)
    · exact .inl ⟨b, c, r, a, t, ha, hb⟩
    · exact .inr (.inr ⟨a, t, ha, hf⟩)

/-- A tentative reader misses what it does not read. -/
theorem Tentative.misses_iff {s : List Char} (hp : Tentative p) :
    Misses p s ↔ ∀ a, p s ≠ .ok a [] := by
  constructor
  · intro h a
    exact h.not_ok
  · intro h
    cases hs : p s with
    | fail e => exact .inr ⟨e, hs, hp hs⟩
    | ok a r =>
      cases r with
      | nil => exact absurd hs (h a)
      | cons c r => exact .inl ⟨a, c, r, hs⟩

theorem lineBreaking_fails : Fails (lineBreaking p) (l :: ls) ↔ Misses p l.text := by
  unfold Fails Misses Fails
  simp only [lineBreaking]
  cases p l.text with
  | fail e => simp
  | ok a r => cases r <;> simp

theorem line_fails : Fails (line p) (l :: ls) ↔ Misses p l.text := by
  unfold line
  rw [bind_fails, lineBreaking_fails]
  constructor
  · rintro (h | ⟨⟨a, b⟩, t, -, e, he, -⟩)
    · exact h
    · cases he
  · exact .inl

theorem brokenLine_fails_of_misses (h : Misses p l.text) : Fails (brokenLine p) (l :: ls) :=
  bind_fails_of_fails (lineBreaking_fails.mpr h)

theorem Fails.hungry (h : Fails p []) : Hungry p := fun _ _ => h.not_ok

theorem Tentative.lineBreaking (hp : Tentative p) : Tentative (lineBreaking p) := by
  intro ls e h
  cases ls with
  | nil =>
    unfold Reader.lineBreaking at h
    cases hs : p [] with
    | ok a r => simp [hs] at h
    | fail e' =>
      rw [hs] at h
      cases h
      exact hp hs
  | cons l ls =>
    by_contra hfinal
    have hmisses : ¬ Misses p l.text := fun hm => by
      have hfails : Fails (Reader.lineBreaking p) (l :: ls) := lineBreaking_fails.mpr hm
      obtain ⟨e', he', hroom⟩ := hfails
      rw [h] at he'
      cases he'
      exact hfinal hroom
    obtain ⟨a, ha⟩ : ∃ a, p l.text = .ok a [] := by
      by_contra hnone
      exact hmisses (hp.misses_iff.mpr fun a ha => hnone ⟨a, ha⟩)
    rw [lineBreaking_cons_eq_ok.mpr ⟨ha, rfl, rfl⟩] at h
    cases h

theorem Tentative.line (hp : Tentative p) : Tentative (line p) :=
  hp.lineBreaking.bind fun _ => tentative_pure _

theorem Tentative.brokenLine (hp : Tentative p) : Tentative (brokenLine p) := by
  apply hp.lineBreaking.bind
  rintro ⟨a, ending⟩
  show Tentative (if ending = .none then reject else pure a)
  split
  · intro s e h
    cases h
    rfl
  · exact tentative_pure a

theorem lineBreaking_eq_ok (hp : Hungry p) {b : LineBreak} :
    lineBreaking p ls = .ok (a, b) ms ↔ ∃ l, ls = l :: ms ∧ p l.text = .ok a [] ∧ b = l.ending := by
  cases ls with
  | nil =>
    simp only [lineBreaking, reduceCtorEq, false_and, exists_false, iff_false]
    cases h : p [] with
    | ok a r => exact absurd h (hp a r)
    | fail e => simp
  | cons l ls =>
    rw [lineBreaking_cons_eq_ok]
    constructor
    · rintro ⟨h, hb, rfl⟩
      exact ⟨l, rfl, h, hb⟩
    · rintro ⟨l', heq, h, hb⟩
      cases heq
      exact ⟨h, hb, rfl⟩

theorem lineBreaking_fails_iff (h : Fails p []) :
    Fails (lineBreaking p) ls ↔ ∀ l ∈ ls.head?, Misses p l.text := by
  cases ls with
  | nil =>
    obtain ⟨e, he, hroom⟩ := h
    simpa [Fails, lineBreaking, he] using hroom
  | cons l ls => simp [lineBreaking_fails]

theorem line_nil_fails (h : Fails p []) : Fails (line p) [] :=
  bind_fails_of_fails ((lineBreaking_fails_iff h).mpr nofun)

theorem line_fails_iff (h : Fails p []) :
    Fails (line p) ls ↔ ∀ l ∈ ls.head?, Misses p l.text := by
  rw [← lineBreaking_fails_iff h]
  unfold line
  rw [bind_fails]
  refine or_iff_left ?_
  rintro ⟨⟨b, c⟩, t, -, e, he, -⟩
  cases he

theorem forall_of_forall₂ {β γ : Type} {R : β → γ → Prop} {P : β → Prop} {bs : List β} {cs : List γ}
    (h : List.Forall₂ R bs cs) (hP : ∀ {b c}, R b c → P b) : ∀ b ∈ bs, P b :=
  ((List.forall₂_and_left bs cs).mp (h.imp fun _ _ hbc => ⟨hP hbc, hbc⟩)).1

/-- A repetition of a reader of one line reads lines as far as they fit. -/
theorem many_lines_iff {β : Type} {q : Reader Line β} {fits : Line → β → Prop} {ends : Line → Prop}
    (hok : ∀ {ls b ms}, q ls = .ok b ms ↔ ∃ l, ls = l :: ms ∧ fits l b)
    (hfails : ∀ {ls}, Fails q ls ↔ ∀ l ∈ ls.head?, ends l) {bs : List β} {rest : List Line} :
    many q ls = .ok bs rest ↔
      ∃ ms, ls = ms ++ rest ∧ List.Forall₂ fits ms bs ∧ ∀ l ∈ rest.head?, ends l := by
  have hc : Consumes q := by
    intro ls b ms h
    obtain ⟨l, rfl, -⟩ := hok.mp h
    exact ⟨List.suffix_cons l ms, Nat.lt_succ_self _⟩
  induction bs generalizing ls with
  | nil =>
    rw [many_eq_ok hc]
    constructor
    · rintro (⟨-, rfl, hf⟩ | ⟨_, _, _, h, -⟩)
      · exact ⟨[], rfl, .nil, hfails.mp hf⟩
      · cases h
    · rintro ⟨ms, rfl, hms, hends⟩
      cases hms
      exact .inl ⟨rfl, rfl, hfails.mpr hends⟩
  | cons b bs ih =>
    rw [many_eq_ok hc]
    constructor
    · rintro (⟨h, -⟩ | ⟨b, bs, ks, heq, hb, hbs⟩)
      · cases h
      · cases heq
        obtain ⟨l, rfl, hl⟩ := hok.mp hb
        obtain ⟨ms, rfl, hms, hends⟩ := ih.mp hbs
        exact ⟨l :: ms, rfl, .cons hl hms, hends⟩
    · rintro ⟨ms, rfl, hms, hends⟩
      cases hms with
      | @cons l _ ms _ hl hms =>
        exact .inr ⟨b, bs, ms ++ rest, rfl, hok.mpr ⟨l, rfl, hl⟩, ih.mpr ⟨ms, rfl, hms, hends⟩⟩

/-- Lines read one by one with `p`. -/
theorem many_line_iff (h : Fails p []) {as : List α} {rest : List Line} :
    many (line p) ls = .ok as rest ↔ ∃ ms, ls = ms ++ rest ∧
      List.Forall₂ (fun m a => p m.text = .ok a []) ms as ∧ ∀ l ∈ rest.head?, Misses p l.text :=
  many_lines_iff (line_eq_ok h.hungry) (line_fails_iff h)

theorem many1_eq_ok_iff_many {τ β : Type} {q : Reader τ β} (hq : Consumes q) {s r : List τ}
    {bs : List β} : many1 q s = .ok bs r ↔ bs ≠ [] ∧ many q s = .ok bs r := by
  rw [many1_eq_ok, many_eq_ok hq]
  constructor
  · rintro ⟨b, bs, t, rfl, h⟩
    exact ⟨by simp, .inr ⟨b, bs, t, rfl, h⟩⟩
  · rintro ⟨hne, ⟨rfl, -⟩ | h⟩
    · exact absurd rfl hne
    · exact h

theorem brokenLine_restOfLine_iff {t : List Char} :
    brokenLine restOfLine (l :: ls) = .ok t ms ↔
      t = l.text ∧ '\r' ∉ l.text ∧ l.ending ≠ .none ∧ ms = ls := by
  rw [brokenLine_cons_eq_ok, restOfLine_eq_ok]
  constructor
  · rintro ⟨⟨ht, -, hr⟩, hb, hms⟩
    exact ⟨ht, hr, hb, hms⟩
  · rintro ⟨ht, hr, hb, hms⟩
    exact ⟨⟨ht, rfl, hr⟩, hb, hms⟩

/-- A repetition of whole lines up to one that is read with `p` ends at that line. -/
theorem manyUntil_line_of_read (h : p l.text = .ok a []) {ts : List (List Char)}
    {rest : List Line} :
    manyUntil (brokenLine restOfLine) (line p) (l :: ls) = .ok ts rest ↔ ts = [] ∧ rest = ls := by
  have hline : line p (l :: ls) = .ok a ls := line_cons_eq_ok.mpr ⟨h, rfl⟩
  rw [manyUntil_eq, hline]
  simp only [Reply.ok.injEq, eq_comm]

/-- It takes a line that is not read with `p`, if this line is one of text. -/
theorem manyUntil_line_of_misses (h : Misses p l.text) {ts : List (List Char)}
    {rest : List Line} :
    manyUntil (brokenLine restOfLine) (line p) (l :: ls) = .ok ts rest ↔
      '\r' ∉ l.text ∧ l.ending ≠ .none ∧ ∃ us, ts = l.text :: us ∧
        manyUntil (brokenLine restOfLine) (line p) ls = .ok us rest := by
  obtain ⟨e, he, hroom⟩ := line_fails.mpr h
  rw [manyUntil_eq, he]
  simp only [hroom, Bool.false_eq_true, if_false]
  cases hb : brokenLine restOfLine (l :: ls) with
  | ok t ks =>
    obtain ⟨rfl, hr, hbreak, rfl⟩ := brokenLine_restOfLine_iff.mp hb
    simp only [hr, hbreak, List.length_cons, Nat.lt_succ_self, if_true, not_false_eq_true, ne_eq,
      true_and]
    cases manyUntil (brokenLine restOfLine) (line p) ks with
    | ok us r =>
      simp only [Reply.ok.injEq]
      constructor
      · rintro ⟨rfl, rfl⟩
        exact ⟨us, rfl, rfl, rfl⟩
      · rintro ⟨_, rfl, rfl, rfl⟩
        exact ⟨rfl, rfl⟩
    | fail e => simp
  | fail e =>
    simp only [reduceCtorEq, false_iff]
    rintro ⟨hr, hbreak, -⟩
    rw [brokenLine_restOfLine_iff.mpr ⟨rfl, hr, hbreak, rfl⟩] at hb
    cases hb

/-- One round of a repetition of whole lines up to one that is read with `p`. -/
theorem manyUntil_line_cons (ht : Tentative p) {ts : List (List Char)} {rest : List Line} :
    manyUntil (brokenLine restOfLine) (line p) (l :: ls) = .ok ts rest ↔
      (∃ a, p l.text = .ok a [] ∧ ts = [] ∧ rest = ls) ∨
        Misses p l.text ∧ '\r' ∉ l.text ∧ l.ending ≠ .none ∧
          ∃ us, ts = l.text :: us ∧
            manyUntil (brokenLine restOfLine) (line p) ls = .ok us rest := by
  by_cases hread : ∃ a, p l.text = .ok a []
  · obtain ⟨a, ha⟩ := hread
    rw [manyUntil_line_of_read ha]
    constructor
    · exact fun h => .inl ⟨a, ha, h⟩
    · rintro (⟨_, -, h⟩ | ⟨hmisses, -⟩)
      · exact h
      · exact absurd ha hmisses.not_ok
  · have hmisses : Misses p l.text := ht.misses_iff.mpr (not_exists.mp hread)
    rw [manyUntil_line_of_misses hmisses]
    constructor
    · exact fun h => .inr ⟨hmisses, h⟩
    · rintro (⟨a, ha, -⟩ | ⟨-, h⟩)
      · exact absurd ha hmisses.not_ok
      · exact h

/-- Whole lines up to one that is read with `p`. -/
theorem manyUntil_line_iff (h : Fails p []) (ht : Tentative p) {ts : List (List Char)}
    {rest : List Line} :
    manyUntil (brokenLine restOfLine) (line p) ls = .ok ts rest ↔
      ∃ ms e a, ls = ms ++ e :: rest ∧ ts = ms.map Line.text ∧ p e.text = .ok a [] ∧
        ∀ m ∈ ms, Misses p m.text ∧ '\r' ∉ m.text ∧ m.ending ≠ .none := by
  induction ls generalizing ts with
  | nil =>
    have hnone : ∀ t us, brokenLine restOfLine [] ≠ .ok t us := by
      intro t us hb
      obtain ⟨_, hl, -⟩ := brokenLine_eq_ok.mp hb
      cases hl
    obtain ⟨e, he, hroom⟩ := line_nil_fails h
    rw [manyUntil_eq, he]
    simp only [hroom, Bool.false_eq_true, if_false]
    cases hb : brokenLine restOfLine [] with
    | ok t us => exact absurd hb (hnone t us)
    | fail e => simp
  | cons l ls ih =>
    rw [manyUntil_line_cons ht]
    constructor
    · rintro (⟨a, ha, rfl, rfl⟩ | ⟨hmisses, hr, hb, us, rfl, hus⟩)
      · exact ⟨[], l, a, rfl, rfl, ha, by simp⟩
      · obtain ⟨ms, e, a, rfl, rfl, he, hms⟩ := ih.mp hus
        refine ⟨l :: ms, e, a, rfl, rfl, he, fun m hm => ?_⟩
        rcases List.mem_cons.mp hm with rfl | hm
        · exact ⟨hmisses, hr, hb⟩
        · exact hms m hm
    · rintro ⟨ms, e, a, hls, rfl, he, hms⟩
      cases ms with
      | nil =>
        obtain ⟨rfl, rfl⟩ := List.cons.inj hls
        exact .inl ⟨a, he, rfl, rfl⟩
      | cons m ms =>
        obtain ⟨rfl, rfl⟩ := List.cons.inj hls
        obtain ⟨hmisses, hr, hb⟩ := hms l List.mem_cons_self
        exact .inr ⟨hmisses, hr, hb, ms.map Line.text, rfl,
          ih.mpr ⟨ms, e, a, rfl, rfl, he, fun m hm => hms m (List.mem_cons_of_mem _ hm)⟩⟩

end Reader

end Interview
