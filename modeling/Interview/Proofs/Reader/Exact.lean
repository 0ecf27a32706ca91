import Interview.Proofs.Reader.Trailing

/-!
# What the readers of words take

Each reader of words takes a piece from the front of its input, and stops there because of what
comes next. The lemmas say which piece, and what must not come next for the reader to stop.

* `takeWhile1_iff`, `spaces_iff`, `spaces1_iff`: runs, up to a character of another class.
* `mark_iff`, `word_iff`: fixed characters.
* `Listed`, `separated1_of_listed`, `listed_of_separated1`: items with separators between them.
-/

namespace Interview

namespace Reader

open Text Word

variable {s r cs : List Char} {test : Char → Bool}

/-- The first character, if there is one, does not pass `test`. -/
def Stops (test : Char → Bool) (s : List Char) : Prop := ∀ c ∈ s.head?, test c = false

theorem stops_nil : Stops test [] := nofun

@[simp] theorem stops_cons {c : Char} : Stops test (c :: s) ↔ test c = false := by
  simp [Stops]

theorem stops_dropWhile : Stops test (s.dropWhile test) := by
  intro c hc
  have := List.head?_dropWhile_not test s
  rw [Option.mem_def.mp hc] at this
  simpa using this

theorem dropWhile_of_stops (h : Stops test s) : s.dropWhile test = s := by
  cases s with
  | nil => rfl
  | cons c s => simp [stops_cons.mp h]

/-- A run is what passes the test up to the first character that does not. -/
theorem run_iff : cs = s.takeWhile test ∧ r = s.dropWhile test ↔
    s = cs ++ r ∧ (∀ c ∈ cs, test c = true) ∧ Stops test r := by
  constructor
  · rintro ⟨rfl, rfl⟩
    exact ⟨(List.takeWhile_append_dropWhile).symm, fun c => List.mem_takeWhile_imp, stops_dropWhile⟩
  · rintro ⟨rfl, hall, hstop⟩
    rw [List.takeWhile_append_of_pos hall, List.dropWhile_append_of_pos hall,
      dropWhile_of_stops hstop]
    cases r with
    | nil => simp
    | cons c r => simp [stops_cons.mp hstop]

theorem dropWhile_spaces {g : List Char} (hg : Spaces g) (hr : Stops isSpace r) :
    (g ++ r).dropWhile isSpace = r := (run_iff.mpr ⟨rfl, hg, hr⟩).2.symm

theorem exists_spaces (s : List Char) : ∃ g, Spaces g ∧ s = g ++ s.dropWhile isSpace :=
  ⟨s.takeWhile isSpace, fun _ => List.mem_takeWhile_imp, (List.takeWhile_append_dropWhile).symm⟩

theorem takeWhile1_iff : takeWhile1 test s = .ok cs r ↔
    cs ≠ [] ∧ s = cs ++ r ∧ (∀ c ∈ cs, test c = true) ∧ Stops test r := by
  rw [takeWhile1_eq_ok, run_iff]

theorem spaces_iff {u : Unit} : spaces s = .ok u r ↔
    ∃ g, Spaces g ∧ s = g ++ r ∧ Stops isSpace r := by
  rw [spaces_eq_ok]
  constructor
  · intro h
    obtain ⟨hs, hall, hstop⟩ := run_iff.mp ⟨rfl, h⟩
    exact ⟨_, hall, hs, hstop⟩
  · rintro ⟨g, hg, hs, hstop⟩
    exact (run_iff.mpr ⟨hs, hg, hstop⟩).2

theorem spaces1_iff {u : Unit} : spaces1 s = .ok u r ↔
    ∃ g, g ≠ [] ∧ Spaces g ∧ s = g ++ r ∧ Stops isSpace r := by
  rw [spaces1_eq_ok]
  constructor
  · rintro ⟨hne, h⟩
    obtain ⟨hs, hall, hstop⟩ := run_iff.mp ⟨rfl, h⟩
    exact ⟨_, hne, hall, hs, hstop⟩
  · rintro ⟨g, hne, hg, hs, hstop⟩
    obtain ⟨rfl, hr⟩ := run_iff.mpr ⟨hs, hg, hstop⟩
    exact ⟨hne, hr⟩

theorem mark_iff {c : Char} {u : Unit} : mark c s = .ok u r ↔ s = c :: r := by
  unfold mark
  simp only [bind_eq_ok, character_eq_ok, beq_iff_eq]
  constructor
  · rintro ⟨_, _, ⟨rfl, rfl⟩, h⟩
    cases h
    rfl
  · rintro rfl
    exact ⟨c, r, ⟨rfl, rfl⟩, rfl⟩

theorem word_iff {w : String} {u : Unit} : word w s = .ok u r ↔ s = w.toList ++ r := word_eq_ok

theorem word_fails {x : String} (h : ¬ x.toList <+: s) : Fails (word x) s := by
  refine ⟨⟨s, false, []⟩, ?_, rfl⟩
  unfold word
  rw [if_neg]
  simpa using h

/-! ## Items and separators -/

variable {α : Type} {item : List Char → α → Prop} {gap : List Char → Prop} {p : Reader Char α}
  {separator : Reader Char Unit}

/-- Items spelled one after the other with gaps between them. -/
inductive Listed (item : List Char → α → Prop) (gap : List Char → Prop) :
    List Char → List α → Prop
  | one {w : List Char} {a : α} : item w a → Listed item gap w [a]
  | more {w g v : List Char} {a : α} {as : List α} : item w a → gap g → Listed item gap v as →
      Listed item gap (w ++ (g ++ v)) (a :: as)

theorem Listed.ne_nil {w : List Char} {as : List α} (h : Listed item gap w as) : as ≠ [] := by
  cases h <;> simp

theorem Listed.forall {P : α → Prop} (hitem : ∀ {w a}, item w a → P a) {w : List Char} {as : List α}
    (h : Listed item gap w as) : ∀ a ∈ as, P a := by
  induction h with
  | one ha => simpa using hitem ha
  | more ha _ _ ih => exact List.forall_mem_cons.mpr ⟨hitem ha, ih⟩

theorem Listed.imp {item' : List Char → α → Prop} {w : List Char} {as : List α}
    (h : Listed item gap w as) (himp : ∀ a ∈ as, ∀ {v}, item v a → item' v a) :
    Listed item' gap w as := by
  induction h with
  | one ha => exact .one (himp _ List.mem_cons_self ha)
  | more ha hg _ ih =>
    obtain ⟨hfirst, hrest⟩ := List.forall_mem_cons.mp himp
    exact .more (hfirst ha) hg (ih hrest)

/-- Every list of items starts with an item. -/
theorem Listed.first {w : List Char} {as : List α} (h : Listed item gap w as) :
    ∃ v t a, w = v ++ t ∧ item v a := by
  cases h with
  | one ha => exact ⟨_, [], _, by simp, ha⟩
  | more ha _ _ => exact ⟨_, _, _, rfl, ha⟩

theorem separated1_eq_ok {as : List α} : separated1 p separator s = .ok as r ↔
    ∃ a bs t, as = a :: bs ∧ p s = .ok a t ∧
      many (separator >>= fun _ => p) t = .ok bs r := by
  unfold separated1
  simp only [bind_eq_ok, pure_apply, Reply.ok.injEq]
  constructor
  · rintro ⟨a, t, ha, bs, u, hb, rfl, rfl⟩
    exact ⟨a, bs, t, rfl, ha, hb⟩
  · rintro ⟨a, bs, t, rfl, ha, hb⟩
    exact ⟨a, t, ha, bs, r, hb, rfl, rfl⟩

/-- One round of a list: the last item, or an item and a separator before the rest of the list. -/
theorem separated1_round (hc : Consumes (separator >>= fun _ => p)) {as : List α} :
    separated1 p separator s = .ok as r ↔
      (∃ a, as = [a] ∧ p s = .ok a r ∧ Fails (separator >>= fun _ => p) r) ∨
        ∃ a bs t u, as = a :: bs ∧ p s = .ok a t ∧ separator t = .ok () u ∧
          separated1 p separator u = .ok bs r := by
  rw [separated1_eq_ok]
  constructor
  · rintro ⟨a, bs, t, rfl, ha, hb⟩
    rcases (many_eq_ok hc).mp hb with ⟨rfl, rfl, hf⟩ | ⟨b, cs, u, rfl, hround, hrest⟩
    · exact .inl ⟨a, rfl, ha, hf⟩
    · obtain ⟨_, v, hv, hb'⟩ := bind_eq_ok.mp hround
      exact .inr ⟨a, b :: cs, t, v, rfl, ha, hv, separated1_eq_ok.mpr ⟨b, cs, u, rfl, hb', hrest⟩⟩
  · rintro (⟨a, rfl, ha, hf⟩ | ⟨a, bs, t, u, rfl, ha, hsep, hrest⟩)
    · exact ⟨a, [], r, rfl, ha, (many_eq_ok hc).mpr (.inl ⟨rfl, rfl, hf⟩)⟩
    · obtain ⟨b, cs, v, rfl, hb, hmany⟩ := separated1_eq_ok.mp hrest
      exact ⟨a, b :: cs, t, rfl, ha,
        (many_eq_ok hc).mpr (.inr ⟨b, cs, v, rfl, bind_eq_ok.mpr ⟨(), u, hsep, hb⟩, hmany⟩)⟩

theorem separated_iff {as : List α} : separated p separator s = .ok as r ↔
    separated1 p separator s = .ok as r ∨
      as = [] ∧ r = s ∧ Fails (separated1 p separator) s := by
  unfold separated
  simp only [bind_eq_ok, maybe_eq_ok, pure_apply, Reply.ok.injEq]
  constructor
  · rintro ⟨o, t, ⟨bs, rfl, h⟩ | ⟨rfl, rfl, h⟩, rfl, rfl⟩
    · exact .inl h
    · exact .inr ⟨rfl, rfl, h⟩
  · rintro (h | ⟨rfl, rfl, h⟩)
    · exact ⟨some as, r, .inl ⟨as, rfl, h⟩, rfl, rfl⟩
    · exact ⟨none, r, .inr ⟨rfl, rfl, h⟩, rfl, rfl⟩

/-- A list is read as it is spelled, if each item is read before what `follows` and each gap
before an item. -/
theorem separated1_of_listed {follows : List Char → Prop}
    (hc : Consumes (separator >>= fun _ => p))
    (hitem : ∀ {w a r}, item w a → follows r → p (w ++ r) = .ok a r)
    (hgap : ∀ {g w a r}, gap g → item w a → separator (g ++ (w ++ r)) = .ok () (w ++ r))
    (hfollows : ∀ {g w a r}, gap g → item w a → follows (g ++ (w ++ r)))
    {w : List Char} {as : List α} (h : Listed item gap w as) (hr : follows r)
    (hend : Fails (separator >>= fun _ => p) r) :
    separated1 p separator (w ++ r) = .ok as r := by
  induction h with
  | one ha => exact (separated1_round hc).mpr (.inl ⟨_, rfl, hitem ha hr, hend⟩)
  | @more w g v a as ha hg hv ih =>
    obtain ⟨w', t, b, rfl, hb⟩ := hv.first
    rw [List.append_assoc, List.append_assoc]
    refine (separated1_round hc).mpr (.inr ⟨a, as, _, _, rfl, hitem ha ?_, ?_, ih⟩)
    · rw [List.append_assoc]
      exact hfollows hg hb
    · rw [List.append_assoc]
      exact hgap hg hb

theorem listed_of_separated1 (hc : Consumes (separator >>= fun _ => p))
    (hitem : ∀ {s a r}, p s = .ok a r → ∃ w, s = w ++ r ∧ item w a)
    (hgap : ∀ {s r}, separator s = .ok () r → ∃ g, s = g ++ r ∧ gap g) {as : List α}
    (h : separated1 p separator s = .ok as r) : ∃ w, s = w ++ r ∧ Listed item gap w as := by
  induction as generalizing s with
  | nil =>
    obtain ⟨_, _, _, h, -⟩ := separated1_eq_ok.mp h
    cases h
  | cons a as ih =>
    rcases (separated1_round hc).mp h with ⟨b, heq, hb, -⟩ | ⟨b, bs, t, u, heq, hb, hsep, hrest⟩
    · cases heq
      obtain ⟨w, rfl, hw⟩ := hitem hb
      exact ⟨w, rfl, .one hw⟩
    · cases heq
      obtain ⟨w, rfl, hw⟩ := hitem hb
      obtain ⟨g, rfl, hg⟩ := hgap hsep
      obtain ⟨v, rfl, hv⟩ := ih hrest
      exact ⟨w ++ (g ++ v), by simp, .more hw hg hv⟩

end Reader

end Interview
