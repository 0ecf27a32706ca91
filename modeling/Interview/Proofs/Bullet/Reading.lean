import Interview.Proofs.Clause.Spelling
import Interview.Proofs.Document.Directive
import Interview.Proofs.Reader.Recursion

/-!
# What the readers of bullets read

A list of bullets is read line by line: each bullet has the column of its list, the bullets under
it have a column of their own that is greater, and the list ends at the first line that is no
bullet of its column. `Laid row w bs ls` describes the lines `ls` of a list `bs` at the column
`w`, for any notion `row` of the line of one bullet.

* `Bullet.list_eq`: a list as a repetition of itself.
* `Bullet.many_of_laid`, `Bullet.laid_of_many`: lists and their lines.
* `Bullet.block_iff`: what is read as a block of bullets, and before what.
-/

namespace Interview

open Reader Text Word

namespace Bullet

/-- The column at which the first word of a line starts. -/
def column (l : Line) : Nat := width (l.text.takeWhile isSpace)

/-- The lines `ls` of the bullets `bs` of a list at the column `w`: the line of each bullet at that
column, and under the bullet of a group the lines of its own list, at a greater column. -/
inductive Laid (row : Nat → Clause → Option String → List Char → Prop) :
    Nat → List Bullet → List Line → Prop
  | nil {w : Nat} : Laid row w [] []
  | goTo {w : Nat} {c : Clause} {t : String} {l : Line} {bs : List Bullet} {ls : List Line} :
      row w c (some t) l.text → Laid row w bs ls → Laid row w (.goTo c t :: bs) (l :: ls)
  | group {w v : Nat} {c : Clause} {l : Line} {kids bs : List Bullet} {ks ls : List Line} :
      row w c none l.text → w < v → kids ≠ [] → Laid row v kids ks → Laid row w bs ls →
      Laid row w (.group c kids :: bs) (l :: (ks ++ ls))

theorem Laid.mono {row row' : Nat → Clause → Option String → List Char → Prop}
    (h : ∀ {w c t s}, row w c t s → row' w c t s) {w : Nat} {bs : List Bullet} {ls : List Line}
    (hl : Laid row w bs ls) : Laid row' w bs ls := by
  induction hl with
  | nil => exact .nil
  | goTo hrow _ ih => exact .goTo (h hrow) ih
  | group hrow hlt hne _ _ ihkids ih => exact .group (h hrow) hlt hne ihkids ih

theorem Laid.forall {row : Nat → Clause → Option String → List Char → Prop} {w : Nat}
    {bs : List Bullet} {ls : List Line} (hl : Laid row w bs ls) (P : List Char → Prop)
    (hrow : ∀ {w c t s}, row w c t s → P s) : ∀ l ∈ ls, P l.text := by
  induction hl with
  | nil => nofun
  | goTo h _ ih => exact List.forall_mem_cons.mpr ⟨hrow h, ih⟩
  | group h _ _ _ _ ihkids ih =>
    exact List.forall_mem_cons.mpr ⟨hrow h, List.forall_mem_append.mpr ⟨ihkids, ih⟩⟩

/-! ## One line -/

variable {w : Nat} {c : Clause} {o : Option String} {s t r : List Char}

theorem indentation_iff {n : Nat} : indentation s = .ok n r ↔
    ∃ g, Spaces g ∧ n = width g ∧ s = g ++ r ∧ Stops isSpace r := by
  unfold indentation
  simp only [bind_eq_ok, takeWhile_apply, pure_apply, Reply.ok.injEq]
  constructor
  · rintro ⟨g, _, ⟨hg, hr⟩, rfl, rfl⟩
    obtain ⟨hs, hall, hstop⟩ := run_iff.mp ⟨hg.symm, hr.symm⟩
    exact ⟨g, hall, rfl, hs, hstop⟩
  · rintro ⟨g, hall, rfl, hs, hstop⟩
    obtain ⟨hg, hr⟩ := run_iff.mpr ⟨hs, hall, hstop⟩
    exact ⟨g, r, ⟨hg.symm, hr.symm⟩, rfl, rfl⟩

/-- A bullet mark. -/
def Mark (m : Char) : Prop := m = '*' ∨ m = '-'

theorem Mark.not_space {m : Char} (h : Mark m) : isSpace m = false := by
  rcases h with rfl | rfl <;> decide

theorem bulletMark_iff {u : Unit} : bulletMark s = .ok u r ↔ ∃ m, Mark m ∧ s = m :: r := by
  unfold bulletMark
  simp only [bind_eq_ok, character_eq_ok, Bool.or_eq_true, beq_iff_eq]
  constructor
  · rintro ⟨m, _, ⟨rfl, hm⟩, h⟩
    cases h
    exact ⟨m, hm, rfl⟩
  · rintro ⟨m, hm, rfl⟩
    exact ⟨m, r, ⟨rfl, hm⟩, rfl⟩

theorem stem_iff : stem w s = .ok c t ↔ ∃ g m h u, Spaces g ∧ width g = w ∧ Mark m ∧ Gap h ∧
    Stops isSpace u ∧ s = g ++ m :: (h ++ u) ∧ Clause.clause u = .ok c t := by
  unfold stem
  simp only [bind_eq_ok, satisfying_eq_ok, indentation_iff, bulletMark_iff, spaces1_iff,
    beq_iff_eq]
  constructor
  · rintro ⟨_, _, ⟨⟨g, hg, rfl, rfl, -⟩, rfl⟩, _, _, ⟨m, hm, rfl⟩, _, u, ⟨h, hne, hh, rfl, hstop⟩, hc⟩
    exact ⟨g, m, h, u, hg, rfl, hm, ⟨hne, hh⟩, hstop, rfl, hc⟩
  · rintro ⟨g, m, h, u, hg, rfl, hm, ⟨hne, hh⟩, hstop, rfl, hc⟩
    exact ⟨_, _, ⟨⟨g, hg, rfl, rfl, stops_cons.mpr hm.not_space⟩, rfl⟩, (), _, ⟨m, hm, rfl⟩, (), u,
      ⟨h, hne, hh, rfl, hstop⟩, hc⟩

/-- The name of a target: not empty, and without blanks. -/
def Target (n : List Char) : Prop := n ≠ [] ∧ ∀ c ∈ n, isBlank c = false

theorem Target.stops {n : List Char} (h : Target n) : Stops isSpace (n ++ r) := by
  obtain ⟨hne, hall⟩ := h
  obtain ⟨c, n, rfl⟩ := List.exists_cons_of_ne_nil hne
  refine stops_cons.mpr ?_
  cases hc : isSpace c with
  | false => rfl
  | true =>
    have := hall c List.mem_cons_self
    simp [isBlank_of_isSpace hc] at this

theorem lastTarget_iff {n : String} : lastTarget s = .ok n [] ↔ ∃ b cs p, Spaces b ∧ Target cs ∧
    Spaces p ∧ n = String.ofList cs ∧ s = b ++ (cs ++ p) := by
  unfold lastTarget target
  simp only [bind_eq_ok, commit_eq_ok, expecting_eq_ok, spaces_iff, takeWhile1_iff, finished_eq_ok,
    pure_apply, Reply.ok.injEq, Bool.not_eq_true']
  constructor
  · rintro ⟨_, _, ⟨b, hb, rfl, -⟩, _, _, ⟨cs, _, ⟨hne, rfl, hall, -⟩, rfl, rfl⟩, _, _,
      ⟨_, _, ⟨p, hp, rfl, -⟩, rfl, -⟩, rfl, -⟩
    exact ⟨b, cs, p, hb, ⟨hne, hall⟩, hp, rfl, by simp⟩
  · rintro ⟨b, cs, p, hb, htarget, hp, rfl, rfl⟩
    have hstop : Stops (fun c => !isBlank c) p := by
      intro c hc
      simp [isBlank_of_isSpace (hp c (List.mem_of_mem_head? hc))]
    exact ⟨(), cs ++ p, ⟨b, hb, rfl, htarget.stops⟩, _, p, ⟨cs, p, ⟨htarget.1, rfl, htarget.2, hstop⟩,
      rfl, rfl⟩, (), [], ⟨(), [], ⟨p, hp, by simp, stops_nil⟩, rfl, rfl⟩, rfl, rfl⟩

theorem ending_iff : ending t = .ok o [] ↔ (o = none ∧ Spaces t) ∨
    ∃ a b cs p, Spaces a ∧ Spaces b ∧ Target cs ∧ Spaces p ∧ o = some (String.ofList cs) ∧
      t = a ++ ("=>".toList ++ (b ++ (cs ++ p))) := by
  unfold ending
  simp only [bind_eq_ok, spaces_iff, maybe_eq_ok, word_iff]
  constructor
  · rintro ⟨_, u, ⟨a, ha, rfl, -⟩, _, v, ⟨_, rfl, rfl⟩ | ⟨rfl, rfl, -⟩, h⟩
    · rw [Option.isSome_some, if_pos rfl] at h
      obtain ⟨n, _, hn, h⟩ := bind_eq_ok.mp h
      cases h
      obtain ⟨b, cs, p, hb, hcs, hp, rfl, rfl⟩ := lastTarget_iff.mp hn
      exact .inr ⟨a, b, cs, p, ha, hb, hcs, hp, rfl, rfl⟩
    · rw [Option.isSome_none, if_neg (by decide)] at h
      cases h
      exact .inl ⟨rfl, by simpa using ha⟩
  · rintro (⟨rfl, ht⟩ | ⟨a, b, cs, p, ha, hb, hcs, hp, rfl, rfl⟩)
    · exact ⟨(), [], ⟨t, ht, by simp, stops_nil⟩, none, [],
        .inr ⟨rfl, rfl, word_fails (by simp)⟩, rfl⟩
    · refine ⟨(), _, ⟨a, ha, rfl, stops_cons.mpr (by decide)⟩, some (), _, .inl ⟨(), rfl, rfl⟩, ?_⟩
      rw [Option.isSome_some, if_pos rfl]
      exact bind_eq_ok.mpr ⟨_, [], lastTarget_iff.mpr ⟨b, cs, p, hb, hcs, hp, rfl, rfl⟩, rfl⟩

theorem head_iff : head w s = .ok (c, o) [] ↔ ∃ t, stem w s = .ok c t ∧ ending t = .ok o [] := by
  rw [head_eq]
  simp only [bind_eq_ok, pure_apply, Reply.ok.injEq, Prod.mk.injEq]
  constructor
  · rintro ⟨_, t, hc, _, _, ho, ⟨rfl, rfl⟩, rfl⟩
    exact ⟨t, hc, ho⟩
  · rintro ⟨t, hc, ho⟩
    exact ⟨c, t, hc, o, [], ho, ⟨rfl, rfl⟩, rfl⟩

/-- A line that does not start as a bullet of the column is no bullet of it. -/
theorem misses_head (h : ∀ c t, stem w s ≠ .ok c t) : Misses (head w) s := by
  rw [head_eq]
  exact .inr (bind_fails_of_fails ((steady_stem w).tentative.fails_iff.mpr h))

theorem width_of_stem (h : stem w s = .ok c t) : width (s.takeWhile isSpace) = w := by
  obtain ⟨g, m, k, u, hg, rfl, hm, -, -, rfl, -⟩ := stem_iff.mp h
  have hstop : Stops isSpace (m :: (k ++ u)) := stops_cons.mpr hm.not_space
  rw [← (run_iff.mpr ⟨rfl, hg, hstop⟩).1]

theorem column_of_head {l : Line} (h : head w l.text = .ok (c, o) []) : column l = w := by
  obtain ⟨t, ht, -⟩ := head_iff.mp h
  exact width_of_stem ht

/-! ## Lists -/

theorem keeps_ahead {α : Type} (p : Reader Char α) : Keeps (ahead p) := by
  intro ls a ms h
  obtain ⟨rfl, -⟩ := ahead_eq_ok.mp h
  exact List.suffix_rfl

theorem hungry_head (w : Nat) : Hungry (head w) := by
  rw [head_eq]
  exact hungry_bind (hungry_stem w)

theorem keeps_under {f : Nat → Reader Line (List Bullet)} (hf : ∀ j, Keeps (f j)) (w : Nat) :
    Keeps (under f w) := by
  refine (keeps_ahead _).bind fun inner => ?_
  split
  · exact keeps_reject
  · exact hf inner

theorem consumes_item {f : Nat → Reader Line (List Bullet)} (hf : ∀ j, Keeps (f j)) (w : Nat) :
    Consumes (item f w) := by
  refine (consumes_line (hungry_head w)).bind fun (c, o) => ?_
  cases o with
  | some n => exact keeps_pure _
  | none => exact ((keeps_under hf w).commit.expecting _).bind fun _ => keeps_pure _

theorem under_congr {f g : Nat → Reader Line (List Bullet)} {ls : List Line}
    (h : ∀ j, f j ls = g j ls) : under f w ls = under g w ls := by
  refine bind_congr_of_ok fun inner ms hms => ?_
  obtain ⟨rfl, -⟩ := ahead_eq_ok.mp hms
  split
  · rfl
  · exact h inner

theorem item_congr {f g : Nat → Reader Line (List Bullet)} {ls : List Line}
    (h : ∀ j ms, ms.length < ls.length → f j ms = g j ms) : item f w ls = item g w ls := by
  refine bind_congr_of_ok fun (c, o) ms hms => ?_
  have hlt := (consumes_line (hungry_head w) hms).2
  cases o with
  | some n => rfl
  | none =>
    have := under_congr (w := w) (fun j => h j ms hlt)
    show Reader.bind _ _ ms = Reader.bind _ _ ms
    unfold Reader.bind expecting hinting commit
    rw [this]

theorem descends_list : Descends fun list indent => many1 (item list indent) where
  keeps hf w := (consumes_item hf w).many1.keeps
  congr hf h w := many1_congr (consumes_item hf w).keeps fun _ hms =>
    item_congr fun j ks hks => h j ks (Nat.lt_of_lt_of_le hks hms)

theorem keeps_list (w : Nat) : Keeps (list w) := descends_list.keeps_fix w

/-- A list of bullets is one or more bullets, the lists under them included. -/
theorem list_eq (w : Nat) : list w = many1 (item list w) := descends_list.fix_eq w

/-! ## Lists and their lines -/

/-- The column of the next line, where the empty line at the end of the input has column zero. -/
def nextColumn (ls : List Line) : Nat := width ((nextText ls).takeWhile isSpace)

/-- The line of a bullet, as it is read. -/
def Read (w : Nat) (c : Clause) (t : Option String) (s : List Char) : Prop :=
  head w s = .ok (c, t) []

/-- No bullet of the list at the column `w` comes next. -/
def Off (w : Nat) (ls : List Line) : Prop := ∀ l ∈ ls.head?, Misses (head w) l.text

variable {b : Bullet} {bs : List Bullet} {ls rest : List Line}

theorem ahead_indentation_iff {n : Nat} {ms : List Line} : ahead indentation ls = .ok n ms ↔
    ms = ls ∧ n = nextColumn ls := by
  rw [ahead_eq_ok]
  refine and_congr_right fun _ => ?_
  unfold nextColumn indentation
  simp only [bind_eq_ok, takeWhile_apply, pure_apply, Reply.ok.injEq]
  constructor
  · rintro ⟨_, _, _, ⟨rfl, rfl⟩, rfl, -⟩
    rfl
  · rintro rfl
    exact ⟨_, _, _, ⟨rfl, rfl⟩, rfl, rfl⟩

/-- The list under a bullet is at a greater column. -/
theorem under_iff : under list w ls = .ok bs rest ↔
    w < nextColumn ls ∧ list (nextColumn ls) ls = .ok bs rest := by
  unfold under
  simp only [bind_eq_ok, ahead_indentation_iff]
  constructor
  · rintro ⟨_, _, ⟨rfl, rfl⟩, h⟩
    split at h
    · cases h
    · exact ⟨by omega, h⟩
  · rintro ⟨hlt, h⟩
    exact ⟨_, _, ⟨rfl, rfl⟩, by rwa [if_neg (by omega)]⟩

theorem item_iff : item list w ls = .ok b rest ↔ ∃ l ms, ls = l :: ms ∧
    ((∃ c t, Read w c (some t) l.text ∧ b = .goTo c t ∧ rest = ms) ∨
      ∃ c kids, Read w c none l.text ∧ b = .group c kids ∧ w < nextColumn ms ∧
        list (nextColumn ms) ms = .ok kids rest) := by
  unfold item
  simp only [bind_eq_ok, line_eq_ok (hungry_head w)]
  constructor
  · rintro ⟨⟨c, o⟩, ms, ⟨l, rfl, hl⟩, h⟩
    refine ⟨l, ms, rfl, ?_⟩
    cases o with
    | some t =>
      cases h
      exact .inl ⟨c, t, hl, rfl, rfl⟩
    | none =>
      obtain ⟨kids, _, hkids, h⟩ := bind_eq_ok.mp h
      cases h
      rw [expecting_eq_ok, commit_eq_ok] at hkids
      obtain ⟨hlt, hkids⟩ := under_iff.mp hkids
      exact .inr ⟨c, kids, hl, rfl, hlt, hkids⟩
  · rintro ⟨l, ms, rfl, ⟨c, t, hl, rfl, rfl⟩ | ⟨c, kids, hl, rfl, hlt, hkids⟩⟩
    · exact ⟨(c, some t), _, ⟨l, rfl, hl⟩, rfl⟩
    · have hunder := under_iff.mpr ⟨hlt, hkids⟩
      exact ⟨(c, none), ms, ⟨l, rfl, hl⟩,
        bind_eq_ok.mpr ⟨kids, rest, expecting_eq_ok.mpr (commit_eq_ok.mpr hunder), rfl⟩⟩

/-- A list ends where its line does not fit; once the line of a bullet is read there is no way
back. -/
theorem item_fails_iff : Fails (item list w) ls ↔ Off w ls := by
  have hline : Fails (item list w) ls ↔ Fails (line (head w)) ls := by
    refine bind_fails.trans (or_iff_left ?_)
    rintro ⟨⟨c, o⟩, ms, -, h⟩
    cases o with
    | some t =>
      obtain ⟨e, he, -⟩ := h
      cases he
    | none =>
      rcases bind_fails.mp h with h | ⟨kids, ks, -, e, he, -⟩
      · exact not_fails_commit (hinting_fails.mp h)
      · cases he
  rw [hline]
  cases ls with
  | nil =>
    refine iff_of_true (line_nil_fails ?_) nofun
    rw [head_eq]
    exact bind_fails_of_fails ((steady_stem w).tentative.fails_iff.mpr (hungry_stem w))
  | cons l ms => simp [line_fails, Off]

theorem list_iff : list w ls = .ok bs rest ↔
    bs ≠ [] ∧ many (item list w) ls = .ok bs rest := by
  rw [list_eq, many1_eq_ok_iff_many (consumes_item keeps_list w)]

/-- What is read as the bullets of a list is laid out at its column. -/
theorem laid_of_many (h : many (item list w) ls = .ok bs rest) :
    ∃ ms, ls = ms ++ rest ∧ Laid Read w bs ms ∧ Off w rest := by
  induction hn : ls.length using Nat.strongRecOn generalizing w ls bs rest with
  | ind n ih =>
    rcases (many_eq_ok (consumes_item keeps_list w)).mp h with
      ⟨rfl, rfl, hf⟩ | ⟨b, bs, ks, rfl, hb, hbs⟩
    · exact ⟨[], rfl, .nil, item_fails_iff.mp hf⟩
    have hks := (consumes_item keeps_list w hb).2
    obtain ⟨ms, rfl, hms, hoff⟩ := ih _ (hn ▸ hks) hbs rfl
    obtain ⟨l, us, rfl, ⟨c, t, hl, rfl, rfl⟩ | ⟨c, kids, hl, rfl, hlt, hkids⟩⟩ := item_iff.mp hb
    · exact ⟨l :: ms, rfl, .goTo hl hms, hoff⟩
    · obtain ⟨hne, hkids⟩ := list_iff.mp hkids
      obtain ⟨vs, hus, hvs, -⟩ := ih _ (by rw [← hn]; simp) hkids rfl
      exact ⟨l :: (vs ++ ms), by simp [hus], .group hl hlt hne hvs hms, hoff⟩

theorem off_of_column {v : Nat} {l : Line} (h : column l = w) (hv : v ≠ w) : Off v (l :: ls) := by
  intro m hm
  obtain rfl : l = m := by simpa using hm
  refine misses_head fun c t hstem => hv ?_
  rw [← h]
  exact (width_of_stem hstem).symm

theorem Laid.first_read (h : Laid Read w bs ls) (hne : bs ≠ []) :
    ∃ l ms c o, ls = l :: ms ∧ Read w c o l.text := by
  cases h with
  | nil => exact absurd rfl hne
  | goTo hl _ => exact ⟨_, _, _, _, rfl, hl⟩
  | group hl _ _ _ _ => exact ⟨_, _, _, _, rfl, hl⟩

/-- The first line of a list is at its column. -/
theorem Laid.first (h : Laid Read w bs ls) (hne : bs ≠ []) :
    ∃ l ms, ls = l :: ms ∧ column l = w := by
  obtain ⟨l, ms, c, o, rfl, hl⟩ := h.first_read hne
  exact ⟨l, ms, rfl, column_of_head hl⟩

/-- Bullets that are laid out at a column are read as a list, if no bullet of the list or of one
under it comes next. -/
theorem many_of_laid (h : Laid Read w bs ls) (hrest : ∀ v, w ≤ v → Off v rest) :
    many (item list w) (ls ++ rest) = .ok bs rest := by
  induction h generalizing rest with
  | nil =>
    exact (many_eq_ok (consumes_item keeps_list _)).mpr
      (.inl ⟨rfl, rfl, item_fails_iff.mpr (hrest _ (Nat.le_refl _))⟩)
  | @goTo w c t l bs ls hl _ ih =>
    exact (many_eq_ok (consumes_item keeps_list w)).mpr (.inr ⟨_, bs, ls ++ rest, rfl,
      item_iff.mpr ⟨l, ls ++ rest, rfl, .inl ⟨c, t, hl, rfl, rfl⟩⟩, ih hrest⟩)
  | @group w v c l kids bs ks ls hl hlt hne hkids hbs ihkids ih =>
    have hafter : ∀ u, v ≤ u → Off u (ls ++ rest) := by
      intro u hu
      by_cases hnil : bs = []
      · subst hnil
        cases hbs
        exact hrest u (by omega)
      · obtain ⟨m, ms, rfl, hm⟩ := hbs.first hnil
        exact off_of_column hm (by omega)
    have hcolumn : nextColumn (ks ++ (ls ++ rest)) = v := by
      obtain ⟨m, ms, rfl, hm⟩ := hkids.first hne
      exact hm
    refine (many_eq_ok (consumes_item keeps_list w)).mpr (.inr ⟨.group c kids, bs, ls ++ rest, rfl,
      item_iff.mpr ⟨l, ks ++ (ls ++ rest), by simp, .inr ⟨c, kids, hl, rfl, ?_, ?_⟩⟩, ih hrest⟩)
    · rwa [hcolumn]
    · rw [hcolumn]
      exact list_iff.mpr ⟨hne, ihkids hafter⟩

/-! ## Blocks -/

/-- A block of bullets may end here: a blank line or a directive line comes next, or nothing. -/
def Ends (ls : List Line) : Prop :=
  ∀ l ∈ ls.head?, l.isVacant = true ∨ '\r' ∉ l.text ∧ Directive.isDirective l.text = true

theorem atEnd_iff {u : Unit} : atEnd ls = .ok u rest ↔ rest = ls ∧ Ends ls := by
  have hdirective : ∀ {u : Unit}, (ahead do
      let _ ← restOfLine.satisfying Directive.isDirective : Reader Line Unit) ls = .ok u rest ↔
        rest = ls ∧ '\r' ∉ nextText ls ∧ Directive.isDirective (nextText ls) = true := by
    intro u
    simp only [ahead_eq_ok, bind_eq_ok, satisfying_eq_ok, restOfLine_eq_ok]
    constructor
    · rintro ⟨rfl, _, _, _, ⟨⟨rfl, rfl, hr⟩, hd⟩, -⟩
      exact ⟨rfl, hr, hd⟩
    · rintro ⟨rfl, hr, hd⟩
      exact ⟨rfl, [], _, [], ⟨⟨rfl, rfl, hr⟩, hd⟩, rfl⟩
  unfold atEnd
  rw [orElse_eq_ok_iff_fails, atVacantLine_iff, atVacantLine_fails, hdirective]
  cases ls with
  | nil => simp [Ends]
  | cons l ls =>
    simp only [Ends, List.head?_cons, Option.mem_def, Option.some.injEq, forall_eq', exists_eq_left',
      nextText]
    cases l.isVacant <;> simp

theorem Ends.off {v : Nat} (h : Ends ls) : Off v ls := by
  intro l hl
  refine misses_head fun c t hstem => ?_
  obtain ⟨g, m, k, u, hg, -, hm, -, -, hs, -⟩ := stem_iff.mp hstem
  rcases h l hl with hvacant | ⟨-, hdirective⟩
  · have := Line.isVacant_iff.mp hvacant m (by simp [hs])
    simp [hm.not_space] at this
  · obtain ⟨t, ht⟩ := Directive.exists_dollar hdirective
    rw [hs, trimStart_spaces_append hg (by rcases hm with rfl | rfl <;> decide)] at ht
    rcases hm with rfl | rfl <;> cases ht

theorem block_iff : block ls = .ok bs rest ↔
    ∃ w ms, ls = ms ++ rest ∧ bs ≠ [] ∧ Laid Read w bs ms ∧ Ends rest := by
  unfold block
  simp only [bind_eq_ok, ahead_indentation_iff, expecting_eq_ok, commit_eq_ok, atEnd_iff, pure_apply,
    Reply.ok.injEq]
  constructor
  · rintro ⟨_, _, ⟨rfl, rfl⟩, _, ms, hlist, _, _, ⟨rfl, hends⟩, rfl, rfl⟩
    obtain ⟨hne, hmany⟩ := list_iff.mp hlist
    obtain ⟨ms, hls, hlaid, -⟩ := laid_of_many hmany
    exact ⟨_, ms, hls, hne, hlaid, hends⟩
  · rintro ⟨w, ms, rfl, hne, hlaid, hends⟩
    have hcolumn : nextColumn (ms ++ rest) = w := by
      obtain ⟨l, ms, rfl, hl⟩ := hlaid.first hne
      exact hl
    refine ⟨_, _, ⟨rfl, rfl⟩, bs, rest, ?_, (), rest, ⟨rfl, hends⟩, rfl, rfl⟩
    rw [hcolumn]
    exact list_iff.mpr ⟨hne, many_of_laid hlaid fun _ _ => hends.off⟩

/-- Once the first line of a block is read there is no way back. -/
theorem block_fails_iff : Fails block ls ↔ Off (nextColumn ls) ls := by
  unfold block
  rw [bind_fails]
  constructor
  · rintro (⟨e, h, -⟩ | ⟨n, ms, hn, h⟩)
    · cases h
    · obtain ⟨rfl, rfl⟩ := ahead_indentation_iff.mp hn
      rcases bind_fails.mp h with h | ⟨bs, ms, -, h⟩
      · rwa [list_eq, many1_fails, item_fails_iff] at h
      · rcases bind_fails.mp h with h | ⟨_, ks, -, e, h, -⟩
        · exact absurd (hinting_fails.mp h) not_fails_commit
        · cases h
  · intro h
    refine .inr ⟨nextColumn ls, ls, ahead_indentation_iff.mpr ⟨rfl, rfl⟩, bind_fails_of_fails ?_⟩
    rw [list_eq, many1_fails]
    exact item_fails_iff.mpr h

end Bullet

end Interview
