import Interview.Document.Word
import Interview.Proofs.Reader.Lines
import Mathlib.Data.List.TakeWhile

/-!
# Readers and trailing spaces

Spaces and tabs at the end of a line make no difference to what is read from it. A `Steady` reader
reads the same with and without them and leaves them unread. A `Settled` reader, which reads to the
end of the line, succeeds with them if and only if it succeeds without them.

* `Steady.bind`, `Steady.orElse`, `Steady.many` and so on: one lemma for each combinator.
* `steady_takeWhile1`, `steady_character`, `steady_word`: words.
* `settled_spaces`, `settled_restTrimmed`, `Steady.bind_settled`: the ways to end a line.
-/

namespace Interview

namespace Text

/-- Only spaces and tabs. -/
def Spaces (s : List Char) : Prop := ∀ c ∈ s, isSpace c = true

theorem spaces_nil : Spaces [] := nofun

theorem spaces_append {s t : List Char} : Spaces (s ++ t) ↔ Spaces s ∧ Spaces t := by
  simp [Spaces, or_imp, forall_and]

theorem spaces_iff_dropWhile {s : List Char} : Spaces s ↔ s.dropWhile isSpace = [] := by
  simp [Spaces, List.dropWhile_eq_nil_iff]

/-- A run that ends inside a text does not see what comes after it. -/
theorem takeWhile_append_of_not_all {test : Char → Bool} {s t : List Char}
    (hs : ¬ ∀ c ∈ s, test c = true) : (s ++ t).takeWhile test = s.takeWhile test := by
  rw [List.takeWhile_append, if_neg]
  intro hlen
  exact hs (List.takeWhile_eq_self_iff.mp ((List.takeWhile_prefix _).eq_of_length hlen))

theorem dropWhile_append_of_not_all {test : Char → Bool} {s t : List Char}
    (hs : ¬ ∀ c ∈ s, test c = true) : (s ++ t).dropWhile test = s.dropWhile test ++ t := by
  rw [List.dropWhile_append, if_neg]
  simpa using hs

/-- A trailing part of a text that is not all spaces reaches back before spaces at the end. -/
theorem exists_of_append_eq_append {s pad x t : List Char} (hpad : Spaces pad)
    (h : s ++ pad = x ++ t) (hx : x.getLast?.any isSpace = false) :
    ∃ r, t = r ++ pad ∧ s = x ++ r := by
  rcases List.append_eq_append_iff.mp h with ⟨between, rfl, hb⟩ | ⟨between, rfl, hb⟩
  · -- The text `x` would end among the spaces.
    rcases List.eq_nil_or_concat between with rfl | ⟨init, c, rfl⟩
    · exact ⟨[], by simpa using hb.symm, by simp⟩
    · have hc : isSpace c = true := hpad c (by simp [hb])
      simp [hc] at hx
  · exact ⟨between, hb, rfl⟩

theorem trimStart_append_of_ne_nil {s t : List Char} (h : trimStart s ≠ []) :
    trimStart (s ++ t) = trimStart s ++ t := by
  rw [trimStart, List.dropWhile_append, if_neg (by simpa [trimStart] using h)]
  rfl

/-- Blanks at the end make no difference to the trimmed text. -/
theorem trim_append_blanks {s t : List Char} (h : ∀ c ∈ t, isBlank c = true) :
    trim (s ++ t) = trim s := by
  by_cases hs : trimStart s = []
  · have hall : ∀ c ∈ s ++ t, isBlank c = true := by
      intro c hc
      rcases List.mem_append.mp hc with hc | hc
      · exact List.dropWhile_eq_nil_iff.mp hs c hc
      · exact h c hc
    rw [trim, trim, hs, trimStart, List.dropWhile_eq_nil_iff.mpr hall]
  · rw [trim, trimStart_append_of_ne_nil hs, trimEnd_append h, trim]

/-- Blanks at the start make no difference to the trimmed text. -/
theorem trim_blanks_append {s t : List Char} (h : ∀ c ∈ t, isBlank c = true) :
    trim (t ++ s) = trim s := by
  rw [trim, trimStart, List.dropWhile_append_of_pos h, ← trimStart, ← trim]

/-- Spaces at the end make no difference to the trimmed text. -/
theorem trim_append_spaces {s pad : List Char} (hpad : Spaces pad) : trim (s ++ pad) = trim s :=
  trim_append_blanks fun c hc => isBlank_of_isSpace (hpad c hc)

end Text

namespace Reader

open Text Word

variable {α β γ : Type} {p q : Reader Char α} {f : α → Reader Char β}

/-! ## The notions -/

/-- Spaces at the end of the input make no difference: they are left unread. -/
def Firm (p : Reader Char α) : Prop :=
  ∀ ⦃s pad⦄, Spaces pad → ∀ a t, p (s ++ pad) = .ok a t ↔ ∃ r, t = r ++ pad ∧ p s = .ok a r

/-- A reader of words: it leaves the end of its input and room for alternatives, and spaces at the
end make no difference to it. -/
structure Steady (p : Reader Char α) : Prop where
  keeps : Keeps p
  tentative : Tentative p
  firm : Firm p

/-- Spaces at the end of the input make no difference to whether all of it is read. -/
def Settled (p : Reader Char α) : Prop :=
  ∀ ⦃s pad⦄, Spaces pad → ∀ a, p (s ++ pad) = .ok a [] ↔ p s = .ok a []

/-! ## Combinators -/

theorem reply_append_eq_ok {a b : α} {r t pad : List Char} :
    Reply.ok a (r ++ pad) = .ok b t ↔ ∃ u, t = u ++ pad ∧ Reply.ok a r = .ok b u := by
  simp only [Reply.ok.injEq]
  constructor
  · rintro ⟨rfl, rfl⟩
    exact ⟨r, rfl, rfl, rfl⟩
  · rintro ⟨_, rfl, rfl, rfl⟩
    exact ⟨rfl, rfl⟩

theorem firm_pure (a : α) : Firm (pure a : Reader Char α) := by
  intro s pad _ b t
  exact reply_append_eq_ok

theorem Firm.bind (hp : Firm p) (hf : ∀ a, Firm (f a)) : Firm (p >>= f) := by
  intro s pad hpad b t
  simp only [bind_eq_ok]
  constructor
  · rintro ⟨a, u, ha, hb⟩
    obtain ⟨r, rfl, ha'⟩ := (hp hpad a u).mp ha
    obtain ⟨r', rfl, hb'⟩ := (hf a hpad b t).mp hb
    exact ⟨r', rfl, a, r, ha', hb'⟩
  · rintro ⟨r', rfl, a, r, ha, hb⟩
    exact ⟨a, r ++ pad, (hp hpad a _).mpr ⟨r, rfl, ha⟩, (hf a hpad b _).mpr ⟨r', rfl, hb⟩⟩

theorem Firm.fails_iff (hp : Firm p) (ht : Tentative p) {s pad : List Char} (hpad : Spaces pad) :
    Fails p (s ++ pad) ↔ Fails p s := by
  rw [ht.fails_iff, ht.fails_iff]
  constructor
  · intro h a r hr
    exact h a (r ++ pad) ((hp hpad a _).mpr ⟨r, rfl, hr⟩)
  · intro h a t hr
    obtain ⟨r, -, hr⟩ := (hp hpad a t).mp hr
    exact h a r hr

theorem Firm.orElse (hp : Firm p) (ht : Tentative p) (hq : Firm q) : Firm (p <|> q) := by
  intro s pad hpad a t
  simp only [orElse_eq_ok_iff_fails, hp.fails_iff ht hpad, hp hpad a t, hq hpad a t]
  constructor
  · rintro (⟨r, rfl, h⟩ | ⟨hf, r, rfl, h⟩)
    · exact ⟨r, rfl, .inl h⟩
    · exact ⟨r, rfl, .inr ⟨hf, h⟩⟩
  · rintro ⟨r, rfl, h | ⟨hf, h⟩⟩
    · exact .inl ⟨r, rfl, h⟩
    · exact .inr ⟨hf, r, rfl, h⟩

theorem Firm.many (hp : Firm p) (ht : Tentative p) : Firm (many p) := by
  intro s pad hpad
  induction hn : s.length using Nat.strongRecOn generalizing s with
  | ind n ih =>
    intro as t
    cases hs : p s with
    | fail e =>
      obtain ⟨e', he', hroom⟩ := (hp.fails_iff ht hpad).mpr ⟨e, hs, ht hs⟩
      rw [many_of_fail hs (ht hs), many_of_fail he' hroom]
      exact reply_append_eq_ok
    | ok a r =>
      rw [many_eq, many_eq p s, hs, (hp hpad a _).mpr ⟨r, rfl, hs⟩]
      by_cases hlt : r.length < s.length
      · have hlt' : (r ++ pad).length < (s ++ pad).length := by simpa using hlt
        have hrec := fun as t => ih _ (hn ▸ hlt) rfl as t
        simp only [hlt, hlt', if_true]
        cases hr : Reader.many p r with
        | ok bs u =>
          rw [(hrec bs _).mpr ⟨u, rfl, hr⟩]
          exact reply_append_eq_ok
        | fail e =>
          have := ht.many hr
          cases hr' : Reader.many p (r ++ pad) with
          | ok bs u =>
            obtain ⟨u', -, h⟩ := (hrec bs u).mp hr'
            rw [hr] at h
            cases h
          | fail e' => simp
      · have hlt' : ¬ (r ++ pad).length < (s ++ pad).length := by simpa using hlt
        simp only [hlt, hlt', if_false]
        exact reply_append_eq_ok

theorem steady_pure (a : α) : Steady (pure a : Reader Char α) :=
  ⟨keeps_pure a, tentative_pure a, firm_pure a⟩

theorem Steady.bind (hp : Steady p) (hf : ∀ a, Steady (f a)) : Steady (p >>= f) where
  keeps := hp.keeps.bind fun a => (hf a).keeps
  tentative := hp.tentative.bind fun a => (hf a).tentative
  firm := hp.firm.bind fun a => (hf a).firm

theorem Steady.orElse (hp : Steady p) (hq : Steady q) : Steady (p <|> q) where
  keeps := hp.keeps.orElse hq.keeps
  tentative := hp.tentative.orElse hq.tentative
  firm := hp.firm.orElse hp.tentative hq.firm

theorem Steady.many (hp : Steady p) : Steady (many p) where
  keeps := hp.keeps.many
  tentative := hp.tentative.many
  firm := hp.firm.many hp.tentative

theorem Steady.maybe (hp : Steady p) : Steady p.maybe where
  keeps := hp.keeps.maybe
  tentative := hp.tentative.maybe
  firm s pad hpad o t := by
    simp only [maybe_eq_ok]
    have hfails : (∃ e, p (s ++ pad) = .fail e ∧ e.isFinal = false) ↔
        ∃ e, p s = .fail e ∧ e.isFinal = false := hp.firm.fails_iff hp.tentative hpad
    rw [hfails]
    constructor
    · rintro (⟨a, rfl, h⟩ | ⟨rfl, rfl, h⟩)
      · obtain ⟨r, rfl, h'⟩ := (hp.firm hpad a t).mp h
        exact ⟨r, rfl, .inl ⟨a, rfl, h'⟩⟩
      · exact ⟨s, rfl, .inr ⟨rfl, rfl, h⟩⟩
    · rintro ⟨r, rfl, ⟨a, rfl, h⟩ | ⟨rfl, rfl, h⟩⟩
      · exact .inl ⟨a, rfl, (hp.firm hpad a _).mpr ⟨r, rfl, h⟩⟩
      · exact .inr ⟨rfl, rfl, h⟩

theorem Steady.satisfying (hp : Steady p) (test : α → Bool) : Steady (p.satisfying test) where
  keeps := fun _ _ _ h => hp.keeps (satisfying_eq_ok.mp h).1
  tentative := hp.tentative.satisfying test
  firm s pad hpad a t := by
    simp only [satisfying_eq_ok, hp.firm hpad a t]
    constructor
    · rintro ⟨⟨r, rfl, h⟩, ha⟩
      exact ⟨r, rfl, h, ha⟩
    · rintro ⟨r, rfl, h, ha⟩
      exact ⟨⟨r, rfl, h⟩, ha⟩

theorem Steady.expecting (hp : Steady p) (d : String) : Steady (p.expecting d) where
  keeps := hp.keeps.expecting d
  tentative := hp.tentative.expecting d
  firm s pad hpad a t := by
    simp only [expecting_eq_ok]
    exact hp.firm hpad a t

theorem Steady.absent (hp : Steady p) : Steady p.absent where
  keeps := by
    intro s u r h
    obtain ⟨rfl, -⟩ := (absent_eq_ok hp.tentative).mp h
    exact List.suffix_rfl
  tentative := hp.tentative.absent
  firm s pad hpad u t := by
    have hfails := hp.firm.fails_iff (s := s) hp.tentative hpad
    simp only [hp.tentative.fails_iff] at hfails
    simp only [absent_eq_ok hp.tentative, hfails]
    constructor
    · rintro ⟨rfl, h⟩
      exact ⟨s, rfl, rfl, h⟩
    · rintro ⟨r, rfl, rfl, h⟩
      exact ⟨rfl, h⟩

/-! ## Words -/

theorem keeps_takeWhile (test : Char → Bool) : Keeps (takeWhile test) := by
  intro s cs r h
  cases h
  exact List.dropWhile_suffix _

theorem tentative_takeWhile (test : Char → Bool) : Tentative (takeWhile test) := nofun

/-- A run that may not be empty is a run that is not. -/
theorem takeWhile1_eq (test : Char → Bool) :
    takeWhile1 test = (takeWhile test).satisfying (!·.isEmpty) := by
  funext s
  unfold takeWhile1 Reader.satisfying
  rw [takeWhile_apply]
  cases s.takeWhile test <;> rfl

theorem keeps_takeWhile1 (test : Char → Bool) : Keeps (takeWhile1 test) := by
  intro s cs r h
  rw [(takeWhile1_eq_ok.mp h).2.2]
  exact List.dropWhile_suffix _

theorem tentative_takeWhile1 (test : Char → Bool) : Tentative (takeWhile1 test) := by
  rw [takeWhile1_eq]
  exact (tentative_takeWhile test).satisfying _

theorem hungry_takeWhile1 (test : Char → Bool) : Hungry (takeWhile1 test) := nofun

theorem steady_takeWhile {test : Char → Bool} (h : ∀ c, isSpace c = true → test c = false) :
    Steady (takeWhile test) where
  keeps := keeps_takeWhile test
  tentative := tentative_takeWhile test
  firm s pad hpad cs t := by
    have hnone : pad.takeWhile test = [] ∧ pad.dropWhile test = pad := by
      cases pad with
      | nil => simp
      | cons c pad => simp [h c (hpad c List.mem_cons_self)]
    have hsame : (s ++ pad).takeWhile test = s.takeWhile test ∧
        (s ++ pad).dropWhile test = s.dropWhile test ++ pad := by
      rw [List.takeWhile_append, List.dropWhile_append]
      constructor
      · split
        · rename_i hlen
          rw [hnone.1, List.append_nil, (List.takeWhile_prefix _).eq_of_length hlen]
        · rfl
      · split
        · rename_i hnil
          rw [List.isEmpty_iff.mp hnil, hnone.2, List.nil_append]
        · rfl
    rw [takeWhile_apply, takeWhile_apply, hsame.1, hsame.2]
    exact reply_append_eq_ok

theorem steady_takeWhile1 {test : Char → Bool} (h : ∀ c, isSpace c = true → test c = false) :
    Steady (takeWhile1 test) := by
  rw [takeWhile1_eq]
  exact (steady_takeWhile h).satisfying _

theorem steady_character {test : Char → Bool} (h : ∀ c, isSpace c = true → test c = false) :
    Steady (character test) where
  keeps := by
    intro s c r hc
    obtain ⟨rfl, -⟩ := character_eq_ok.mp hc
    exact List.suffix_cons c r
  tentative := by
    intro s e he
    unfold character at he
    split at he
    · split at he <;> cases he
      rfl
    · cases he
      rfl
  firm s pad hpad c t := by
    simp only [character_eq_ok]
    constructor
    · rintro ⟨heq, hc⟩
      have hlast : [c].getLast?.any isSpace = false := by
        refine Bool.eq_false_iff.mpr fun hspace => ?_
        simp [h c hspace] at hc
      obtain ⟨r, rfl, rfl⟩ := exists_of_append_eq_append (x := [c]) hpad heq hlast
      exact ⟨r, rfl, rfl, hc⟩
    · rintro ⟨r, rfl, rfl, hc⟩
      exact ⟨rfl, hc⟩

theorem consumes_character (test : Char → Bool) : Consumes (character test) := by
  intro s c r h
  obtain ⟨rfl, -⟩ := character_eq_ok.mp h
  exact ⟨List.suffix_cons c r, Nat.lt_succ_self _⟩

theorem hungry_character (test : Char → Bool) : Hungry (character test) := nofun

theorem steady_word {w : String} (h : w.toList.getLast?.any isSpace = false) :
    Steady (word w) where
  keeps := by
    intro s u r hw
    cases u
    rw [word_eq_ok.mp hw]
    exact List.suffix_append _ _
  tentative := by
    intro s e he
    unfold word at he
    split at he <;> cases he
    rfl
  firm s pad hpad u t := by
    cases u
    simp only [word_eq_ok]
    constructor
    · intro heq
      obtain ⟨r, rfl, rfl⟩ := exists_of_append_eq_append hpad heq h
      exact ⟨r, rfl, rfl⟩
    · rintro ⟨r, rfl, rfl⟩
      exact List.append_assoc ..

theorem hungry_word {w : String} (h : w.toList ≠ []) : Hungry (word w) := by
  intro u r hw
  cases u
  simp [word_eq_ok, h] at hw

/-! ## The end of a line -/

theorem spaces_eq_ok {s r : List Char} {u : Unit} :
    spaces s = .ok u r ↔ r = s.dropWhile isSpace := by
  unfold spaces
  simp only [bind_eq_ok, takeWhile_apply, Reply.ok.injEq]
  constructor
  · rintro ⟨_, _, ⟨rfl, rfl⟩, h⟩
    cases h
    rfl
  · rintro rfl
    exact ⟨_, _, ⟨rfl, rfl⟩, rfl⟩

theorem spaces1_eq_ok {s r : List Char} {u : Unit} :
    spaces1 s = .ok u r ↔ s.takeWhile isSpace ≠ [] ∧ r = s.dropWhile isSpace := by
  unfold spaces1
  simp only [bind_eq_ok, takeWhile1_eq_ok]
  constructor
  · rintro ⟨_, _, ⟨hne, rfl, rfl⟩, h⟩
    cases h
    exact ⟨hne, rfl⟩
  · rintro ⟨hne, rfl⟩
    exact ⟨_, _, ⟨hne, rfl, rfl⟩, rfl⟩

theorem Steady.bind_settled (hp : Steady p) (hf : ∀ a, Settled (f a)) : Settled (p >>= f) := by
  intro s pad hpad b
  simp only [bind_eq_ok]
  constructor
  · rintro ⟨a, u, ha, hb⟩
    obtain ⟨r, rfl, ha'⟩ := (hp.firm hpad a u).mp ha
    exact ⟨a, r, ha', (hf a hpad b).mp hb⟩
  · rintro ⟨a, r, ha, hb⟩
    exact ⟨a, r ++ pad, (hp.firm hpad a _).mpr ⟨r, rfl, ha⟩, (hf a hpad b).mpr hb⟩

theorem Settled.commit (hp : Settled p) : Settled p.commit := by
  intro s pad hpad a
  simp only [commit_eq_ok]
  exact hp hpad a

theorem Settled.within (hp : Settled p) (c : String) : Settled (p.within c) := by
  intro s pad hpad a
  simp only [within_eq_ok]
  exact hp hpad a

theorem Settled.bind_pure (hp : Settled p) (f : α → β) :
    Settled (p >>= fun a => (pure (f a) : Reader Char β)) := by
  intro s pad hpad b
  simp only [bind_eq_ok, pure_apply, Reply.ok.injEq]
  constructor
  · rintro ⟨a, _, ha, rfl, rfl⟩
    exact ⟨a, [], (hp hpad a).mp ha, rfl, rfl⟩
  · rintro ⟨a, _, ha, rfl, rfl⟩
    exact ⟨a, [], (hp hpad a).mpr ha, rfl, rfl⟩

theorem settled_spaces : Settled spaces := by
  intro s pad hpad u
  have key : ∀ {t : List Char}, [] = t.dropWhile isSpace ↔ Spaces t := by
    intro t
    rw [spaces_iff_dropWhile, eq_comm]
  rw [spaces_eq_ok, spaces_eq_ok, key, key, spaces_append]
  exact and_iff_left hpad

theorem settled_spaces_bind (hp : Settled p) : Settled (spaces >>= fun _ => p) := by
  intro s pad hpad a
  simp only [bind_eq_ok, spaces_eq_ok, exists_const, exists_eq_left]
  by_cases hs : Spaces s
  · rw [spaces_iff_dropWhile.mp hs, spaces_iff_dropWhile.mp (spaces_append.mpr ⟨hs, hpad⟩)]
  · rw [dropWhile_append_of_not_all hs]
    exact hp hpad a

/-- After spaces that must be there, something else must follow. -/
theorem settled_spaces1_bind (hp : Settled p) (hh : Hungry p) :
    Settled (spaces1 >>= fun _ => p) := by
  intro s pad hpad a
  simp only [bind_eq_ok, spaces1_eq_ok, exists_const, and_assoc]
  by_cases hs : Spaces s
  · have hnone : ∀ {u}, Spaces u → ¬ ∃ t, u.takeWhile isSpace ≠ [] ∧ t = u.dropWhile isSpace ∧
        p t = .ok a [] := by
      rintro u hu ⟨t, -, rfl, h⟩
      rw [spaces_iff_dropWhile.mp hu] at h
      exact hh a [] h
    exact iff_of_false (hnone (spaces_append.mpr ⟨hs, hpad⟩)) (hnone hs)
  · rw [dropWhile_append_of_not_all hs, takeWhile_append_of_not_all hs]
    simp only [exists_and_left, exists_eq_left, hp hpad a]

theorem finished_eq_ok {τ : Type} {s r : List τ} {u : Unit} :
    finished s = .ok u r ↔ s = [] ∧ r = [] := by
  cases s <;> simp [finished, eq_comm]

theorem settled_finished (a : α) :
    Settled (spaces >>= fun _ => finished >>= fun _ => (pure a : Reader Char α)) := by
  intro s pad hpad b
  have key : ∀ t : List Char,
      (spaces >>= fun _ => finished >>= fun _ => (pure a : Reader Char α)) t = .ok b [] ↔
        Spaces t ∧ a = b := by
    intro t
    simp only [bind_eq_ok, spaces_eq_ok, finished_eq_ok, pure_apply, Reply.ok.injEq,
      spaces_iff_dropWhile]
    constructor
    · rintro ⟨_, _, rfl, _, _, ⟨h, rfl⟩, rfl, -⟩
      exact ⟨h, rfl⟩
    · rintro ⟨h, rfl⟩
      exact ⟨(), _, rfl, (), [], ⟨h, rfl⟩, rfl, rfl⟩
  rw [key, key, spaces_append, and_iff_left hpad]

theorem restTrimmed_eq_ok {s r : List Char} {a : String} :
    restTrimmed s = .ok a r ↔ '\r' ∉ s ∧ trim s ≠ [] ∧ a = String.ofList (trim s) ∧ r = [] := by
  unfold restTrimmed
  simp only [bind_eq_ok, satisfying_eq_ok, restOfLine_eq_ok, pure_apply, Reply.ok.injEq,
    Bool.not_eq_true', List.isEmpty_eq_false_iff]
  constructor
  · rintro ⟨_, _, ⟨⟨rfl, rfl, hcr⟩, hne⟩, rfl, rfl⟩
    exact ⟨hcr, hne, rfl, rfl⟩
  · rintro ⟨hcr, hne, rfl, rfl⟩
    exact ⟨s, [], ⟨⟨rfl, rfl, hcr⟩, hne⟩, rfl, rfl⟩

theorem not_mem_of_spaces {pad : List Char} (h : Spaces pad) : '\r' ∉ pad :=
  fun hmem => absurd (h _ hmem) (by decide)

theorem settled_restTrimmed : Settled restTrimmed := by
  intro s pad hpad a
  rw [restTrimmed_eq_ok, restTrimmed_eq_ok, trim_append_spaces hpad, List.mem_append, not_or]
  simp [not_mem_of_spaces hpad]

theorem hungry_restTrimmed : Hungry restTrimmed := by
  intro a r h
  exact absurd rfl (restTrimmed_eq_ok.mp h).2.1

theorem tentative_restOfLine : Tentative restOfLine := by
  intro s e h
  unfold restOfLine at h
  split at h <;> cases h
  rfl

theorem tentative_restTrimmed : Tentative restTrimmed :=
  (tentative_restOfLine.satisfying _).bind fun _ => tentative_pure _

end Reader

end Interview
