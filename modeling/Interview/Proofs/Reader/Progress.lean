import Interview.Reader.Lines
import Interview.Reader.Repeat

/-!
# Progress and failure of readers

What a reader leaves is the end of what it was given; a reader that `Consumes` leaves less than it
was given. A reader that is `Tentative` always leaves room for an alternative; a reader that is
`Hungry` needs at least one item. All of this is known of a combined reader from its parts.

* `Keeps`, `Consumes`, `Tentative`, `Hungry`, `Fails`: the notions.
* `Keeps.bind`, `Consumes.bind`, `Tentative.bind` and so on: one lemma for each combinator.
* `many_eq_ok`: when a repetition succeeds, and with what.
-/

namespace Interview

namespace Reader

variable {τ α β ι : Type} {p q : Reader τ α} {f g : α → Reader τ β} {s r : List τ}

/-! ## What is left -/

/-- What `p` leaves is the end of its input. -/
def Keeps (p : Reader τ α) : Prop := ∀ ⦃s a r⦄, p s = .ok a r → r <:+ s

/-- What `p` leaves is the end of its input, and not all of it. -/
def Consumes (p : Reader τ α) : Prop :=
  ∀ ⦃s a r⦄, p s = .ok a r → r <:+ s ∧ r.length < s.length

theorem Consumes.keeps (h : Consumes p) : Keeps p := fun _ _ _ hs => (h hs).1

theorem keeps_pure (a : α) : Keeps (pure a : Reader τ α) := by
  intro s b r h
  cases h
  exact List.suffix_rfl

theorem keeps_reject : Keeps (reject : Reader τ α) := nofun

theorem Keeps.bind (hp : Keeps p) (hf : ∀ a, Keeps (f a)) : Keeps (p >>= f) := by
  intro s b r h
  obtain ⟨a, t, ha, hb⟩ := bind_eq_ok.mp h
  exact (hf a hb).trans (hp ha)

theorem Consumes.bind (hp : Consumes p) (hf : ∀ a, Keeps (f a)) : Consumes (p >>= f) := by
  intro s b r h
  obtain ⟨a, t, ha, hb⟩ := bind_eq_ok.mp h
  obtain ⟨hsuffix, hlt⟩ := hp ha
  exact ⟨(hf a hb).trans hsuffix, Nat.lt_of_le_of_lt (hf a hb).length_le hlt⟩

theorem Keeps.bind_consumes (hp : Keeps p)
    (hf : ∀ a, Consumes (f a)) : Consumes (p >>= f) := by
  intro s b r h
  obtain ⟨a, t, ha, hb⟩ := bind_eq_ok.mp h
  obtain ⟨hsuffix, hlt⟩ := hf a hb
  exact ⟨hsuffix.trans (hp ha), Nat.lt_of_lt_of_le hlt (hp ha).length_le⟩

theorem Keeps.orElse (hp : Keeps p) (hq : Keeps q) : Keeps (p <|> q) := by
  intro s a r h
  rcases orElse_eq_ok.mp h with h | ⟨-, h⟩
  · exact hp h
  · exact hq h

theorem Keeps.maybe (hp : Keeps p) : Keeps p.maybe := by
  intro s o r h
  rcases maybe_eq_ok.mp h with ⟨a, -, ha⟩ | ⟨-, rfl, -⟩
  · exact hp ha
  · exact List.suffix_rfl

theorem Keeps.commit (hp : Keeps p) : Keeps p.commit := fun _ _ _ h => hp (commit_eq_ok.mp h)

theorem Keeps.expecting (hp : Keeps p) (d : String) : Keeps (p.expecting d) :=
  fun _ _ _ h => hp (expecting_eq_ok.mp h)

/-- A repetition leaves the end of its input: each round does. -/
theorem Keeps.many (hp : Keeps p) : Keeps (many p) := by
  intro s
  induction hn : s.length using Nat.strongRecOn generalizing s with
  | ind n ih =>
    intro as r h
    rw [many_eq] at h
    split at h
    · rename_i a t ha
      split at h
      · rename_i hlt
        split at h
        · rename_i bs u hb
          cases h
          exact (ih _ (hn ▸ hlt) rfl hb).trans (hp ha)
        · cases h
      · cases h
        exact List.suffix_rfl
    · split at h
      · cases h
      · cases h
        exact List.suffix_rfl

theorem Consumes.many1 (hp : Consumes p) : Consumes (many1 p) :=
  hp.bind fun _ => hp.keeps.many.bind fun _ => keeps_pure _

/-- A recursive reader keeps the end of its input if it does so whenever its calls of itself do. -/
theorem Keeps.fix {step : (ι → Reader τ α) → ι → Reader τ α}
    (h : ∀ rec, (∀ j, Keeps (rec j)) → ∀ i, Keeps (step rec i)) (i : ι) : Keeps (fix step i) := by
  intro s
  induction hn : s.length using Nat.strongRecOn generalizing s i with
  | ind n ih =>
    intro a r hs
    rw [fix_eq] at hs
    refine h _ (fun j t b u ht => ?_) i hs
    unfold below at ht
    split at ht
    · rename_i hlt
      exact ih _ (hn ▸ hlt) j rfl ht
    · cases ht

/-! ## Failure -/

/-- Every failure of `p` leaves room for an alternative. -/
def Tentative (p : Reader τ α) : Prop := ∀ ⦃s e⦄, p s = .fail e → e.isFinal = false

/-- On this input `p` fails and leaves room for an alternative. -/
def Fails (p : Reader τ α) (s : List τ) : Prop := ∃ e, p s = .fail e ∧ e.isFinal = false

/-- There is nothing in the empty input that `p` could read. -/
def Hungry (p : Reader τ α) : Prop := ∀ a r, p [] ≠ .ok a r

theorem Tentative.fails_iff (hp : Tentative p) : Fails p s ↔ ∀ a r, p s ≠ .ok a r := by
  constructor
  · rintro ⟨e, he, -⟩ a r h
    rw [he] at h
    cases h
  · intro h
    cases hs : p s with
    | ok a r => exact absurd hs (h a r)
    | fail e => exact ⟨e, hs, hp hs⟩

theorem Fails.not_ok (h : Fails p s) {a : α} : p s ≠ .ok a r := by
  obtain ⟨e, he, -⟩ := h
  rw [he]
  nofun

theorem orElse_eq_ok_iff_fails {a : α} :
    (p <|> q) s = .ok a r ↔ p s = .ok a r ∨ Fails p s ∧ q s = .ok a r := orElse_eq_ok

theorem orElse_fails : Fails (p <|> q) s ↔ Fails p s ∧ Fails q s := by
  have hsame : (p <|> q) s = Reader.orElse p (fun _ => q) s := rfl
  unfold Fails
  rw [hsame]
  unfold Reader.orElse
  cases p s with
  | ok a r => simp
  | fail e => cases he : e.isFinal <;> simp [he]

theorem bind_fails : Fails (p >>= f) s ↔ Fails p s ∨ ∃ a t, p s = .ok a t ∧ Fails (f a) t := by
  unfold Fails
  show (∃ e, Reader.bind p f s = .fail e ∧ _) ↔ _
  unfold Reader.bind
  cases p s with
  | ok a t => simp [and_assoc]
  | fail e => simp

theorem bind_fails_of_fails (h : Fails p s) : Fails (p >>= f) s := bind_fails.mpr (.inl h)

theorem map_fails {h : α → β} : Fails (h <$> p) s ↔ Fails p s := by
  show Fails (p >>= fun a => pure (h a)) s ↔ _
  rw [bind_fails]
  constructor
  · rintro (hp | ⟨a, t, -, e, he, -⟩)
    · exact hp
    · cases he
  · exact .inl

theorem tentative_pure (a : α) : Tentative (pure a : Reader τ α) := nofun

theorem Tentative.bind (hp : Tentative p) (hf : ∀ a, Tentative (f a)) : Tentative (p >>= f) := by
  intro s e h
  change Reader.bind p f s = _ at h
  unfold Reader.bind at h
  split at h
  · exact hf _ h
  · rename_i e' he
    cases h
    exact hp he

theorem Tentative.orElse (hp : Tentative p) (hq : Tentative q) : Tentative (p <|> q) := by
  intro s e h
  change Reader.orElse p (fun _ => q) s = _ at h
  unfold Reader.orElse at h
  split at h
  · cases h
  · split at h
    · rename_i he _
      cases h
      exact hp he
    · exact hq h

theorem Tentative.maybe (hp : Tentative p) : Tentative p.maybe := by
  intro s e h
  unfold Reader.maybe at h
  split at h
  · cases h
  · split at h
    · rename_i he _
      cases h
      exact hp he
    · cases h

theorem Tentative.peek (hp : Tentative p) : Tentative p.peek := by
  intro s e h
  unfold Reader.peek at h
  split at h
  · cases h
  · rename_i he
    have hroom := hp he
    cases h
    exact hroom

theorem Tentative.absent (hp : Tentative p) : Tentative p.absent := by
  intro s e h
  unfold Reader.absent at h
  split at h
  · cases h
    rfl
  · rename_i he
    rw [hp he] at h
    cases h

theorem Tentative.satisfying (hp : Tentative p) (test : α → Bool) :
    Tentative (p.satisfying test) := by
  intro s e h
  unfold Reader.satisfying at h
  split at h
  · split at h <;> cases h
    rfl
  · rename_i he
    cases h
    exact hp he

theorem Tentative.expecting (hp : Tentative p) (d : String) : Tentative (p.expecting d) := by
  intro s e h
  unfold Reader.expecting hinting at h
  split at h
  · cases h
  · rename_i he
    have hroom := hp he
    cases h
    exact hroom

theorem Tentative.many (hp : Tentative p) : Tentative (many p) := by
  intro s
  induction hn : s.length using Nat.strongRecOn generalizing s with
  | ind n ih =>
    intro e h
    rw [many_eq] at h
    split at h
    · split at h
      · rename_i hlt
        split at h
        · cases h
        · rename_i he
          cases h
          exact ih _ (hn ▸ hlt) rfl he
      · cases h
    · rename_i he
      rw [hp he] at h
      cases h

/-- After a committed reader no failure leaves room. -/
theorem not_fails_commit : ¬ Fails p.commit s := by
  rintro ⟨e, h, he⟩
  unfold Reader.commit at h
  split at h <;> cases h
  cases he

theorem hinting_fails {h : Hint} : Fails (p.hinting h) s ↔ Fails p s := by
  unfold Fails hinting
  cases p s with
  | ok a t => simp
  | fail e => simp

theorem absent_eq_ok (hp : Tentative p) {u : Unit} :
    p.absent s = .ok u r ↔ r = s ∧ ∀ a t, p s ≠ .ok a t := by
  unfold absent
  cases h : p s with
  | ok a t => simp
  | fail e => simp [hp h, eq_comm]

theorem hungry_bind (hp : Hungry p) : Hungry (p >>= f) := by
  intro b r h
  obtain ⟨a, t, ha, -⟩ := bind_eq_ok.mp h
  exact hp a t ha

/-- A reader needs at least one character if what comes after it does. -/
theorem hungry_bind_of_keeps (hp : Keeps p) (hf : ∀ a, Hungry (f a)) : Hungry (p >>= f) := by
  intro b r h
  obtain ⟨a, t, ha, hb⟩ := bind_eq_ok.mp h
  obtain rfl := List.suffix_nil.mp (hp ha)
  exact hf a b r hb

theorem hungry_orElse (hp : Hungry p) (hq : Hungry q) :
    Hungry (p <|> q) := by
  intro a r h
  rcases orElse_eq_ok.mp h with h | ⟨-, h⟩
  · exact hp a r h
  · exact hq a r h

theorem hungry_satisfying {test : α → Bool} (hp : Hungry p) :
    Hungry (p.satisfying test) := fun a r h => hp a r (satisfying_eq_ok.mp h).1

theorem hungry_expecting {d : String} (hp : Hungry p) :
    Hungry (p.expecting d) := fun a r h => hp a r (expecting_eq_ok.mp h)

theorem hungry_commit (hp : Hungry p) : Hungry p.commit :=
  fun a r h => hp a r (commit_eq_ok.mp h)

theorem hungry_within {c : String} (hp : Hungry p) :
    Hungry (p.within c) := fun a r h => hp a r (within_eq_ok.mp h)

/-! ## Repetitions -/

/-- A repetition of a reader that consumes ends where the reader fails and leaves room. -/
theorem many_eq_ok (hp : Consumes p) {as : List α} :
    many p s = .ok as r ↔
      (as = [] ∧ r = s ∧ Fails p s) ∨
        ∃ a bs t, as = a :: bs ∧ p s = .ok a t ∧ many p t = .ok bs r := by
  rw [many_eq]
  cases h : p s with
  | ok a t =>
    have hnot : ¬ Fails p s := fun hf => hf.not_ok h
    simp only [(hp h).2, if_true, hnot, and_false, false_or, Reply.ok.injEq]
    cases ht : many p t with
    | ok bs u =>
      simp only [Reply.ok.injEq]
      constructor
      · rintro ⟨rfl, rfl⟩
        exact ⟨a, bs, t, rfl, ⟨rfl, rfl⟩, ht⟩
      · rintro ⟨_, _, _, rfl, ⟨rfl, rfl⟩, hb⟩
        rw [ht] at hb
        cases hb
        exact ⟨rfl, rfl⟩
    | fail e =>
      simp only [reduceCtorEq, false_iff]
      rintro ⟨_, _, _, -, ⟨rfl, rfl⟩, hb⟩
      rw [ht] at hb
      cases hb
  | fail e =>
    have hroom : Fails p s ↔ e.isFinal = false := by simp [Fails, h]
    cases he : e.isFinal with
    | true => simp [hroom, he]
    | false => simp [hroom, he, eq_comm]

/-- Every item of a repetition was read somewhere. -/
theorem exists_read_of_many (hp : Consumes p) {as : List α} (h : many p s = .ok as r) :
    ∀ a ∈ as, ∃ t u, p t = .ok a u := by
  induction as generalizing s with
  | nil => nofun
  | cons a as ih =>
    obtain ⟨heq, -⟩ | ⟨_, _, t, heq, ha, hrest⟩ := (many_eq_ok hp).mp h
    · cases heq
    · cases heq
      exact List.forall_mem_cons.mpr ⟨⟨s, t, ha⟩, ih hrest⟩

/-- A repetition leaves no room for an alternative when it fails. -/
theorem not_fails_many : ¬ Fails (many p) s := by
  induction hn : s.length using Nat.strongRecOn generalizing s with
  | ind n ih =>
    rintro ⟨e, h, hroom⟩
    rw [many_eq] at h
    split at h
    · split at h
      · rename_i hlt
        split at h
        · cases h
        · rename_i he
          cases h
          exact ih _ (hn ▸ hlt) rfl ⟨_, he, hroom⟩
      · cases h
    · split at h
      · rename_i hfinal
        cases h
        simp [hroom] at hfinal
      · cases h

theorem many1_fails : Fails (many1 p) s ↔ Fails p s := by
  unfold many1
  rw [bind_fails]
  refine or_iff_left ?_
  rintro ⟨a, t, -, h⟩
  rcases bind_fails.mp h with h | ⟨as, u, -, e, he, -⟩
  · exact not_fails_many h
  · cases he

theorem many1_eq_ok {as : List α} :
    many1 p s = .ok as r ↔ ∃ a bs t, as = a :: bs ∧ p s = .ok a t ∧ many p t = .ok bs r := by
  unfold many1
  simp only [bind_eq_ok, pure_apply, Reply.ok.injEq]
  constructor
  · rintro ⟨a, t, ha, bs, u, hb, rfl, rfl⟩
    exact ⟨a, bs, t, rfl, ha, hb⟩
  · rintro ⟨a, bs, t, rfl, ha, hb⟩
    exact ⟨a, t, ha, bs, r, hb, rfl, rfl⟩

/-- Two readers that agree on all inputs that are no longer repeat alike. -/
theorem many_congr (h : ∀ t : List τ, t.length ≤ s.length → p t = q t) : many p s = many q s := by
  induction hn : s.length using Nat.strongRecOn generalizing s with
  | ind n ih =>
    rw [many_eq, many_eq q, h s (Nat.le_refl _)]
    cases q s with
    | fail e => rfl
    | ok a t =>
      by_cases hlt : t.length < s.length
      · have := ih _ (hn ▸ hlt) (fun u hu => h u (Nat.le_trans hu (Nat.le_of_lt hlt))) rfl
        simp only [hlt, if_true, this]
      · simp only [hlt, if_false]

theorem bind_congr_of_ok (h : ∀ a t, p s = .ok a t → f a t = g a t) :
    (p >>= f) s = (p >>= g) s := by
  show Reader.bind p f s = Reader.bind p g s
  unfold Reader.bind
  cases hp : p s with
  | ok a t => exact h a t hp
  | fail e => rfl

end Reader

end Interview
