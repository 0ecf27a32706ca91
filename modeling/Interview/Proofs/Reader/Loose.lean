import Interview.Proofs.Reader.Trailing

/-!
# Readers that may take trailing spaces

A `Loose` reader may read spaces and tabs at the end of a line itself, but what comes after it, if
it needs at least one character, sees no difference. Indentation is such a reader, and so are the
options of a tag, of which the last may take all of a line.

* `Loose.bind_steady`: a steady reader after a loose one, if it needs at least one character.
* `loose_takeWhile`, `loose_spaces`, `loose_spaces1`: runs that pass over spaces.
* `Greedy.many`, `Greedy.loose`: repetitions of readers that stop before the spaces at the end or
  take everything.
-/

namespace Interview

namespace Reader

open Text Word

variable {α β γ : Type} {p q : Reader Char α} {f : α → Reader Char β}

/-! ## Loose readers -/

/-- A reader that spaces at the end make no difference to, as long as something must follow. -/
structure Loose (p : Reader Char α) : Prop where
  keeps : Keeps p
  tentative : Tentative p
  firm_bind : ∀ {γ : Type} {f : α → Reader Char γ}, (∀ a, Firm (f a)) → (∀ a, Hungry (f a)) →
    Firm (p >>= f)

theorem Steady.loose (hp : Steady p) : Loose p where
  keeps := hp.keeps
  tentative := hp.tentative
  firm_bind hf _ := hp.firm.bind hf

/-- A steady reader may follow a loose one if it needs at least one character. -/
theorem Loose.bind_steady (hp : Loose p) (hf : ∀ a, Steady (f a)) (hh : ∀ a, Hungry (f a)) :
    Steady (p >>= f) where
  keeps := hp.keeps.bind fun a => (hf a).keeps
  tentative := hp.tentative.bind fun a => (hf a).tentative
  firm := hp.firm_bind (fun a => (hf a).firm) hh

theorem Loose.bind (hp : Loose p) (hf : ∀ a, Loose (f a)) : Loose (p >>= f) where
  keeps := hp.keeps.bind fun a => (hf a).keeps
  tentative := hp.tentative.bind fun a => (hf a).tentative
  firm_bind {γ g} hg hh := by
    rw [bind_assoc]
    exact hp.firm_bind (fun a => (hf a).firm_bind hg hh)
      fun a => hungry_bind_of_keeps (hf a).keeps hh

/-- A reader is loose if it leaves spaces at the end alone, except after inputs of which it leaves
nothing, with or without the spaces. -/
theorem loose_of_leaves_nothing (whole : List Char → Prop) (hk : Keeps p) (ht : Tentative p)
    (hfirm : ∀ ⦃s pad⦄, Spaces pad → ¬ whole s →
      ∀ a t, p (s ++ pad) = .ok a t ↔ ∃ r, t = r ++ pad ∧ p s = .ok a r)
    (hall : ∀ ⦃s⦄, whole s → ∀ a t, p s = .ok a t → t = [])
    (hpadded : ∀ ⦃s pad⦄, Spaces pad → whole s → whole (s ++ pad)) : Loose p where
  keeps := hk
  tentative := ht
  firm_bind {γ f} hf hh := by
    intro s pad hpad b t
    simp only [bind_eq_ok]
    by_cases hs : whole s
    · have hnone : ∀ {u}, whole u → ∀ t, ¬ ∃ a r, p u = .ok a r ∧ f a r = .ok b t := by
        rintro u hu t ⟨a, r, ha, hb⟩
        obtain rfl := hall hu a r ha
        exact hh a b t hb
      constructor
      · intro h
        exact absurd h (hnone (hpadded hpad hs) t)
      · rintro ⟨r, -, h⟩
        exact absurd h (hnone hs r)
    · constructor
      · rintro ⟨a, u, ha, hb⟩
        obtain ⟨r, rfl, ha'⟩ := (hfirm hpad hs a u).mp ha
        obtain ⟨r', rfl, hb'⟩ := (hf a hpad b t).mp hb
        exact ⟨r', rfl, a, r, ha', hb'⟩
      · rintro ⟨r', rfl, a, r, ha, hb⟩
        exact ⟨a, r ++ pad, (hfirm hpad hs a _).mpr ⟨r, rfl, ha⟩, (hf a hpad b _).mpr ⟨r', rfl, hb⟩⟩

/-- A run that passes over spaces is loose: either it stops before the spaces at the end, or it
takes them all. -/
theorem loose_takeWhile {test : Char → Bool} (h : ∀ c, isSpace c = true → test c = true) :
    Loose (takeWhile test) := by
  refine loose_of_leaves_nothing (fun s => ∀ c ∈ s, test c = true) (keeps_takeWhile _)
    (tentative_takeWhile _) ?_ ?_ ?_
  · intro s pad _ hs cs t
    rw [takeWhile_apply, takeWhile_apply, takeWhile_append_of_not_all hs,
      dropWhile_append_of_not_all hs]
    exact reply_append_eq_ok
  · intro s hs cs t ht
    cases ht
    exact List.dropWhile_eq_nil_iff.mpr hs
  · intro s pad hpad hs c hc
    rcases List.mem_append.mp hc with hc | hc
    · exact hs c hc
    · exact h c (hpad c hc)

theorem Loose.satisfying (hp : Loose p) (test : α → Bool) : Loose (p.satisfying test) where
  keeps := fun _ _ _ h => hp.keeps (satisfying_eq_ok.mp h).1
  tentative := hp.tentative.satisfying test
  firm_bind {γ f} hf hh := by
    -- Testing the value is the same as failing after it.
    have hsame : ∀ s (b : γ) t, (p.satisfying test >>= f) s = .ok b t ↔
        (p >>= fun a => if test a then f a else reject) s = .ok b t := by
      intro s b t
      simp only [bind_eq_ok, satisfying_eq_ok]
      constructor
      · rintro ⟨a, u, ⟨ha, htest⟩, hb⟩
        exact ⟨a, u, ha, by simpa [htest] using hb⟩
      · rintro ⟨a, u, ha, hb⟩
        by_cases htest : test a = true
        · exact ⟨a, u, ⟨ha, htest⟩, by simpa [htest] using hb⟩
        · simp [htest, reject] at hb
    have hfirm : Firm (p >>= fun a => if test a then f a else reject) := by
      refine hp.firm_bind (fun a => ?_) fun a => ?_
      · by_cases htest : test a = true
        · simpa [htest] using hf a
        · intro s pad _ b t
          simp [htest, reject]
      · by_cases htest : test a = true
        · simpa [htest] using hh a
        · intro b r hb
          simp [htest, reject] at hb
    intro s pad hpad b t
    simp only [hsame]
    exact hfirm hpad b t

/-- One of two loose readers is loose if only one of them can be read. -/
theorem Loose.orElse (hp : Loose p) (hq : Loose q)
    (hpq : ∀ ⦃s a r⦄, q s = .ok a r → Fails p s) : Loose (p <|> q) where
  keeps := hp.keeps.orElse hq.keeps
  tentative := hp.tentative.orElse hq.tentative
  firm_bind {γ f} hf hh := by
    have hsame : ∀ s (b : γ) t, ((p <|> q) >>= f) s = .ok b t ↔
        (p >>= f) s = .ok b t ∨ (q >>= f) s = .ok b t := by
      intro s b t
      simp only [bind_eq_ok, orElse_eq_ok_iff_fails]
      constructor
      · rintro ⟨a, u, h | ⟨-, h⟩, hb⟩
        · exact .inl ⟨a, u, h, hb⟩
        · exact .inr ⟨a, u, h, hb⟩
      · rintro (⟨a, u, h, hb⟩ | ⟨a, u, h, hb⟩)
        · exact ⟨a, u, .inl h, hb⟩
        · exact ⟨a, u, .inr ⟨hpq h, h⟩, hb⟩
    intro s pad hpad b t
    simp only [hsame, hp.firm_bind hf hh hpad b t, hq.firm_bind hf hh hpad b t]
    constructor
    · rintro (⟨r, rfl, h⟩ | ⟨r, rfl, h⟩)
      · exact ⟨r, rfl, .inl h⟩
      · exact ⟨r, rfl, .inr h⟩
    · rintro ⟨r, rfl, h | h⟩
      · exact .inl ⟨r, rfl, h⟩
      · exact .inr ⟨r, rfl, h⟩

theorem loose_spaces : Loose spaces :=
  (loose_takeWhile fun _ h => h).bind fun _ => (steady_pure _).loose

theorem loose_spaces1 : Loose spaces1 := by
  unfold spaces1
  rw [takeWhile1_eq]
  exact ((loose_takeWhile fun _ h => h).satisfying _).bind fun _ => (steady_pure _).loose

/-- Looking ahead for a space is loose: something else must follow. -/
theorem loose_peek_spaces1 : Loose spaces1.peek where
  keeps := by
    intro s u r h
    obtain ⟨rfl, -⟩ := peek_eq_ok.mp h
    exact List.suffix_rfl
  tentative := loose_spaces1.tentative.peek
  firm_bind {γ f} hf hh := by
    intro s pad hpad b t
    have key : ∀ {u : List Char} {t}, (spaces1.peek >>= f) u = .ok b t ↔
        (∃ c ∈ u.head?, isSpace c = true) ∧ f () u = .ok b t := by
      intro u t
      simp only [bind_eq_ok, peek_eq_ok, spaces1_eq_ok]
      cases u with
      | nil => simp
      | cons c u =>
        by_cases hc : isSpace c = true
        · have hunit : (∃ v, f v (c :: u) = .ok b t) ↔ f () (c :: u) = .ok b t :=
            ⟨fun ⟨_, h⟩ => h, fun h => ⟨(), h⟩⟩
          simpa [hc] using hunit
        · simp [hc]
    rw [key, hf () hpad b t]
    cases s with
    | nil =>
      have hnone : ∀ {r}, f () [] ≠ .ok b r := hh () b _
      simp [hnone, key]
    | cons c s =>
      constructor
      · rintro ⟨hc, r, rfl, h⟩
        exact ⟨r, rfl, key.mpr ⟨hc, h⟩⟩
      · rintro ⟨r, rfl, h⟩
        obtain ⟨hc, h⟩ := key.mp h
        exact ⟨hc, r, rfl, h⟩

/-! ## Readers that may take all of a line -/

/-- On this input spaces at the end make no difference to `p`. -/
def FirmAt (p : Reader Char α) (s : List Char) : Prop :=
  ∀ ⦃pad⦄, Spaces pad → ∀ a t, p (s ++ pad) = .ok a t ↔ ∃ r, t = r ++ pad ∧ p s = .ok a r

/-- On this input `p` takes everything, and spaces at the end too. -/
def TakesAll (p : Reader Char α) (s : List Char) : Prop :=
  ∀ ⦃pad⦄, Spaces pad → ∃ a, p (s ++ pad) = .ok a []

/-- A reader that stops before the spaces at the end or takes everything. -/
def Greedy (p : Reader Char α) : Prop := ∀ s, FirmAt p s ∨ TakesAll p s

theorem firmAt_of_not_ok {s : List Char}
    (h : ∀ ⦃pad⦄, Spaces pad → ∀ a t, p (s ++ pad) ≠ .ok a t) : FirmAt p s := by
  intro pad hpad a t
  have hs : ∀ r, p s ≠ .ok a r := by simpa using h spaces_nil a
  simp [h hpad a t, hs]

theorem Steady.bind_greedy (hp : Steady p) (hf : ∀ a, Greedy (f a)) : Greedy (p >>= f) := by
  intro s
  cases hs : p s with
  | fail e =>
    refine .inl (firmAt_of_not_ok fun pad hpad b t h => ?_)
    obtain ⟨a, u, ha, -⟩ := bind_eq_ok.mp h
    obtain ⟨r, -, ha⟩ := (hp.firm hpad a u).mp ha
    rw [hs] at ha
    cases ha
  | ok a r =>
    have hsame : ∀ {pad}, Spaces pad → (p >>= f) (s ++ pad) = f a (r ++ pad) := by
      intro pad hpad
      show Reader.bind p f (s ++ pad) = _
      unfold Reader.bind
      rw [(hp.firm hpad a _).mpr ⟨r, rfl, hs⟩]
    have hsame' : (p >>= f) s = f a r := by simpa using hsame spaces_nil
    rcases hf a r with h | h
    · left
      intro pad hpad b t
      rw [hsame hpad, hsame']
      exact h hpad b t
    · right
      intro pad hpad
      rw [hsame hpad]
      exact h hpad

theorem greedy_spaces_bind (hp : Greedy p) (hh : Hungry p) : Greedy (spaces >>= fun _ => p) := by
  intro s
  have hsame : ∀ u, (spaces >>= fun _ => p) u = p (u.dropWhile isSpace) := fun _ => rfl
  by_cases hs : Spaces s
  · refine .inl (firmAt_of_not_ok fun pad hpad a t => ?_)
    rw [hsame, spaces_iff_dropWhile.mp (spaces_append.mpr ⟨hs, hpad⟩)]
    exact hh a t
  · rcases hp (s.dropWhile isSpace) with h | h
    · left
      intro pad hpad a t
      rw [hsame, hsame, dropWhile_append_of_not_all hs]
      exact h hpad a t
    · right
      intro pad hpad
      rw [hsame, dropWhile_append_of_not_all hs]
      exact h hpad

/-- A run that passes over spaces, after spaces that are left out of it. -/
theorem greedy_spaces_takeWhile1 {test : Char → Bool} (h : ∀ c, isSpace c = true → test c = true)
    (g : List Char → α) :
    Greedy (spaces >>= fun _ => takeWhile1 test >>= fun cs => (pure (g cs) : Reader Char α)) := by
  intro s
  have hsame : ∀ u, (spaces >>= fun _ => takeWhile1 test >>= fun cs =>
      (pure (g cs) : Reader Char α)) u =
        (takeWhile1 test >>= fun cs => (pure (g cs) : Reader Char α)) (u.dropWhile isSpace) :=
    fun _ => rfl
  have hnil : ∀ a t, (takeWhile1 test >>= fun cs => (pure (g cs) : Reader Char α)) [] ≠ .ok a t :=
    hungry_bind (hungry_takeWhile1 test)
  by_cases hs : Spaces s
  · refine .inl (firmAt_of_not_ok fun pad hpad a t => ?_)
    rw [hsame, spaces_iff_dropWhile.mp (spaces_append.mpr ⟨hs, hpad⟩)]
    exact hnil a t
  · have hdrop : s.dropWhile isSpace ≠ [] := mt spaces_iff_dropWhile.mpr hs
    have key : ∀ u a t, (takeWhile1 test >>= fun cs => (pure (g cs) : Reader Char α)) u = .ok a t ↔
        u.takeWhile test ≠ [] ∧ a = g (u.takeWhile test) ∧ t = u.dropWhile test := by
      intro u a t
      simp only [bind_eq_ok, takeWhile1_eq_ok, pure_apply, Reply.ok.injEq]
      constructor
      · rintro ⟨_, _, ⟨hne, rfl, rfl⟩, rfl, rfl⟩
        exact ⟨hne, rfl, rfl⟩
      · rintro ⟨hne, rfl, rfl⟩
        exact ⟨_, _, ⟨hne, rfl, rfl⟩, rfl, rfl⟩
    by_cases hall : ∀ c ∈ s.dropWhile isSpace, test c = true
    · right
      intro pad hpad
      have hall' : ∀ c ∈ s.dropWhile isSpace ++ pad, test c = true := by
        intro c hc
        rcases List.mem_append.mp hc with hc | hc
        · exact hall c hc
        · exact h c (hpad c hc)
      rw [hsame, dropWhile_append_of_not_all hs]
      refine ⟨_, (key _ _ _).mpr ⟨?_, rfl, (List.dropWhile_eq_nil_iff.mpr hall').symm⟩⟩
      rw [List.takeWhile_eq_self_iff.mpr hall']
      simp [hdrop]
    · left
      intro pad hpad a t
      rw [hsame, hsame, dropWhile_append_of_not_all hs, key, takeWhile_append_of_not_all hall,
        dropWhile_append_of_not_all hall]
      simp only [key]
      constructor
      · rintro ⟨hne, rfl, rfl⟩
        exact ⟨_, rfl, hne, rfl, rfl⟩
      · rintro ⟨_, rfl, hne, rfl, rfl⟩
        exact ⟨hne, rfl, rfl⟩

/-! A repetition, by what its first round does. -/

theorem many_eq_ok_of_ok (hc : Consumes p) {s r t : List Char} {a : α} {as : List α}
    (h : p s = .ok a r) :
    many p s = .ok as t ↔ ∃ bs, as = a :: bs ∧ many p r = .ok bs t := by
  rw [many_eq_ok hc]
  constructor
  · rintro (⟨-, -, hf⟩ | ⟨b, bs, w, rfl, hb, hm⟩)
    · exact absurd h hf.not_ok
    · rw [h] at hb
      cases hb
      exact ⟨bs, rfl, hm⟩
  · rintro ⟨bs, rfl, hm⟩
    exact .inr ⟨a, bs, r, rfl, h, hm⟩

theorem takesAll_many {s : List Char} (h : TakesAll p s) (ht : Tentative p) (hc : Consumes p) :
    TakesAll (many p) s := by
  have hend : Fails p [] := by
    refine ht.fails_iff.mpr fun b r hb => ?_
    simpa using (hc hb).2
  intro pad hpad
  obtain ⟨a, ha⟩ := h hpad
  exact ⟨[a], (many_eq_ok_of_ok hc ha).mpr ⟨[], rfl, (many_eq_ok hc).mpr (.inl ⟨rfl, rfl, hend⟩)⟩⟩

theorem firmAt_many_of_fail {s : List Char} {e : Failure Char} (h : FirmAt p s) (ht : Tentative p)
    (hs : p s = .fail e) : FirmAt (many p) s := by
  have hfails : ∀ {pad}, Spaces pad → Reader.many p (s ++ pad) = .ok [] (s ++ pad) := by
    intro pad hpad
    cases hpad' : p (s ++ pad) with
    | fail e' => exact many_of_fail hpad' (ht hpad')
    | ok a t =>
      obtain ⟨r, -, ha⟩ := (h hpad a t).mp hpad'
      rw [hs] at ha
      cases ha
  intro pad hpad as t
  rw [hfails hpad, many_of_fail hs (ht hs)]
  exact reply_append_eq_ok

theorem firmAt_many_of_ok {s r : List Char} {a : α} (h : FirmAt p s) (hc : Consumes p)
    (hs : p s = .ok a r) (hr : FirmAt (many p) r) : FirmAt (many p) s := by
  intro pad hpad as t
  have hround : p (s ++ pad) = .ok a (r ++ pad) := (h hpad a _).mpr ⟨r, rfl, hs⟩
  simp only [many_eq_ok_of_ok hc hround, many_eq_ok_of_ok hc hs, hr hpad]
  constructor
  · rintro ⟨bs, rfl, u, rfl, hm⟩
    exact ⟨u, rfl, bs, rfl, hm⟩
  · rintro ⟨u, rfl, bs, rfl, hm⟩
    exact ⟨bs, rfl, u, rfl, hm⟩

theorem takesAll_many_of_ok {s r : List Char} {a : α} (h : FirmAt p s) (hc : Consumes p)
    (hs : p s = .ok a r) (hr : TakesAll (many p) r) : TakesAll (many p) s := by
  intro pad hpad
  obtain ⟨bs, hbs⟩ := hr hpad
  exact ⟨a :: bs, (many_eq_ok_of_ok hc ((h hpad a _).mpr ⟨r, rfl, hs⟩)).mpr ⟨bs, rfl, hbs⟩⟩

theorem Greedy.many (hp : Greedy p) (ht : Tentative p) (hc : Consumes p) : Greedy (many p) := by
  intro s
  induction hn : s.length using Nat.strongRecOn generalizing s with
  | ind n ih =>
    rcases hp s with hs | hs
    · cases h : p s with
      | fail e => exact .inl (firmAt_many_of_fail hs ht h)
      | ok a r =>
        rcases ih _ (hn ▸ (hc h).2) r rfl with hr | hr
        · exact .inl (firmAt_many_of_ok hs hc h hr)
        · exact .inr (takesAll_many_of_ok hs hc h hr)
    · exact .inr (takesAll_many hs ht hc)

theorem Greedy.loose (hp : Greedy p) (hk : Keeps p) (ht : Tentative p) : Loose p := by
  refine loose_of_leaves_nothing (TakesAll p) hk ht ?_ ?_ ?_
  · intro s pad hpad hs a t
    exact ((hp s).resolve_right hs) hpad a t
  · intro s hs a t h
    obtain ⟨b, hb⟩ := hs spaces_nil
    rw [List.append_nil, h] at hb
    cases hb
    rfl
  · intro s pad hpad hs pad' hpad'
    rw [List.append_assoc]
    exact hs (spaces_append.mpr ⟨hpad, hpad'⟩)

end Reader

end Interview
