import Interview.Proofs.Clause.Single

/-!
# Spellings of conditions

`Clause.Spells w c` says, without any reader, that the text `w` is a spelling of the condition `c`:
one condition, or several with the word `and` between them. The reader of conditions takes exactly
these texts.

* `Clause.clause_of_spells`: a spelling is read as its condition before a target, before spaces
  at the end of the line and before the end of the line.
* `Clause.spells_of_clause`: what is read as a condition is a spelling of it.
* `Clause.spells_iff`: the two together, for a text that is all condition.
-/

namespace Interview

open Reader Text Word

namespace Clause

/-- The word `and` with spaces around it. -/
def Joint (g : List Char) : Prop := ∃ a b, Gap a ∧ Gap b ∧ g = a ++ ("and".toList ++ b)

/-- The spellings of a condition. -/
inductive Spells : List Char → Clause → Prop
  /-- A condition without `and`. -/
  | single {w : List Char} {c : Clause} : SpellsSingle w c → Spells w c
  /-- Two or more conditions joined by `and`. -/
  | conjunction {w : List Char} {c d : Clause} {cs : List Clause} :
      Listed SpellsSingle Joint w (c :: d :: cs) → Spells w (.conjunction (c :: d :: cs))

variable {s r t w : List Char} {c : Clause}

/-! ## Conditions joined by `and` -/

/-- The word `and` and the spaces around it. -/
def jointWord : Reader Char Unit := do
  spaces1
  word "and"
  spaces1

theorem another_eq : another = jointWord >>= fun _ => single := by
  unfold another jointWord
  simp only [bind_assoc]

theorem jointWord_iff {u : Unit} : jointWord s = .ok u r ↔
    ∃ g, Joint g ∧ s = g ++ r ∧ Stops isSpace r := by
  unfold jointWord
  simp only [bind_eq_ok, spaces1_iff, word_iff]
  constructor
  · rintro ⟨_, _, ⟨a, hane, ha, rfl, -⟩, _, _, rfl, b, hbne, hb, rfl, hstop⟩
    exact ⟨a ++ ("and".toList ++ b), ⟨a, b, ⟨hane, ha⟩, ⟨hbne, hb⟩, rfl⟩, by simp, hstop⟩
  · rintro ⟨_, ⟨a, b, ha, hb, rfl⟩, rfl, hstop⟩
    exact ⟨(), "and".toList ++ (b ++ r), ⟨a, ha.1, ha.2, by simp, stops_cons.mpr (by decide)⟩,
      (), _, rfl, b, hb.1, hb.2, rfl, hstop⟩

theorem clause_iff : clause s = .ok c r ↔ ∃ d ds, separated1 single jointWord s = .ok (d :: ds) r ∧
    c = if ds.isEmpty then d else .conjunction (d :: ds) := by
  unfold clause
  rw [another_eq]
  simp only [separated1_eq_ok, bind_eq_ok, pure_apply, Reply.ok.injEq]
  constructor
  · rintro ⟨d, t, hd, ds, u, hds, rfl, rfl⟩
    exact ⟨d, ds, ⟨d, ds, t, rfl, hd, hds⟩, rfl⟩
  · rintro ⟨d, ds, ⟨_, _, t, heq, hd, hds⟩, rfl⟩
    cases heq
    exact ⟨d, t, hd, ds, r, hds, rfl, rfl⟩

theorem SpellsSingle.ne_nil (h : SpellsSingle w c) : w ≠ [] := by
  cases h with
  | otherwise => decide
  | emptyCall hn _ => simp
  | call hn _ | membership hn _ _ _ _ | equality hn _ _ _ _ _ | order hn _ _ _ _ _ _ _ _
  | named hn _ => simp [hn.ne_nil]

theorem consumes_single : Consumes single := by
  intro s c r h
  obtain ⟨w, rfl, hw⟩ := spells_of_single h
  have := List.length_pos_iff.mpr hw.ne_nil
  exact ⟨List.suffix_append _ _, by rw [List.length_append]; omega⟩

theorem consumes_joint_single : Consumes (jointWord >>= fun _ => single) := by
  rw [← another_eq]
  exact loose_spaces1.keeps.bind_consumes fun _ =>
    (steady_word (by decide)).keeps.bind_consumes fun _ =>
      loose_spaces1.keeps.bind_consumes fun _ => consumes_single

theorem SpellsSingle.stops (h : SpellsSingle w c) : Stops isSpace (w ++ r) := by
  cases h with
  | otherwise => exact stops_cons.mpr (by decide)
  | emptyCall hn _ | call hn _ | membership hn _ _ _ _ | equality hn _ _ _ _ _
  | order hn _ _ _ _ _ _ _ _ =>
    rw [List.append_assoc]
    exact hn.stops
  | named hn _ => exact hn.stops

theorem Spells.stops {q : List Char} (h : Spells q c) : Stops isSpace (q ++ r) := by
  cases h with
  | single h => exact h.stops
  | conjunction h =>
    obtain ⟨v, t, d, rfl, hd⟩ := h.first
    rw [List.append_assoc]
    exact hd.stops

/-! What may follow a condition. -/

theorem apart_of_spaces (h : Spaces t) : Apart t where
  space c hc := h c (List.mem_of_mem_head? hc)
  not_in := by simp [spaces_iff_dropWhile.mp h]
  not_is := by simp [spaces_iff_dropWhile.mp h]
  symbol := by simp [spaces_iff_dropWhile.mp h]

/-- After a gap a text is apart if it starts with none of the words that go on with a condition. -/
theorem apart_of_gap {g u : List Char} (hg : Gap g) (hu : Stops isSpace u)
    (hin : ¬ "in".toList <+: u) (his : ¬ "is".toList <+: u)
    (hsymbol : u.takeWhile isOperatorChar = [] ∨ u.takeWhile isOperatorChar = ['=', '>']) :
    Apart (g ++ u) := by
  have hdrop : (g ++ u).dropWhile isSpace = u := dropWhile_spaces hg.2 hu
  refine ⟨fun c hc => ?_, by rwa [hdrop], by rwa [hdrop], by rwa [hdrop]⟩
  obtain ⟨d, hd, hspace⟩ := hg.exists_head? (r := u)
  rw [Option.mem_def.mp hd] at hc
  cases hc
  exact hspace

theorem apart_of_joint {g : List Char} (h : Joint g) : Apart (g ++ t) := by
  obtain ⟨a, b, ha, hb, rfl⟩ := h
  rw [List.append_assoc]
  exact apart_of_gap ha (by simp [isSpace]) (by simp) (by simp) (.inl (by simp [isOperatorChar]))

theorem apart_of_arrow {g : List Char} (hg : Gap g) (h : Stops isOperatorChar t) :
    Apart (g ++ ("=>".toList ++ t)) :=
  apart_of_gap hg (by simp [isSpace]) (by simp) (by simp)
    (.inr (run_iff.mpr ⟨rfl, List.all_eq_true.mp (by decide), h⟩).1.symm)

theorem jointWord_single_fails (h : ¬ "and".toList <+: t.dropWhile isSpace) :
    Fails (jointWord >>= fun _ => single) t := by
  refine bind_fails_of_fails ?_
  have htentative : Tentative jointWord := loose_spaces1.tentative.bind fun _ =>
    (steady_word (by decide)).tentative.bind fun _ => loose_spaces1.tentative
  refine htentative.fails_iff.mpr fun u r hu => ?_
  obtain ⟨_, ⟨a, b, ha, -, rfl⟩, rfl, -⟩ := jointWord_iff.mp hu
  rw [List.append_assoc, dropWhile_spaces ha.2 (by simp [Stops, isSpace]), List.append_assoc] at h
  exact h ⟨_, rfl⟩

/-- **Spellings are read.** A condition is read as it is spelled, if nothing follows that would
become part of it. -/
theorem clause_of_spells (h : Spells w c) (ht : Apart t)
    (hand : ¬ "and".toList <+: t.dropWhile isSpace) : clause (w ++ t) = .ok c t := by
  have hlist : ∀ {cs}, Listed SpellsSingle Joint w cs →
      separated1 single jointWord (w ++ t) = .ok cs t := fun hcs =>
    separated1_of_listed consumes_joint_single single_of_spells
      (fun hg hw => jointWord_iff.mpr ⟨_, hg, rfl, hw.stops⟩) (fun hg _ => apart_of_joint hg) hcs ht
      (jointWord_single_fails hand)
  cases h with
  | single hw => exact clause_iff.mpr ⟨_, _, hlist (.one hw), rfl⟩
  | conjunction hcs => exact clause_iff.mpr ⟨_, _, hlist hcs, rfl⟩

/-- **Only spellings are read.** What is read as a condition is a spelling of it. -/
theorem spells_of_clause (h : clause s = .ok c r) : ∃ w, s = w ++ r ∧ Spells w c := by
  obtain ⟨d, ds, hds, rfl⟩ := clause_iff.mp h
  have hgap : ∀ {s r}, jointWord s = .ok () r → ∃ g, s = g ++ r ∧ Joint g := by
    intro s r h
    obtain ⟨g, hg, rfl, -⟩ := jointWord_iff.mp h
    exact ⟨g, rfl, hg⟩
  obtain ⟨w, rfl, hw⟩ := listed_of_separated1 consumes_joint_single spells_of_single hgap hds
  refine ⟨w, rfl, ?_⟩
  cases ds with
  | nil =>
    cases hw with
    | one hw => exact .single hw
    | more _ _ hrest => exact absurd rfl hrest.ne_nil
  | cons e ds => exact .conjunction hw

/-- A text is a spelling of a condition if and only if all of it is read as that condition. -/
theorem spells_iff : Spells w c ↔ clause w = .ok c [] := by
  constructor
  · intro h
    simpa using clause_of_spells h (apart_of_spaces spaces_nil) (by simp)
  · intro h
    obtain ⟨w', hw, h⟩ := spells_of_clause h
    rw [List.append_nil] at hw
    exact hw ▸ h

end Clause

end Interview
