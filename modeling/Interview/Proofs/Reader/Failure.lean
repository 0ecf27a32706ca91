import Interview.Proofs.Reader.Progress

/-!
# Where readers fail and what they say

When a combined reader fails, and with what failure. A failure of a reader that `Tracks` stands at
an end of the text that was to be read, and each of its hints is one that may be given. This is
known of a combined reader from its parts.

* `bind_eq_fail`, `orElse_eq_fail` and so on: one lemma for each combinator.
* `Tracks`: places are ends of the text, and hints pass a test.
* `Tracks.bind`, `Tracks.orElse` and so on: one lemma for each combinator.
* `Tracks.line`: a reader of characters, as a reader of lines.
-/

namespace Interview

namespace Reader

variable {τ α β ι : Type} {p q : Reader τ α} {f : α → Reader τ β} {s r : List τ} {e : Failure τ}

/-! ## How a combined reader fails -/

theorem bind_eq_fail : (p >>= f) s = .fail e ↔
    p s = .fail e ∨ ∃ a t, p s = .ok a t ∧ f a t = .fail e := by
  show Reader.bind p f s = .fail e ↔ _
  unfold Reader.bind
  cases p s <;> simp [and_assoc]

theorem orElse_eq_fail : (p <|> q) s = .fail e ↔
    p s = .fail e ∧ e.isFinal = true ∨ Fails p s ∧ q s = .fail e := by
  show Reader.orElse p (fun _ => q) s = .fail e ↔ _
  unfold Reader.orElse Fails
  cases p s with
  | ok a t => simp
  | fail e' =>
    dsimp only
    cases hroom : e'.isFinal with
    | false =>
      rw [if_neg Bool.false_ne_true]
      refine ⟨fun h => .inr ⟨⟨e', rfl, hroom⟩, h⟩, ?_⟩
      rintro (⟨h, hfinal⟩ | ⟨-, h⟩)
      · cases h
        simp [hroom] at hfinal
      · exact h
    | true =>
      rw [if_pos rfl]
      refine ⟨fun h => .inl ⟨h, by cases h; exact hroom⟩, ?_⟩
      rintro (⟨h, -⟩ | ⟨⟨_, h, hfalse⟩, -⟩)
      · exact h
      · cases h
        simp [hroom] at hfalse

theorem maybe_eq_fail : p.maybe s = .fail e ↔ p s = .fail e ∧ e.isFinal = true := by
  unfold maybe
  cases p s with
  | ok a t => simp
  | fail e' =>
    dsimp only
    cases hroom : e'.isFinal with
    | false =>
      rw [if_neg Bool.false_ne_true]
      refine ⟨nofun, fun ⟨h, hfinal⟩ => ?_⟩
      cases h
      simp [hroom] at hfinal
    | true =>
      rw [if_pos rfl]
      refine ⟨fun h => ?_, fun ⟨h, _⟩ => ?_⟩ <;> cases h
      · exact ⟨rfl, hroom⟩
      · rfl

theorem commit_eq_fail : p.commit s = .fail e ↔
    ∃ e', p s = .fail e' ∧ e = { e' with isFinal := true } := by
  unfold commit
  cases p s <;> simp [eq_comm]

theorem hinting_eq_fail {h : Hint} : p.hinting h s = .fail e ↔
    ∃ e', p s = .fail e' ∧ e = { e' with hints := e'.hints ++ [h] } := by
  unfold hinting
  cases p s <;> simp [eq_comm]

theorem expecting_eq_fail {d : String} : p.expecting d s = .fail e ↔
    ∃ e', p s = .fail e' ∧ e = { e' with hints := e'.hints ++ [.expected d] } := hinting_eq_fail

/-! ## Readers that keep track -/

/-- What is left, or where reading failed, is an end of the text of `s`, and all that a failure says
passes `Q`. -/
def Tracked (text : List τ → List Char) (Q : Hint → Prop) (s : List τ) : Reply τ α → Prop
  | .ok _ r => text r <:+ text s
  | .fail e => text e.place <:+ text s ∧ ∀ h ∈ e.hints, Q h

/-- Whatever `p` reads, it keeps track of the text and says only what passes `Q`. -/
def Tracks (text : List τ → List Char) (Q : Hint → Prop) (p : Reader τ α) : Prop :=
  ∀ s, Tracked text Q s (p s)

variable {text : List τ → List Char} {Q : Hint → Prop}

theorem Tracked.of_suffix {x : Reply τ α} (hr : text r <:+ text s) (h : Tracked text Q r x) :
    Tracked text Q s x := by
  cases x with
  | ok a t => exact h.trans hr
  | fail e => exact ⟨h.1.trans hr, h.2⟩

theorem tracked_bare (room : Bool) : Tracked text Q s (.fail ⟨s, room, []⟩ : Reply τ α) :=
  ⟨List.suffix_rfl, nofun⟩

theorem tracks_pure (a : α) : Tracks text Q (pure a) := fun _ => List.suffix_rfl

theorem tracks_reject : Tracks text Q (reject : Reader τ α) := fun _ => tracked_bare false

theorem tracks_finished : Tracks text Q finished
  | [] => List.suffix_rfl
  | _ :: _ => tracked_bare false

theorem Tracks.bind (hp : Tracks text Q p) (hf : ∀ a, Tracks text Q (f a)) :
    Tracks text Q (p >>= f) := by
  intro s
  show Tracked text Q s (Reader.bind p f s)
  have h := hp s
  unfold Reader.bind
  cases hs : p s with
  | ok a r =>
    rw [hs] at h
    exact .of_suffix h (hf a r)
  | fail e => rwa [hs] at h

theorem Tracks.map (hp : Tracks text Q p) (h : α → β) : Tracks text Q (h <$> p) :=
  hp.bind fun a => tracks_pure (h a)

theorem Tracks.orElse (hp : Tracks text Q p) (hq : Tracks text Q q) : Tracks text Q (p <|> q) := by
  intro s
  show Tracked text Q s (Reader.orElse p (fun _ => q) s)
  have h := hp s
  unfold Reader.orElse
  cases hs : p s with
  | ok a r => rwa [hs] at h
  | fail e =>
    rw [hs] at h
    dsimp only
    split
    · exact h
    · exact hq s

theorem Tracks.maybe (hp : Tracks text Q p) : Tracks text Q p.maybe := by
  intro s
  have h := hp s
  unfold Reader.maybe
  cases hs : p s with
  | ok a r => rwa [hs] at h
  | fail e =>
    rw [hs] at h
    dsimp only
    split
    · exact h
    · exact List.suffix_rfl

theorem Tracks.peek (hp : Tracks text Q p) : Tracks text Q p.peek := by
  intro s
  have h := hp s
  unfold Reader.peek
  cases hs : p s with
  | ok a r => exact List.suffix_rfl
  | fail e =>
    rw [hs] at h
    exact ⟨List.suffix_rfl, h.2⟩

theorem Tracks.absent (hp : Tracks text Q p) : Tracks text Q p.absent := by
  intro s
  have h := hp s
  unfold Reader.absent
  cases hs : p s with
  | ok a r => exact tracked_bare false
  | fail e =>
    rw [hs] at h
    dsimp only
    split
    · exact ⟨List.suffix_rfl, h.2⟩
    · exact List.suffix_rfl

theorem Tracks.satisfying (hp : Tracks text Q p) (test : α → Bool) :
    Tracks text Q (p.satisfying test) := by
  intro s
  have h := hp s
  unfold Reader.satisfying
  cases hs : p s with
  | ok a r =>
    rw [hs] at h
    dsimp only
    split
    · exact h
    · exact tracked_bare false
  | fail e => rwa [hs] at h

theorem Tracks.commit (hp : Tracks text Q p) : Tracks text Q p.commit := by
  intro s
  have h := hp s
  unfold Reader.commit
  cases hs : p s <;> rwa [hs] at h

theorem Tracks.hinting (hp : Tracks text Q p) {hint : Hint} (hQ : Q hint) :
    Tracks text Q (p.hinting hint) := by
  intro s
  have h := hp s
  unfold Reader.hinting
  cases hs : p s with
  | ok a r => rwa [hs] at h
  | fail e =>
    rw [hs] at h
    exact ⟨h.1, List.forall_mem_append.mpr ⟨h.2, List.forall_mem_singleton.mpr hQ⟩⟩

theorem Tracks.expecting (hp : Tracks text Q p) {d : String} (hQ : Q (.expected d)) :
    Tracks text Q (p.expecting d) := hp.hinting hQ

theorem Tracks.within (hp : Tracks text Q p) {c : String} (hQ : Q (.invalid c)) :
    Tracks text Q (p.within c) := hp.hinting hQ

/-! ## Repetition and recursion -/

theorem Tracks.many (hp : Tracks text Q p) : Tracks text Q (many p) := by
  intro s
  induction hn : s.length using Nat.strongRecOn generalizing s with
  | ind n ih =>
    have h := hp s
    rw [many_eq]
    cases hs : p s with
    | ok a r =>
      rw [hs] at h
      dsimp only
      split
      · rename_i hlt
        have hrest := ih _ (hn ▸ hlt) r rfl
        cases hr : Reader.many p r <;> rw [hr] at hrest
        · exact hrest.trans h
        · exact ⟨hrest.1.trans h, hrest.2⟩
      · exact List.suffix_rfl
    | fail e =>
      rw [hs] at h
      dsimp only
      split
      · exact h
      · exact List.suffix_rfl

theorem Tracks.many1 (hp : Tracks text Q p) : Tracks text Q (many1 p) :=
  hp.bind fun _ => hp.many.bind fun _ => tracks_pure _

theorem Tracks.separated1 {separator : Reader τ β} (hp : Tracks text Q p)
    (hseparator : Tracks text Q separator) : Tracks text Q (separated1 p separator) :=
  hp.bind fun _ => (hseparator.bind fun _ => hp).many.bind fun _ => tracks_pure _

theorem Tracks.separated {separator : Reader τ β} (hp : Tracks text Q p)
    (hseparator : Tracks text Q separator) : Tracks text Q (separated p separator) :=
  (hp.separated1 hseparator).maybe.bind fun _ => tracks_pure _

theorem Tracks.manyUntil {stop : Reader τ β} (hp : Tracks text Q p) (hstop : Tracks text Q stop) :
    Tracks text Q (manyUntil p stop) := by
  intro s
  induction hn : s.length using Nat.strongRecOn generalizing s with
  | ind n ih =>
    have h := hp s
    have hstops := hstop s
    rw [manyUntil_eq]
    cases hs : stop s with
    | ok a r => rwa [hs] at hstops
    | fail e =>
      rw [hs] at hstops
      dsimp only
      split
      · exact hstops
      · cases hr : p s with
        | ok a r =>
          rw [hr] at h
          dsimp only
          split
          · rename_i hlt
            have hrest := ih _ (hn ▸ hlt) r rfl
            cases ht : Reader.manyUntil p stop r <;> rw [ht] at hrest
            · exact hrest.trans h
            · exact ⟨hrest.1.trans h, hrest.2⟩
          · exact tracked_bare false
        | fail e' => rwa [hr] at h

theorem Tracks.fix {step : (ι → Reader τ α) → ι → Reader τ α}
    (h : ∀ rec, (∀ j, Tracks text Q (rec j)) → ∀ i, Tracks text Q (step rec i)) (i : ι) :
    Tracks text Q (fix step i) := by
  intro s
  induction hn : s.length using Nat.strongRecOn generalizing s i with
  | ind n ih =>
    rw [fix_eq]
    refine h _ (fun j t => ?_) i s
    unfold below
    split
    · rename_i hlt
      exact ih _ (hn ▸ hlt) j t rfl
    · exact tracked_bare false

/-! ## Characters -/

section Characters

variable {s : List Char} {Q : Hint → Prop}

theorem tracks_character (test : Char → Bool) : Tracks id Q (character test)
  | [] => tracked_bare false
  | c :: r => by
    simp only [character]
    split
    · exact List.suffix_cons c r
    · exact tracked_bare false

theorem tracks_takeWhile (test : Char → Bool) : Tracks id Q (takeWhile test) :=
  fun _ => List.dropWhile_suffix test

theorem tracks_takeWhile1 (test : Char → Bool) : Tracks id Q (takeWhile1 test) := by
  intro s
  unfold takeWhile1
  split
  · exact tracked_bare false
  · exact List.dropWhile_suffix test

theorem tracks_word (w : String) : Tracks id Q (word w) := by
  intro s
  unfold word
  split
  · exact List.drop_suffix _ s
  · exact tracked_bare false

theorem tracks_spaces : Tracks id Q spaces := (tracks_takeWhile _).bind fun _ => tracks_pure _

theorem tracks_spaces1 : Tracks id Q spaces1 := (tracks_takeWhile1 _).bind fun _ => tracks_pure _

/-- The rest of a line is not read past a carriage return, and reading fails before it. -/
theorem tracks_restOfLine : Tracks id Q restOfLine := by
  intro s
  unfold restOfLine
  split
  · exact List.nil_suffix
  · exact ⟨List.dropWhile_suffix _, nofun⟩

end Characters

/-! ## Lines -/

section Lines

variable {p : Reader Char α} {Q : Hint → Prop} {l : Line} {ls : List Line} {t : List Char}

theorem join_suffix {ks : List Line} (h : ks <:+ ls) : Line.join ks <:+ Line.join ls := by
  obtain ⟨us, rfl⟩ := h
  rw [Line.join_append]
  exact List.suffix_append _ _

/-- A place in a line, as a place in the text. -/
theorem join_suffix_of_text (h : t <:+ l.text) :
    Line.join ({ l with text := t } :: ls) <:+ Line.join (l :: ls) := by
  obtain ⟨u, hu⟩ := h
  refine ⟨u, ?_⟩
  rw [Line.join_cons, Line.join_cons, Line.chars, Line.chars, ← hu]
  simp only [List.append_assoc]

theorem Tracks.lineBreaking (hp : Tracks id Q p) : Tracks Line.join Q (lineBreaking p) := by
  intro ls
  cases ls with
  | nil =>
    have h := hp []
    simp only [Reader.lineBreaking]
    cases hs : p [] with
    | ok a r => exact List.suffix_rfl
    | fail e =>
      rw [hs] at h
      exact ⟨List.suffix_rfl, h.2⟩
  | cons l ls =>
    have h := hp l.text
    simp only [Reader.lineBreaking]
    cases hs : p l.text with
    | ok a r =>
      rw [hs] at h
      cases r with
      | nil => exact join_suffix (List.suffix_cons l ls)
      | cons c r => exact ⟨join_suffix_of_text h, List.forall_mem_nil Q⟩
    | fail e =>
      rw [hs] at h
      exact ⟨join_suffix_of_text h.1, h.2⟩

theorem Tracks.line (hp : Tracks id Q p) : Tracks Line.join Q (line p) :=
  hp.lineBreaking.bind fun _ => tracks_pure _

theorem Tracks.brokenLine (hp : Tracks id Q p) : Tracks Line.join Q (brokenLine p) := by
  refine hp.lineBreaking.bind fun (a, ending) => ?_
  dsimp only
  split
  · exact tracks_reject
  · exact tracks_pure a

theorem Tracks.ahead (hp : Tracks id Q p) : Tracks Line.join Q (ahead p) := by
  intro ls
  have h := hp (nextText ls)
  unfold Reader.ahead
  cases hs : p (nextText ls) with
  | ok a r => exact List.suffix_rfl
  | fail e =>
    rw [hs] at h
    exact ⟨List.suffix_rfl, h.2⟩

theorem tracks_atVacantLine : Tracks Line.join Q atVacantLine
  | [] => List.suffix_rfl
  | l :: ls => by
    simp only [atVacantLine]
    split
    · exact List.suffix_rfl
    · exact tracked_bare false

end Lines

end Reader

end Interview
