import Interview.Proofs.Comparison.Calendar

/-!
# Texts of one kind are in a total order

Texts are compared by the calendar, as numbers or by their characters. If two texts are of the same
kind, the kind alone decides which, whichever of them is stored and whichever is the bound. So a rank
in a linear order, one for each kind, decides every comparison of texts of that kind.

* `Kind.Has`: the texts of a kind.
* `Decimal.reader_fails`: what is written as a date is no number.
* `Kind.exists_rank`: the rank of a text in its kind.
* `Predicate.comparisons_total`: the comparisons of texts of one kind form a total order.
-/

namespace Interview

open Reader Text

/-! ## Comparisons in a linear order -/

namespace Comparison

/-- The comparison of two values in exchanged places. -/
def converse : Comparison → Comparison
  | less => greater
  | atMost => atLeast
  | greater => less
  | atLeast => atMost

theorem relates_converse {α : Type} [LinearOrder α] (c : Comparison) {a b : α} :
    c.converse.Relates b a ↔ c.Relates a b := by
  cases c <;> rfl

end Comparison

/-! ## Kinds of texts -/

/-- A kind of texts that are compared with each other in the same way. -/
inductive Kind where
  /-- Dates on the calendar. -/
  | date
  /-- Finite numbers. -/
  | number
  /-- Texts that are neither written as a date nor a finite number. -/
  | plain

/-- The text is of this kind. -/
def Kind.Has : Kind → String → Prop
  | date, t => ∃ d : Date, d.NamedBy t.toList ∧ d.OnCalendar
  | number, t => ∃ n, Number.ofText? t.toList = some n
  | plain, t => (∀ d : Date, ¬ d.NamedBy t.toList) ∧ Number.ofText? t.toList = none

namespace Decimal

/-- A number that starts with a digit has no sign. -/
theorem sign_of_isDigit {c : Char} {s : List Char} (h : c.isDigit = true) :
    sign (c :: s) = .ok false (c :: s) := by
  have hplus : c ≠ '+' := by
    rintro rfl
    exact absurd h (by decide)
  have hminus : c ≠ '-' := by
    rintro rfl
    exact absurd h (by decide)
  have hnone : (character fun c => c == '+' || c == '-').maybe (c :: s) = .ok none (c :: s) := by
    simp [maybe, character, hplus, hminus]
  exact bind_eq_ok.mpr ⟨none, _, hnone, rfl⟩

/-- A number does not go on with a hyphen after its first digits. -/
theorem reader_fails {s : List Char} {d : Date} (h : Date.Spells s d) : Fails reader s := by
  cases h with
  | @intro year month day hall hy _ _ =>
    have hyear : ∀ c ∈ year, c.isDigit = true := fun c hc => hall c (by simp [hc])
    have hne : year ≠ [] := List.length_pos_iff.mp (by omega)
    have hsign : sign (year ++ '-' :: (month ++ '-' :: day)) =
        .ok false (year ++ '-' :: (month ++ '-' :: day)) := by
      obtain ⟨c, cs, rfl⟩ := List.exists_cons_of_ne_nil hne
      exact sign_of_isDigit (hyear c List.mem_cons_self)
    have hwhole : takeWhile Char.isDigit (year ++ '-' :: (month ++ '-' :: day)) =
        .ok year ('-' :: (month ++ '-' :: day)) := by
      have hrun := run_iff.mpr ⟨rfl, hyear, Date.stops_hyphen (month ++ '-' :: day)⟩
      rw [takeWhile_apply, ← hrun.1, ← hrun.2]
    have hempty : ¬ (year ++ (none : Option (List Char)).getD []).isEmpty = true := by
      simp [hne]
    refine bind_fails.mpr (.inr ⟨false, _, hsign, bind_fails.mpr (.inr ⟨year, _, hwhole, ?_⟩)⟩)
    -- Neither a point nor the letter of a power stands where the hyphen is.
    refine bind_fails.mpr (.inr ⟨none, '-' :: (month ++ '-' :: day), rfl, ?_⟩)
    rw [if_neg hempty]
    refine bind_fails.mpr (.inr ⟨none, '-' :: (month ++ '-' :: day), rfl, ?_⟩)
    exact bind_fails_of_fails ⟨_, rfl, rfl⟩

end Decimal

/-- What is written as a date is no number. -/
theorem Number.ofText?_of_date {s : List Char} {d : Date} (h : d.NamedBy s) :
    Number.ofText? s = none := by
  obtain ⟨e, he, -⟩ := Decimal.reader_fails h
  rw [ofText?, he]

namespace Kind

/-- Where a text stands among the dates on the calendar, if it is one. -/
def dateRank (t : String) : ℕ ×ₗ ℕ ×ₗ ℕ :=
  ((Date.realOfText? t.toList).getD ⟨0, 0, 0⟩).triple

/-- Where a text stands among the numbers, if it is one. -/
def numberRank (t : String) : Int := (Number.ofText? t.toList).getD 0

theorem dateRank_of_date {t : String} {d : Date} (h : d.NamedBy t.toList) (hd : d.OnCalendar) :
    dateRank t = d.triple := by
  rw [dateRank, Date.realOfText?_eq_some.mpr ⟨h, hd⟩, Option.getD_some]

theorem numberRank_of_number {t : String} {n : Int} (h : Number.ofText? t.toList = some n) :
    numberRank t = n := by
  rw [numberRank, h, Option.getD_some]

/-- Texts of a kind have a rank that decides how they compare. -/
theorem exists_rank (k : Kind) : ∃ (α : Type) (_ : LinearOrder α) (rank : String → α),
    ∀ x a b, k.Has a → k.Has b → orderTexts x a b = .ok (compare (rank a) (rank b)) := by
  cases k with
  | date =>
    refine ⟨_, inferInstance, dateRank, ?_⟩
    rintro x a b ⟨date, ha, hdate⟩ ⟨limit, hb, hlimit⟩
    rw [orderTexts_of_dates hb hlimit ha hdate, dateRank_of_date ha hdate,
      dateRank_of_date hb hlimit]
  | number =>
    refine ⟨Int, inferInstance, numberRank, ?_⟩
    rintro x a b ⟨m, ha⟩ ⟨n, hb⟩
    have hdate : ∀ d : Date, ¬ d.NamedBy b.toList := by
      intro d hd
      rw [Number.ofText?_of_date hd] at hb
      cases hb
    rw [orderTexts_of_no_date hdate, numberRank_of_number ha, numberRank_of_number hb, ha, hb]
  | plain =>
    refine ⟨String, inferInstance, id, ?_⟩
    rintro x a b ⟨-, ha⟩ ⟨hdate, -⟩
    rw [orderTexts_of_no_date hdate, ha]
    rfl

end Kind

/-! ## The order -/

namespace Predicate

/-- The predicate holds in the state. -/
def Holds (p : Predicate) (r : Registry) (s : State) : Prop := (p.evaluate r s).result = .ok true

variable {k : Kind} {r r' : Registry} {s t : State} {x y a b d : String}

/-- A rank that decides how two texts compare decides every comparison of them. -/
theorem result_of_rank {α : Type} [LinearOrder α] {rank : String → α}
    (hrank : orderTexts x a b = .ok (compare (rank a) (rank b))) (hs : s.getText x = .ok a)
    (c : Comparison) :
    ((compares x c b).evaluate r s).result = .ok (decide (c.Relates (rank a) (rank b))) := by
  rw [result_compares hs, hrank, ← c.admits_compare]
  rfl

theorem holds_of_rank {α : Type} [LinearOrder α] {rank : String → α}
    (hrank : orderTexts x a b = .ok (compare (rank a) (rank b))) (hs : s.getText x = .ok a)
    (c : Comparison) : (compares x c b).Holds r s ↔ c.Relates (rank a) (rank b) := by
  rw [Holds, result_of_rank hrank hs, Except.ok.injEq, decide_eq_true_eq]

theorem eq_of_holds_equals (hs : s.getText x = .ok a) (h : (equals x b).Holds r s) : a = b := by
  rw [Holds, evaluate_equals, State.get_eq_ok.mpr (State.getText_eq_ok.mp hs)] at h
  simpa [Except.map] using h

/-- **Texts of one kind are in a total order.** Comparisons of two texts of one kind never fail.
Exactly one of less, greater and equal holds, where texts are equal if each is at most the other;
"at most" is the contrary of "greater" and "at least" that of "less". The stored text and the bound
may be exchanged together with the direction of the comparison. "At most" and "less" are transitive,
and a text that is the expected one is equal to it. -/
theorem comparisons_total (ha : k.Has a) (hb : k.Has b) (hd : k.Has d) (hs : s.getText x = .ok a)
    (ht : t.getText y = .ok b) (r r' : Registry) :
    (∀ c, ∃ holds, ((compares x c b).evaluate r s).result = .ok holds) ∧
      ((compares x .less b).Holds r s ∨ (compares x .greater b).Holds r s ∨
        ((compares x .atMost b).Holds r s ∧ (compares x .atLeast b).Holds r s)) ∧
      ¬ ((compares x .less b).Holds r s ∧ (compares x .greater b).Holds r s) ∧
      ¬ ((compares x .less b).Holds r s ∧
        (compares x .atMost b).Holds r s ∧ (compares x .atLeast b).Holds r s) ∧
      ¬ ((compares x .greater b).Holds r s ∧
        (compares x .atMost b).Holds r s ∧ (compares x .atLeast b).Holds r s) ∧
      ((compares x .atMost b).Holds r s ↔ ¬ (compares x .greater b).Holds r s) ∧
      ((compares x .atLeast b).Holds r s ↔ ¬ (compares x .less b).Holds r s) ∧
      (∀ c, ((compares y (Comparison.converse c) a).evaluate r' t).result =
        ((compares x c b).evaluate r s).result) ∧
      ((compares x .atMost b).Holds r s → (compares y .atMost d).Holds r' t →
        (compares x .atMost d).Holds r s) ∧
      ((compares x .less b).Holds r s → (compares y .less d).Holds r' t →
        (compares x .less d).Holds r s) ∧
      ((equals x b).Holds r s →
        (compares x .atMost b).Holds r s ∧ (compares x .atLeast b).Holds r s) := by
  obtain ⟨α, _, rank, hrank⟩ := k.exists_rank
  have hresult := fun c => result_of_rank (r := r) (hrank x a b ha hb) hs c
  have hconverse := fun c => result_of_rank (r := r') (hrank y b a hb ha) ht c
  have hab : ∀ c, (compares x c b).Holds r s ↔ c.Relates (rank a) (rank b) :=
    holds_of_rank (hrank x a b ha hb) hs
  have hbd : ∀ c, (compares y c d).Holds r' t ↔ c.Relates (rank b) (rank d) :=
    holds_of_rank (hrank y b d hb hd) ht
  have had : ∀ c, (compares x c d).Holds r s ↔ c.Relates (rank a) (rank d) :=
    holds_of_rank (hrank x a d ha hd) hs
  simp only [hab, hbd, had, Comparison.Relates]
  refine ⟨fun c => ⟨_, hresult c⟩, ?_, fun h => lt_asymm h.1 h.2, fun h => h.1.not_ge h.2.2,
    fun h => h.1.not_ge h.2.1, not_lt.symm, not_lt.symm, fun c => ?_, le_trans, lt_trans,
    fun h => ?_⟩
  · rcases lt_trichotomy (rank a) (rank b) with h | h | h
    · exact .inl h
    · exact .inr (.inr ⟨h.le, h.ge⟩)
    · exact .inr (.inl h)
  · rw [hresult, hconverse]
    simp only [Comparison.relates_converse]
  · obtain rfl := eq_of_holds_equals hs h
    exact ⟨le_rfl, le_rfl⟩

/-- A state with an age. -/
def aged (age : String) : State := (State.start "door").put "age" (.text age)

/-- `9.0` and `9` are one number, and less than `18`, though `9` comes after `1`. -/
theorem comparisons_total_aged :
    Kind.number.Has "9.0" ∧ Kind.number.Has " 9" ∧ Kind.number.Has "18" ∧
      (compares "age" .atMost " 9").Holds .empty (aged "9.0") ∧
      (compares "age" .atMost "18").Holds .empty (aged " 9") ∧
      (compares "age" .atMost "18").Holds .empty (aged "9.0") ∧
      ¬ (compares "age" .greater " 9").Holds .empty (aged "9.0") ∧
      ((compares "age" .atLeast "9.0").evaluate .empty (aged " 9")).result =
        ((compares "age" .atMost " 9").evaluate .empty (aged "9.0")).result := by
  have hnine : Kind.number.Has "9.0" := Option.isSome_iff_exists.mp (by decide +kernel)
  have hsame : Kind.number.Has " 9" := Option.isSome_iff_exists.mp (by decide +kernel)
  have hadult : Kind.number.Has "18" := Option.isSome_iff_exists.mp (by decide +kernel)
  have hok : ∀ {x : Except Fault Bool}, x.toOption = some true → x = .ok true := by
    intro x hx
    cases x <;> cases hx
    rfl
  have hle : (compares "age" .atMost " 9").Holds .empty (aged "9.0") := hok (by decide +kernel)
  have hle' : (compares "age" .atMost "18").Holds .empty (aged " 9") := hok (by decide +kernel)
  have hs : (aged "9.0").getText "age" = .ok "9.0" := rfl
  have ht : (aged " 9").getText "age" = .ok " 9" := rfl
  obtain ⟨-, -, -, -, -, hcontrary, -, hconverse, htrans, -, -⟩ :=
    comparisons_total hnine hsame hadult hs ht .empty .empty
  exact ⟨hnine, hsame, hadult, hle, hle', htrans hle hle', hcontrary.mp hle, hconverse .atMost⟩

end Predicate

end Interview
