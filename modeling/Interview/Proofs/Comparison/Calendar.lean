import Interview.Evaluation
import Interview.Proofs.Reader.Exact
import Mathlib.Data.Prod.Lex
import Mathlib.Data.String.Basic

/-!
# Comparisons by the calendar

A bound that is written as a date makes a comparison go by the calendar. Then the bound must be on
the calendar, and the stored text must be a date on the calendar too. How the dates are written,
with zeros before single digits or with blanks around them, makes no difference.

* `Comparison.Relates`, `Comparison.admits_compare`: a comparison as a relation of a linear order.
* `Date.Spells`, `Date.NamedBy`: how dates are written.
* `Date.OnCalendar`: the dates of the Gregorian calendar, with a leap year 0.
* `Date.reader_iff`: the reader of dates accepts exactly the texts that spell one.
* `Date.order_eq`: dates are ordered by year, then by month, then by day.
* `Predicate.compares_by_calendar`: when a comparison goes by the calendar, and what comes of it.
-/

namespace Interview

open Text

/-! ## Comparisons -/

namespace Comparison

variable {α : Type}

/-- The first value stands in this relation to the second one. -/
def Relates [LT α] [LE α] : Comparison → α → α → Prop
  | less, a, b => a < b
  | atMost, a, b => a ≤ b
  | greater, a, b => b < a
  | atLeast, a, b => b ≤ a

instance [LinearOrder α] : (c : Comparison) → (a b : α) → Decidable (c.Relates a b)
  | less, a, b => inferInstanceAs (Decidable (a < b))
  | atMost, a, b => inferInstanceAs (Decidable (a ≤ b))
  | greater, a, b => inferInstanceAs (Decidable (b < a))
  | atLeast, a, b => inferInstanceAs (Decidable (b ≤ a))

theorem admits_compare [LinearOrder α] (c : Comparison) (a b : α) :
    c.admits (compare a b) = decide (c.Relates a b) := by
  rcases lt_trichotomy a b with h | rfl | h
  · rw [compare_lt_iff_lt.mpr h]
    cases c <;> simp [admits, Relates, h, h.le, h.not_ge, h.not_gt]
  · rw [compare_eq_iff_eq.mpr rfl]
    cases c <;> simp [admits, Relates]
  · rw [compare_gt_iff_gt.mpr h]
    cases c <;> simp [admits, Relates, h, h.le, h.not_ge, h.not_gt]

end Comparison

/-- A comparison with a text that is stored is decided by the order of the two texts. -/
theorem Predicate.result_compares {s : State} {x v : String} (h : s.getText x = .ok v)
    (r : Registry) (c : Comparison) (w : String) :
    ((compares x c w).evaluate r s).result = (orderTexts x v w).map c.admits := by
  rw [evaluate, Inquiry.ofExcept_result, compareText, h]
  show (orderTexts x v w >>= fun o => .ok (c.admits o)) = _
  cases orderTexts x v w <;> rfl

namespace Date

open Reader Digits

/-! ## The calendar -/

/-- The years with a 29th of February. -/
def LeapYear (year : Nat) : Prop := 4 ∣ year ∧ (100 ∣ year → 400 ∣ year)

/-- The dates of the Gregorian calendar. -/
inductive OnCalendar : Date → Prop
  | long {year month day : Nat} : month ∈ [1, 3, 5, 7, 8, 10, 12] → 1 ≤ day → day ≤ 31 →
      OnCalendar ⟨year, month, day⟩
  | short {year month day : Nat} : month ∈ [4, 6, 9, 11] → 1 ≤ day → day ≤ 30 →
      OnCalendar ⟨year, month, day⟩
  | february {year day : Nat} : 1 ≤ day → day ≤ 28 → OnCalendar ⟨year, 2, day⟩
  | leapDay {year : Nat} : LeapYear year → OnCalendar ⟨year, 2, 29⟩

theorem isLeap_iff {year : Nat} : isLeap year = true ↔ LeapYear year := by
  simp only [isLeap, LeapYear, Bool.and_eq_true, Bool.or_eq_true, beq_iff_eq, bne_iff_ne, ne_eq]
  omega

theorem daysIn_two (year : Nat) : daysIn year 2 = if isLeap year then 29 else 28 := rfl

theorem onCalendar_february_iff {year day : Nat} :
    OnCalendar ⟨year, 2, day⟩ ↔ 1 ≤ day ∧ day ≤ daysIn year 2 := by
  rw [daysIn_two]
  constructor
  · intro h
    cases h with
    | long h => simp at h
    | short h => simp at h
    | february h h' => split <;> omega
    | leapDay h => simp [isLeap_iff.mpr h]
  · rintro ⟨h, h'⟩
    by_cases hday : day ≤ 28
    · exact .february h hday
    · split at h'
      · rename_i hleap
        obtain rfl : day = 29 := by omega
        exact .leapDay (isLeap_iff.mp hleap)
      · omega

theorem isReal_iff {d : Date} : d.isReal = true ↔ d.OnCalendar := by
  obtain ⟨year, month, day⟩ := d
  simp only [isReal, Bool.and_eq_true, decide_eq_true_eq]
  by_cases hfeb : month = 2
  · subst hfeb
    rw [onCalendar_february_iff]
    omega
  · constructor
    · rintro ⟨⟨⟨hm, hm'⟩, hd⟩, hd'⟩
      by_cases hshort : month = 4 ∨ month = 6 ∨ month = 9 ∨ month = 11
      · rw [daysIn, if_neg hfeb, if_pos hshort] at hd'
        exact .short (by simpa using hshort) hd hd'
      · rw [daysIn, if_neg hfeb, if_neg hshort] at hd'
        refine .long ?_ hd hd'
        simp only [List.mem_cons, List.not_mem_nil, or_false]
        omega
    · intro h
      cases h with
      | long hmonth hd hd' =>
        simp only [List.mem_cons, List.not_mem_nil, or_false] at hmonth
        rw [daysIn, if_neg hfeb, if_neg (by omega)]
        omega
      | short hmonth hd hd' =>
        simp only [List.mem_cons, List.not_mem_nil, or_false] at hmonth
        rw [daysIn, if_neg hfeb, if_pos hmonth]
        omega
      | february => exact absurd rfl hfeb
      | leapDay => exact absurd rfl hfeb

/-- Year, month and day, in the order in which they are compared. -/
def triple (d : Date) : ℕ ×ₗ ℕ ×ₗ ℕ := toLex (d.year, toLex (d.month, d.day))

/-- Dates are ordered by year, then by month, then by day. -/
theorem order_eq (a b : Date) : order a b = compare a.triple b.triple := by
  simp [order, triple, Prod.Lex.compare_def, compareLex, compareOn]

/-! ## How dates are written -/

/-- The text spells the date: a year of four digits, a month and a day of one or two digits, with
hyphens between them. -/
inductive Spells : List Char → Date → Prop
  | intro {year month day : List Char} : (∀ c ∈ year ++ month ++ day, c.isDigit = true) →
      year.length = 4 → (month.length = 1 ∨ month.length = 2) →
      (day.length = 1 ∨ day.length = 2) →
      Spells (year ++ '-' :: (month ++ '-' :: day)) ⟨value year, value month, value day⟩

/-- The text spells the date, perhaps with blanks around it. -/
def NamedBy (d : Date) (s : List Char) : Prop := Spells (trim s) d

/-- The second text is the first one with blanks around it, or with a zero before a month or a day of
one digit. -/
inductive Restyles : List Char → List Char → Prop
  | blanks {s before after : List Char} : (∀ c ∈ before ++ after, isBlank c = true) →
      Restyles s (before ++ s ++ after)
  | month {year month day : List Char} : (∀ c ∈ year ++ month ++ day, c.isDigit = true) →
      month.length = 1 →
      Restyles (year ++ '-' :: (month ++ '-' :: day)) (year ++ '-' :: ('0' :: month ++ '-' :: day))
  | day {year month day : List Char} : (∀ c ∈ year ++ month ++ day, c.isDigit = true) →
      day.length = 1 →
      Restyles (year ++ '-' :: (month ++ '-' :: day)) (year ++ '-' :: (month ++ '-' :: '0' :: day))

variable {s r : List Char} {d d' : Date}

theorem digits_iff {test : Nat → Bool} {n : Nat} : digits test s = .ok n r ↔
    ∃ w, s = w ++ r ∧ w ≠ [] ∧ (∀ c ∈ w, c.isDigit = true) ∧ Stops Char.isDigit r ∧
      test w.length = true ∧ n = value w := by
  simp only [digits, bind_eq_ok, satisfying_eq_ok, takeWhile1_iff, pure_apply, Reply.ok.injEq]
  constructor
  · rintro ⟨w, t, ⟨⟨hne, rfl, hall, hstop⟩, htest⟩, rfl, rfl⟩
    exact ⟨w, rfl, hne, hall, hstop, htest, rfl⟩
  · rintro ⟨w, rfl, hne, hall, hstop, htest, rfl⟩
    exact ⟨w, r, ⟨⟨hne, rfl, hall, hstop⟩, htest⟩, rfl, rfl⟩

theorem hyphen_iff {u : Unit} : hyphen s = .ok u r ↔ s = '-' :: r := by
  simp only [hyphen, bind_eq_ok, character_eq_ok, beq_iff_eq, pure_apply, Reply.ok.injEq]
  constructor
  · rintro ⟨c, t, ⟨rfl, rfl⟩, -, rfl⟩
    rfl
  · rintro rfl
    exact ⟨'-', r, ⟨rfl, rfl⟩, trivial, rfl⟩

/-- The reader of dates accepts exactly the texts that spell one. -/
theorem reader_iff : reader s = .ok d r ↔ r = [] ∧ Spells s d := by
  simp only [reader, bind_eq_ok, digits_iff, hyphen_iff, finished_eq_ok, pure_apply,
    Reply.ok.injEq, beq_iff_eq, decide_eq_true_eq]
  constructor
  · rintro ⟨_, _, ⟨year, rfl, -, hy, -, hy4, rfl⟩, _, _, rfl, _, _, ⟨month, rfl, hm0, hm, -, hm2, rfl⟩,
      _, _, rfl, _, _, ⟨day, rfl, hd0, hd, -, hd2, rfl⟩, _, _, ⟨rfl, rfl⟩, rfl, rfl⟩
    have hm1 := List.length_pos_iff.mpr hm0
    have hd1 := List.length_pos_iff.mpr hd0
    rw [List.append_nil]
    refine ⟨rfl, .intro ?_ hy4 (by omega) (by omega)⟩
    intro c hc
    simp only [List.mem_append] at hc
    rcases hc with (hc | hc) | hc
    · exact hy c hc
    · exact hm c hc
    · exact hd c hc
  · rintro ⟨rfl, h⟩
    cases h with
    | @intro year month day hall hy hm hd =>
      simp only [List.forall_mem_append] at hall
      obtain ⟨⟨hyd, hmd⟩, hdd⟩ := hall
      have hhyphen : ∀ t, Stops Char.isDigit ('-' :: t) := fun t => stops_cons.mpr (by decide)
      refine ⟨_, _, ⟨year, rfl, List.length_pos_iff.mp (by omega), hyd, hhyphen _, hy, rfl⟩,
        (), _, rfl, _, _, ⟨month, rfl, List.length_pos_iff.mp (by omega), hmd, hhyphen _, by omega,
          rfl⟩, (), _, rfl, _, [], ⟨day, (List.append_nil _).symm, List.length_pos_iff.mp (by omega),
            hdd, stops_nil, by omega, rfl⟩, (), [], ⟨rfl, rfl⟩, rfl, rfl⟩

theorem ofText?_eq_some : ofText? s = some d ↔ d.NamedBy s := by
  unfold ofText? NamedBy
  cases h : reader (trim s) with
  | ok a t =>
    obtain ⟨rfl, ha⟩ := reader_iff.mp h
    rw [Option.some.injEq]
    constructor
    · rintro rfl
      exact ha
    · intro hd
      have := reader_iff.mpr ⟨rfl, hd⟩
      rw [h] at this
      exact (Reply.ok.inj this).1
  | fail e =>
    simp only [reduceCtorEq, false_iff]
    intro hd
    have := reader_iff.mpr ⟨rfl, hd⟩
    rw [h] at this
    cases this

theorem ofText?_eq_none : ofText? s = none ↔ ∀ d : Date, ¬ d.NamedBy s := by
  simp only [← ofText?_eq_some, Option.eq_none_iff_forall_ne_some, ne_eq]

theorem realOfText?_eq_some : realOfText? s = some d ↔ d.NamedBy s ∧ d.OnCalendar := by
  rw [realOfText?, Option.filter_eq_some_iff, ofText?_eq_some, isReal_iff]

/-! ## Dates in another style -/

theorem not_isBlank_of_isDigit {c : Char} (h : c.isDigit = true) : isBlank c = false := by
  have hrange : 48 ≤ c.toNat ∧ c.toNat ≤ 57 := by
    simpa [Char.isDigit, UInt32.le_iff_toNat_le] using h
  simp only [isBlank, Bool.or_eq_false_iff, Bool.and_eq_false_iff, decide_eq_false_iff_not,
    beq_eq_false_iff_ne]
  omega

theorem stops_hyphen (s : List Char) : Stops Char.isDigit ('-' :: s) := stops_cons.mpr (by decide)

section

variable {year month day : List Char} (hall : ∀ c ∈ year ++ month ++ day, c.isDigit = true)

include hall

/-- A text of digits and hyphens has no blanks to trim. -/
theorem trim_written : trim (year ++ '-' :: (month ++ '-' :: day)) =
    year ++ '-' :: (month ++ '-' :: day) := by
  have hblank : ∀ c ∈ year ++ '-' :: (month ++ '-' :: day), isBlank c = false := by
    intro c hc
    by_cases hhyphen : c = '-'
    · rw [hhyphen]
      decide
    · refine not_isBlank_of_isDigit (hall c ?_)
      simpa [hhyphen, or_assoc] using hc
  exact trim_eq_self (fun c hc => hblank c (List.mem_of_mem_head? hc))
    (fun c hc => hblank c (List.mem_of_getLast? hc))

/-- Hyphens take a text of digits apart in one way only. -/
theorem spells_written_iff : Spells (year ++ '-' :: (month ++ '-' :: day)) d ↔
    year.length = 4 ∧ (month.length = 1 ∨ month.length = 2) ∧ (day.length = 1 ∨ day.length = 2) ∧
      d = ⟨value year, value month, value day⟩ := by
  constructor
  · intro h
    generalize hs : year ++ '-' :: (month ++ '-' :: day) = s at h
    cases h with
    | @intro year' month' day' hall' hy hm hd =>
      simp only [List.forall_mem_append] at hall hall'
      have hfirst := run_iff.mpr ⟨hs.symm, hall.1.1, stops_hyphen _⟩
      have hfirst' := run_iff.mpr ⟨rfl, hall'.1.1, stops_hyphen (month' ++ '-' :: day')⟩
      obtain rfl := hfirst.1.trans hfirst'.1.symm
      obtain ⟨-, hrest⟩ := List.cons.inj (hfirst.2.trans hfirst'.2.symm)
      have hsecond := run_iff.mpr ⟨hrest.symm, hall.1.2, stops_hyphen day⟩
      have hsecond' := run_iff.mpr ⟨rfl, hall'.1.2, stops_hyphen day'⟩
      obtain rfl := hsecond.1.trans hsecond'.1.symm
      obtain ⟨-, rfl⟩ := List.cons.inj (hsecond.2.trans hsecond'.2.symm)
      exact ⟨hy, hm, hd, rfl⟩
  · rintro ⟨hy, hm, hd, rfl⟩
    exact .intro hall hy hm hd

theorem namedBy_written_iff : d.NamedBy (year ++ '-' :: (month ++ '-' :: day)) ↔
    year.length = 4 ∧ (month.length = 1 ∨ month.length = 2) ∧ (day.length = 1 ∨ day.length = 2) ∧
      d = ⟨value year, value month, value day⟩ := by
  rw [NamedBy, trim_written hall, spells_written_iff hall]

end

/-- Zeros before single digits and blanks around a date make no difference. -/
theorem NamedBy.restyled {t : List Char} (h : d.NamedBy s) (hst : Restyles s t) : d.NamedBy t := by
  cases hst with
  | blanks hblank =>
    obtain ⟨hbefore, hafter⟩ := List.forall_mem_append.mp hblank
    rwa [NamedBy, trim_append_blanks hafter, trim_blanks_append hbefore]
  | month hall hone =>
    obtain ⟨hy, -, hd, rfl⟩ := (namedBy_written_iff hall).mp h
    simp only [List.forall_mem_append] at hall
    refine (namedBy_written_iff ?_).mpr ⟨hy, by simp [hone], hd, by rw [value_zero_cons]⟩
    simp only [List.forall_mem_append, List.forall_mem_cons]
    exact ⟨⟨hall.1.1, by decide, hall.1.2⟩, hall.2⟩
  | day hall hone =>
    obtain ⟨hy, hm, -, rfl⟩ := (namedBy_written_iff hall).mp h
    simp only [List.forall_mem_append] at hall
    refine (namedBy_written_iff ?_).mpr ⟨hy, hm, by simp [hone], by rw [value_zero_cons]⟩
    simp only [List.forall_mem_append, List.forall_mem_cons]
    exact ⟨hall.1, by decide, hall.2⟩

theorem not_namedBy_nil : ¬ d.NamedBy [] := by
  intro h
  rw [← ofText?_eq_some] at h
  cases h

end Date

/-! ## What comes of a comparison -/

section

variable {x v w : String} {date limit : Date}

theorem orderTexts_of_limit (hw : limit.NamedBy w.toList) :
    orderTexts x v w = if limit.isReal then
      match Date.realOfText? v.toList with
      | some date => .ok (date.order limit)
      | none => .error (.invalidDate x v)
    else .error (.invalidDate x w) := by
  have hlimit := Date.ofText?_eq_some.mpr hw
  cases hdate : Date.realOfText? v.toList <;> simp only [orderTexts, hlimit, hdate]

/-- A bound that is not written as a date is compared as a number, if both texts are numbers, or by
the characters. -/
theorem orderTexts_of_no_date (hw : ∀ limit : Date, ¬ limit.NamedBy w.toList) :
    orderTexts x v w = match Number.ofText? v.toList, Number.ofText? w.toList with
      | some a, some b => .ok (compare a b)
      | _, _ => .ok (compare v w) := by
  have hnone := Date.ofText?_eq_none.mpr hw
  cases ha : Number.ofText? v.toList <;> cases hb : Number.ofText? w.toList <;>
    simp only [orderTexts, hnone, ha, hb]

/-- A bound that is written as a date must be on the calendar. -/
theorem orderTexts_of_unreal_limit (hw : limit.NamedBy w.toList) (hlimit : ¬ limit.OnCalendar) :
    orderTexts x v w = .error (.invalidDate x w) := by
  rw [orderTexts_of_limit hw, if_neg (fun h => hlimit (Date.isReal_iff.mp h))]

/-- With a date as the bound, the stored text must be a date on the calendar too. -/
theorem orderTexts_of_unreal_date (hw : limit.NamedBy w.toList) (hlimit : limit.OnCalendar)
    (hv : ∀ date : Date, date.NamedBy v.toList → ¬ date.OnCalendar) :
    orderTexts x v w = .error (.invalidDate x v) := by
  have hnone : Date.realOfText? v.toList = none :=
    Option.eq_none_iff_forall_ne_some.mpr fun date h =>
      hv date (Date.realOfText?_eq_some.mp h).1 (Date.realOfText?_eq_some.mp h).2
  rw [orderTexts_of_limit hw, if_pos (Date.isReal_iff.mpr hlimit), hnone]

/-- Two dates on the calendar are compared by the calendar. -/
theorem orderTexts_of_dates (hw : limit.NamedBy w.toList) (hlimit : limit.OnCalendar)
    (hv : date.NamedBy v.toList) (hdate : date.OnCalendar) :
    orderTexts x v w = .ok (compare date.triple limit.triple) := by
  rw [orderTexts_of_limit hw, if_pos (Date.isReal_iff.mpr hlimit),
    Date.realOfText?_eq_some.mpr ⟨hv, hdate⟩, ← Date.order_eq]

/-- A bound that is not written as a date can be compared with every text. -/
theorem exists_orderTexts (hw : ∀ limit : Date, ¬ limit.NamedBy w.toList) :
    ∃ o, orderTexts x v w = .ok o := by
  rw [orderTexts_of_no_date hw]
  split <;> exact ⟨_, rfl⟩

end

namespace Predicate

variable {s : State} {x v : String}

/-- **Dates are compared by the calendar.** A comparison goes by the calendar, so that it fails for
some stored texts, exactly if its bound is written as a date. Then the bound must be on the calendar,
and next the stored text must be a date on the calendar; if both are, the dates are compared by year,
by month and by day. Otherwise the comparison never fails. Only the dates matter, not how they are
written. -/
theorem compares_by_calendar (h : s.getText x = .ok v) (r : Registry) (c : Comparison)
    (w : String) :
    ((∃ limit : Date, limit.NamedBy w.toList) ↔ ∃ t name,
        ((compares x c w).evaluate r (s.put x (.text t))).result = .error (.invalidDate x name)) ∧
      (∀ limit : Date, limit.NamedBy w.toList →
        (¬ limit.OnCalendar →
          ((compares x c w).evaluate r s).result = .error (.invalidDate x w)) ∧
        (limit.OnCalendar → (∀ date : Date, date.NamedBy v.toList → ¬ date.OnCalendar) →
          ((compares x c w).evaluate r s).result = .error (.invalidDate x v)) ∧
        ∀ date : Date, limit.OnCalendar → date.NamedBy v.toList → date.OnCalendar →
          ((compares x c w).evaluate r s).result =
            .ok (decide (c.Relates date.triple limit.triple))) ∧
      ((∀ limit : Date, ¬ limit.NamedBy w.toList) →
        ∃ holds, ((compares x c w).evaluate r s).result = .ok holds) ∧
      (∀ (s' : State) (y v' w' : String) (date limit : Date), s'.getText y = .ok v' →
        date.OnCalendar → date.NamedBy v.toList → date.NamedBy v'.toList →
        limit.OnCalendar → limit.NamedBy w.toList → limit.NamedBy w'.toList →
        ((compares y c w').evaluate r s').result = ((compares x c w).evaluate r s).result) ∧
      ∀ (date : Date) (t t' : List Char), date.NamedBy t → Date.Restyles t t' →
        date.NamedBy t' := by
  have hput : ∀ t, (s.put x (.text t)).getText x = .ok t := fun t =>
    State.getText_eq_ok.mpr (State.get?_put_same rfl)
  refine ⟨⟨fun ⟨limit, hw⟩ => ?_, fun ⟨t, name, herror⟩ => ?_⟩, fun limit hw => ⟨fun hlimit => ?_,
    fun hlimit hv => ?_, fun date hlimit hv hdate => ?_⟩, fun hw => ?_,
    fun s' y v' w' date limit h' hdate hv hv' hlimit hw hw' => ?_,
    fun date t t' ht hst => ht.restyled hst⟩
  · -- The empty text is no date.
    by_cases hlimit : limit.OnCalendar
    · refine ⟨"", "", ?_⟩
      rw [result_compares (hput ""), orderTexts_of_unreal_date hw hlimit]
      · rfl
      · exact fun date hdate => absurd hdate Date.not_namedBy_nil
    · refine ⟨"", w, ?_⟩
      rw [result_compares (hput ""), orderTexts_of_unreal_limit hw hlimit]
      rfl
  · by_contra hw
    obtain ⟨o, ho⟩ := exists_orderTexts (x := x) (v := t) (not_exists.mp hw)
    rw [result_compares (hput t), ho] at herror
    cases herror
  · rw [result_compares h, orderTexts_of_unreal_limit hw hlimit]
    rfl
  · rw [result_compares h, orderTexts_of_unreal_date hw hlimit hv]
    rfl
  · rw [result_compares h, orderTexts_of_dates hw hlimit hv hdate, ← c.admits_compare]
    rfl
  · obtain ⟨o, ho⟩ := exists_orderTexts (x := x) (v := v) hw
    rw [result_compares h, ho]
    exact ⟨_, rfl⟩
  · rw [result_compares h, result_compares h', orderTexts_of_dates hw hlimit hv hdate,
      orderTexts_of_dates hw' hlimit hv' hdate]

/-- A state with a day in September, written without zeros. -/
def arriving : State := (State.start "door").put "arrival" (.text "2020-9-1")

/-- September comes before October, though `9` does not come before `1`. There was no leap day in
1900. -/
theorem compares_by_calendar_arriving :
    arriving.getText "arrival" = .ok "2020-9-1" ∧
      ((compares "arrival" .less "2020-10-01").evaluate .empty arriving).result = .ok true ∧
      ((compares "arrival" .less "1900-2-29").evaluate .empty arriving).result =
        .error (.invalidDate "arrival" "1900-2-29") ∧
      Date.NamedBy ⟨2020, 9, 1⟩ " 2020-09-1".toList := by
  have h : arriving.getText "arrival" = .ok "2020-9-1" := rfl
  have hdate : Date.NamedBy ⟨2020, 9, 1⟩ "2020-9-1".toList :=
    Date.ofText?_eq_some.mp (by decide +kernel)
  have hoctober : Date.NamedBy ⟨2020, 10, 1⟩ "2020-10-01".toList :=
    Date.ofText?_eq_some.mp (by decide +kernel)
  have hleap : Date.NamedBy ⟨1900, 2, 29⟩ "1900-2-29".toList :=
    Date.ofText?_eq_some.mp (by decide +kernel)
  have hless : Comparison.less.Relates (Date.triple ⟨2020, 9, 1⟩) (Date.triple ⟨2020, 10, 1⟩) := by
    decide
  have hreal : ∀ {date : Date}, date.isReal = true → date.OnCalendar := Date.isReal_iff.mp
  obtain ⟨-, hlater, -, -, hstyle⟩ := compares_by_calendar h .empty .less "2020-10-01"
  obtain ⟨-, hnone, -⟩ := compares_by_calendar h .empty .less "1900-2-29"
  refine ⟨h, ?_, (hnone _ hleap).1 fun hday => ?_, ?_⟩
  · rw [(hlater _ hoctober).2.2 _ (hreal rfl) hdate (hreal rfl), decide_eq_true hless]
  · exact absurd (Date.isReal_iff.mpr hday) (by decide)
  · have hzero := hstyle _ _ _ hdate
      (@Date.Restyles.month ['2', '0', '2', '0'] ['9'] ['1'] (List.all_eq_true.mp rfl) rfl)
    exact hstyle _ _ _ hzero (@Date.Restyles.blanks _ [' '] [] (List.all_eq_true.mp rfl))

end Predicate

end Interview
