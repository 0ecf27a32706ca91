import Interview.Reader.Basic
import Interview.Text.Blank

/-!
# Readers of characters

The readers that the grammar of a line is built from: a single character of a class, a run of
them, a fixed word, the spaces between words, and the rest of the line. None of them moves when
it fails, except that `restOfLine` stands on the carriage return that it meets.

* `takeWhile_apply`, `takeWhile1_eq_ok`: a run is as long as its class allows.
* `word_eq_ok`: a fixed word is read where the input starts with it.
* `restOfLine_eq_ok`: the rest of a line is all of it, if it holds no carriage return.
-/

namespace Interview

namespace Reader

/-- A character that passes `test`. -/
def character (test : Char → Bool) : Reader Char Char
  | c :: r => if test c then .ok c r else .fail ⟨c :: r, false, []⟩
  | [] => .fail ⟨[], false, []⟩

/-- The longest run of characters that pass `test`, which may be empty. -/
def takeWhile (test : Char → Bool) : Reader Char (List Char) := fun s =>
  .ok (s.takeWhile test) (s.dropWhile test)

/-- The longest run of characters that pass `test`, which may not be empty. -/
def takeWhile1 (test : Char → Bool) : Reader Char (List Char) := fun s =>
  match s.takeWhile test with
  | [] => .fail ⟨s, false, []⟩
  | cs => .ok cs (s.dropWhile test)

/-- The characters of `w`, one after the other. -/
def word (w : String) : Reader Char Unit := fun s =>
  if w.toList.isPrefixOf s then .ok () (s.drop w.toList.length) else .fail ⟨s, false, []⟩

/-- Any number of spaces and tabs. -/
def spaces : Reader Char Unit := do
  let _ ← takeWhile Text.isSpace

/-- One or more spaces and tabs. -/
def spaces1 : Reader Char Unit := do
  let _ ← takeWhile1 Text.isSpace

/-- The rest of the line. A line that holds a carriage return cannot be read to its end: reading
stops at the first one. -/
def restOfLine : Reader Char (List Char) := fun s =>
  match s.dropWhile (· != '\r') with
  | [] => .ok s []
  | r => .fail ⟨r, false, []⟩

/-! ## What they read -/

variable {s r : List Char}

theorem character_eq_ok {test : Char → Bool} {c : Char} :
    character test s = .ok c r ↔ s = c :: r ∧ test c = true := by
  cases s with
  | nil => simp [character]
  | cons d t =>
    unfold character
    by_cases h : test d = true
    · simp only [h, if_true, Reply.ok.injEq, List.cons.injEq, iff_self_and]
      rintro ⟨rfl, -⟩
      exact h
    · simp only [h]
      constructor
      · simp
      · rintro ⟨e, ht⟩
        exact absurd (by simpa [(List.cons.inj e).1] using ht) h

@[simp] theorem takeWhile_apply (test : Char → Bool) :
    takeWhile test s = .ok (s.takeWhile test) (s.dropWhile test) := rfl

theorem takeWhile1_eq_ok {test : Char → Bool} {cs : List Char} :
    takeWhile1 test s = .ok cs r ↔
      cs ≠ [] ∧ cs = s.takeWhile test ∧ r = s.dropWhile test := by
  unfold takeWhile1
  split
  next h =>
    simp only [h, reduceCtorEq, false_iff]
    rintro ⟨hne, rfl, -⟩
    exact hne rfl
  next h =>
    simp only [Reply.ok.injEq]
    constructor
    · rintro ⟨rfl, rfl⟩
      exact ⟨h, rfl, rfl⟩
    · rintro ⟨-, rfl, rfl⟩
      exact ⟨rfl, rfl⟩

theorem word_eq_ok {w : String} : word w s = .ok () r ↔ s = w.toList ++ r := by
  unfold word
  by_cases h : w.toList.isPrefixOf s = true
  · rw [if_pos h]
    obtain ⟨t, rfl⟩ := List.isPrefixOf_iff_prefix.mp h
    simp
  · rw [if_neg h]
    constructor
    · simp
    · rintro rfl
      exact absurd (List.isPrefixOf_iff_prefix.mpr (List.prefix_append ..)) h

theorem restOfLine_eq_ok {cs : List Char} :
    restOfLine s = .ok cs r ↔ cs = s ∧ r = [] ∧ '\r' ∉ s := by
  have key : s.dropWhile (· != '\r') = [] ↔ '\r' ∉ s := by
    induction s with
    | nil => simp
    | cons c t ih =>
      by_cases hc : c = '\r'
      · simp [hc]
      · simp [hc, ih, Ne.symm hc]
  unfold restOfLine
  split
  next h =>
    simp only [Reply.ok.injEq, key.mp h, not_false_eq_true, and_true]
    exact ⟨fun h => ⟨h.1.symm, h.2.symm⟩, fun h => ⟨h.1.symm, h.2.symm⟩⟩
  next h =>
    simp only [reduceCtorEq, false_iff]
    rintro ⟨-, -, hs⟩
    exact h (key.mpr hs)

end Reader

end Interview
