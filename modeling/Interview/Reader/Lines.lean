import Interview.Reader.Character
import Interview.Text.Line

/-!
# Readers of lines

A reader of characters becomes a reader of lines by being given the text of the next line. It must
read all of it; a failure is placed inside the line. Past the last line stands an empty line
without a break.

* `lineBreaking_cons_eq_ok`, `line_cons_eq_ok`, `brokenLine_cons_eq_ok`: a line is read when its
  whole text is.
* `ahead_eq_ok`, `atVacantLine_eq_ok`: looking ahead reads nothing.
-/

namespace Interview

namespace Line

/-- A line that holds spaces and tabs only. -/
def isVacant (l : Line) : Bool := l.text.all Text.isSpace

end Line

namespace Reader

variable {α : Type}

/-- Reads the whole text of the next line with `p`. Answers the break of the line too. -/
def lineBreaking (p : Reader Char α) : Reader Line (α × LineBreak)
  | [] =>
    match p [] with
    | .ok a _ => .ok (a, .none) []
    | .fail e => .fail ⟨[], e.isFinal, e.hints⟩
  | l :: ls =>
    match p l.text with
    | .ok a [] => .ok (a, l.ending) ls
    | .ok _ r => .fail ⟨{ l with text := r } :: ls, false, []⟩
    | .fail e => .fail ⟨{ l with text := e.place } :: ls, e.isFinal, e.hints⟩

/-- Reads the whole text of the next line with `p`. -/
def line (p : Reader Char α) : Reader Line α := do
  let (a, _) ← lineBreaking p
  return a

/-- Reads the whole text of the next line with `p`. The line must end in a break. -/
def brokenLine (p : Reader Char α) : Reader Line α := do
  let (a, ending) ← lineBreaking p
  if ending = .none then reject else return a

/-- The text of the next line, empty at the end of the input. -/
def nextText : List Line → List Char
  | [] => []
  | l :: _ => l.text

/-- Looks with `p` at the text of the next line, of which it need not read all. -/
def ahead (p : Reader Char α) : Reader Line α := fun ls =>
  match p (nextText ls) with
  | .ok a _ => .ok a ls
  | .fail e => .fail ⟨ls, e.isFinal, e.hints⟩

/-- Reads the vacant lines that come next. -/
def vacantLines : Reader Line Unit := fun ls => .ok () (ls.dropWhile Line.isVacant)

/-- Succeeds before a vacant line and at the end of the input, and reads nothing. -/
def atVacantLine : Reader Line Unit
  | [] => .ok () []
  | l :: ls => if l.isVacant then .ok () (l :: ls) else .fail ⟨l :: ls, false, []⟩

/-! ## What they read -/

variable {p : Reader Char α} {a : α} {l : Line} {ls ms : List Line}

theorem lineBreaking_cons_eq_ok {b : LineBreak} :
    lineBreaking p (l :: ls) = .ok (a, b) ms ↔ p l.text = .ok a [] ∧ b = l.ending ∧ ms = ls := by
  simp only [lineBreaking]
  cases p l.text with
  | fail e => simp
  | ok c r =>
    cases r with
    | nil =>
      simp only [Reply.ok.injEq, Prod.mk.injEq, and_true]
      exact ⟨fun h => ⟨h.1.1, h.1.2.symm, h.2.symm⟩, fun h => ⟨⟨h.1, h.2.1.symm⟩, h.2.2.symm⟩⟩
    | cons d r => simp

theorem line_cons_eq_ok : line p (l :: ls) = .ok a ms ↔ p l.text = .ok a [] ∧ ms = ls := by
  unfold line
  rw [bind_eq_ok]
  constructor
  · rintro ⟨⟨c, b⟩, t, h, e⟩
    obtain ⟨hp, -, rfl⟩ := lineBreaking_cons_eq_ok.mp h
    obtain ⟨rfl, rfl⟩ := Reply.ok.inj e
    exact ⟨hp, rfl⟩
  · rintro ⟨h, rfl⟩
    exact ⟨(a, l.ending), ms, lineBreaking_cons_eq_ok.mpr ⟨h, rfl, rfl⟩, rfl⟩

theorem brokenLine_cons_eq_ok :
    brokenLine p (l :: ls) = .ok a ms ↔ p l.text = .ok a [] ∧ l.ending ≠ .none ∧ ms = ls := by
  unfold brokenLine
  rw [bind_eq_ok]
  constructor
  · rintro ⟨⟨c, b⟩, t, h, e⟩
    obtain ⟨hp, rfl, rfl⟩ := lineBreaking_cons_eq_ok.mp h
    by_cases hb : l.ending = .none
    · simp [hb, reject] at e
    · simp only [hb, if_false] at e
      obtain ⟨rfl, rfl⟩ := Reply.ok.inj e
      exact ⟨hp, hb, rfl⟩
  · rintro ⟨h, hb, rfl⟩
    exact ⟨(a, l.ending), ms, lineBreaking_cons_eq_ok.mpr ⟨h, rfl, rfl⟩, by simp [hb]⟩

theorem line_nil_eq_ok : line p [] = .ok a ms ↔ ms = [] ∧ ∃ r, p [] = .ok a r := by
  unfold line
  rw [bind_eq_ok]
  simp only [lineBreaking]
  cases p [] with
  | fail e => simp
  | ok c r =>
    constructor
    · rintro ⟨⟨d, b⟩, t, h, e⟩
      obtain ⟨h1, rfl⟩ := Reply.ok.inj h
      obtain ⟨rfl, rfl⟩ := Reply.ok.inj e
      exact ⟨rfl, r, by rw [(Prod.mk.inj h1).1]⟩
    · rintro ⟨rfl, t, h⟩
      exact ⟨(c, .none), [], rfl, by rw [(Reply.ok.inj h).1]; rfl⟩

theorem ahead_eq_ok : ahead p ls = .ok a ms ↔ ms = ls ∧ ∃ r, p (nextText ls) = .ok a r := by
  unfold ahead
  cases p (nextText ls) with
  | fail e => simp
  | ok c r => simp [eq_comm, and_comm]

theorem atVacantLine_eq_ok :
    atVacantLine ls = .ok () ms ↔ ms = ls ∧ ∀ l, ls.head? = some l → l.isVacant = true := by
  have comm : (ls = ms) = (ms = ls) := propext eq_comm
  cases ls with
  | nil => simp [atVacantLine, comm]
  | cons l ls => by_cases h : l.isVacant = true <;> simp [atVacantLine, h, comm]

end Reader

end Interview
