import Interview.Reader.Basic

/-!
# Repetition and recursion of readers

`many`, `many1`, `separated` and `manyUntil` repeat a reader; `fix` lets a family of readers call
itself. Each round must leave a shorter input, which makes all of them end: a round that reads
nothing is not repeated, and a recursive call on an input that is no shorter fails.

* `many_eq`, `manyUntil_eq`: one round of a repetition.
* `many_of_fail`, `many_of_ok`: how a repetition ends and goes on.
* `fix_eq`: one call of a recursive reader.
-/

namespace Interview

namespace Reader

variable {τ α β ι : Type}

/-- Reads with `p` as often as possible and answers the values in order. -/
def many (p : Reader τ α) : Reader τ (List α) := fun s =>
  match p s with
  | .ok a r =>
    if r.length < s.length then
      match many p r with
      | .ok as t => .ok (a :: as) t
      | .fail e => .fail e
    else .ok [] s
  | .fail e => if e.isFinal then .fail e else .ok [] s
termination_by s => s.length

/-- Reads with `p` once, then as often as possible. -/
def many1 (p : Reader τ α) : Reader τ (List α) := do
  let a ← p
  let as ← many p
  return a :: as

/-- Reads one or more items with `p`, and a separator between any two. A separator that no item
follows is left unread. -/
def separated1 (p : Reader τ α) (separator : Reader τ β) : Reader τ (List α) := do
  let a ← p
  let as ← many do
    let _ ← separator
    p
  return a :: as

/-- Reads any number of items with `p`, and a separator between any two. -/
def separated (p : Reader τ α) (separator : Reader τ β) : Reader τ (List α) := do
  let items ← (separated1 p separator).maybe
  return items.getD []

/-- Reads with `p` until `stop` can be read, and reads that too. -/
def manyUntil (p : Reader τ α) (stop : Reader τ β) : Reader τ (List α) := fun s =>
  match stop s with
  | .ok _ r => .ok [] r
  | .fail e =>
    if e.isFinal then .fail e
    else match p s with
      | .ok a r =>
        if r.length < s.length then
          match manyUntil p stop r with
          | .ok as t => .ok (a :: as) t
          | .fail e => .fail e
        else .fail ⟨s, false, []⟩
      | .fail e => .fail e
termination_by s => s.length

/-- The reader restricted to inputs shorter than `n`. -/
def below (n : Nat) (p : Reader τ α) : Reader τ α := fun s =>
  if s.length < n then p s else .fail ⟨s, false, []⟩

/-- The family of readers that `step` describes in terms of the family itself. -/
def fix (step : (ι → Reader τ α) → ι → Reader τ α) (i : ι) : Reader τ α := fun s =>
  step (fun j r => if r.length < s.length then fix step j r else .fail ⟨r, false, []⟩) i s
termination_by s => s.length

/-! ## One round -/

theorem many_eq (p : Reader τ α) (s : List τ) :
    many p s =
      match p s with
      | .ok a r =>
        if r.length < s.length then
          match many p r with
          | .ok as t => .ok (a :: as) t
          | .fail e => .fail e
        else .ok [] s
      | .fail e => if e.isFinal then .fail e else .ok [] s := by
  rw [many]

/-- A repetition ends where there is nothing more to read. -/
theorem many_of_fail {p : Reader τ α} {s : List τ} {e : Failure τ} (h : p s = .fail e)
    (he : e.isFinal = false) : many p s = .ok [] s := by
  rw [many_eq, h]
  simp [he]

/-- A repetition goes on after a round that read something. -/
theorem many_of_ok {p : Reader τ α} {s r t : List τ} {a : α} {as : List α} (h : p s = .ok a r)
    (hlt : r.length < s.length) (hr : many p r = .ok as t) : many p s = .ok (a :: as) t := by
  rw [many_eq, h]
  simp [hlt, hr]

theorem manyUntil_eq (p : Reader τ α) (stop : Reader τ β) (s : List τ) :
    manyUntil p stop s =
      match stop s with
      | .ok _ r => .ok [] r
      | .fail e =>
        if e.isFinal then .fail e
        else match p s with
          | .ok a r =>
            if r.length < s.length then
              match manyUntil p stop r with
              | .ok as t => .ok (a :: as) t
              | .fail e => .fail e
            else .fail ⟨s, false, []⟩
          | .fail e => .fail e := by
  rw [manyUntil]

/-- A recursive reader calls itself on shorter inputs only. -/
theorem fix_eq (step : (ι → Reader τ α) → ι → Reader τ α) (i : ι) (s : List τ) :
    fix step i s = step (fun j => below s.length (fix step j)) i s := by
  rw [fix]
  rfl

@[simp] theorem below_apply {n : Nat} {p : Reader τ α} {s : List τ} (h : s.length < n) :
    below n p s = p s := if_pos h

end Reader

end Interview
