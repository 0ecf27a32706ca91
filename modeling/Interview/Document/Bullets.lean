import Interview.Document.Clause
import Interview.Document.Directive

/-!
# Reading bullets

A bullet is a line with a condition after a bullet mark. With an arrow and a node name it says
where the interview goes on; without them it heads the bullets on the lines below that are
indented more. The bullets of one list have the same indentation, in columns: a tab goes on to
the next multiple of four.

* `width`: the columns that spaces and tabs take.
* `list`: a list of bullets with a given indentation.
* `block`: a list of bullets and what must follow it.
-/

namespace Interview

namespace Bullet

open Reader Word

/-- The column after the spaces and tabs `s`. -/
def width (s : List Char) : Nat :=
  s.foldl (fun column c => if c == '\t' then column + 4 - column % 4 else column + 1) 0

example : width [' ', '\t', ' '] = 5 ∧ width ['\t', '\t'] = 8 := by
  decide

/-- The indentation of a line, in columns. -/
def indentation : Reader Char Nat := do
  let s ← takeWhile Text.isSpace
  return width s

/-- The node name after an arrow: everything up to the next blank. -/
def target : Reader Char String := do
  let cs ← takeWhile1 (!Text.isBlank ·)
  return String.ofList cs

/-- The node name after an arrow, to the end of the line. After an arrow there is no way back. -/
def lastTarget : Reader Char String := do
  spaces
  let name ← target.commit.expecting "outcome node name"
  commit do
    spaces
    finished
  return name

/-- The line of a bullet with a given indentation: its condition, and its target if it has an
arrow. -/
def head (indent : Nat) : Reader Char (Clause × Option String) := do
  let _ ← indentation.satisfying (· == indent)
  bulletMark
  spaces1
  let condition ← Clause.clause
  spaces
  let arrow ← (word "=>").maybe
  if arrow.isSome then
    let name ← lastTarget
    return (condition, some name)
  else
    return (condition, none)

/-- The list of bullets under one with the given indentation, which must be indented more. -/
def under (list : Nat → Reader Line (List Bullet)) (indent : Nat) : Reader Line (List Bullet) := do
  let inner ← ahead indentation
  if inner ≤ indent then reject else list inner

/-- A bullet with a given indentation and all that is indented under it. -/
def item (list : Nat → Reader Line (List Bullet)) (indent : Nat) : Reader Line Bullet := do
  let (condition, name) ← line (head indent)
  match name with
  | some name => return .goTo condition name
  | none =>
    let children ← (under list indent).commit.expecting
      "`=> outcome` or rules indented under the predicate"
    return .group condition children

/-- One or more bullets with a given indentation. -/
def list : Nat → Reader Line (List Bullet) :=
  fix fun list indent => many1 (item list indent)

/-- Succeeds before a vacant line, before a directive line and at the end of the input. -/
def atEnd : Reader Line Unit :=
  atVacantLine <|> ahead do
    let _ ← restOfLine.satisfying Directive.isDirective

/-- A list of bullets with the indentation of its first line. No other line may follow at once. -/
def block : Reader Line (List Bullet) := do
  let indent ← ahead indentation
  let bullets ← list indent
  atEnd.commit.expecting "next node rule `* predicate => outcome`"
  return bullets

end Bullet

end Interview
