import Interview.Reader.Basic
import Interview.Text.Line

/-!
# The report of a failure

A failure is reported by the place where reading stopped and by its hints. In a text of several
lines the place is a line and a column, with the line and a caret under it; in a text without a
line feed it is the text and a caret under it. Of the hints, the innermost malformed construct is
named, and then all that would have been accepted, innermost first.

* `Report.Mark.ofPlace`: how lines and columns are counted.
* `Misreading.message`: the whole report.
* `Misreading.before_append_after`: the place of a failure splits the text.
-/

namespace Interview

namespace Report

/-- The number of bytes that a text takes in UTF-8. -/
def byteCount : List Char → Nat
  | [] => 0
  | c :: cs => c.utf8Size + byteCount cs

/-- The characters after the last line feed. -/
def currentLine (s : List Char) : List Char := (s.reverse.takeWhile (· != '\n')).reverse

/-- A place in a text of several lines. -/
structure Mark where
  /-- Lines are counted from one. -/
  line : Nat
  /-- The number of columns to the left of the place. -/
  indent : Nat
  /-- The line of the place, up to its line feed. -/
  shown : List Char
  deriving DecidableEq

/-- The place between the characters `before` and `after`. A column is a character, but before a
character of several bytes it is a byte. The end of the text counts as one column past the last
character, on the line of that character. -/
def Mark.ofPlace (before after : List Char) : Mark :=
  let head := if after.isEmpty then before.dropLast else before
  let left := currentLine head
  { line := 1 + head.count '\n'
    indent := match after with
      | [] => left.length + 1
      | c :: _ => if c.utf8Size = 1 then left.length else byteCount left
    shown := left ++ ((before ++ after).drop head.length).takeWhile (· != '\n') }

/-- A number of spaces. -/
def blanks (n : Nat) : String := String.ofList (List.replicate n ' ')

/-- The lines of a report that show a mark. -/
def Mark.render (m : Mark) : String :=
  let number := toString m.line
  let gutter := blanks number.length
  let column := m.indent + 1
  let shown := String.ofList m.shown
  s!"parse error at line {number}, column {column}\n" ++
    s!"{gutter} |\n{number} | {shown}\n{gutter} | " ++ blanks m.indent ++ "^\n"

/-- Shows the place between the characters `before` and `after`. -/
def showPlace (before after : List Char) : String :=
  let text := before ++ after
  if text.contains '\n' then (Mark.ofPlace before after).render
  else String.ofList text ++ "\n" ++ blanks (byteCount before) ++ "^\n"

/-- The innermost construct that the hints call malformed. -/
def construct? (hints : List Hint) : Option String :=
  hints.findSome? fun
    | .invalid c => some c
    | .expected _ => none

/-- All that the hints say would have been accepted. -/
def wanted (hints : List Hint) : List String :=
  hints.filterMap fun
    | .invalid _ => none
    | .expected d => some d

/-- What the hints say, on at most two lines. -/
def showHints (hints : List Hint) : String :=
  let malformed := (construct? hints).toList.map ("invalid " ++ ·)
  let accepted := match wanted hints with
    | [] => []
    | ds => ["expected " ++ ", ".intercalate ds]
  "\n".intercalate (malformed ++ accepted)

end Report

/-- A text that could not be read, and why. -/
structure Misreading where
  /-- The lines of the text. -/
  lines : List Line
  /-- The failure, whose place is what was left of the text. -/
  failure : Failure Line
  deriving DecidableEq

namespace Misreading

/-- The characters from the place of the failure on. -/
def after (m : Misreading) : List Char := Line.join m.failure.place

/-- The characters before the place of the failure. -/
def before (m : Misreading) : List Char :=
  let text := Line.join m.lines
  text.take (text.length - m.after.length)

/-- The number of bytes before the place of the failure. -/
def offset (m : Misreading) : Nat := Report.byteCount m.before

/-- The report of the failure. -/
def message (m : Misreading) : String :=
  Report.showPlace m.before m.after ++ Report.showHints m.failure.hints

/-- A failure that stands before a part of the text splits the text there. -/
theorem before_append_after {m : Misreading} (h : m.after <:+ Line.join m.lines) :
    m.before ++ m.after = Line.join m.lines := by
  obtain ⟨s, hs⟩ := h
  simp [before, ← hs]

end Misreading

end Interview
