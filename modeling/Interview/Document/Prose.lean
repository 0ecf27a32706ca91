import Interview.Document.Directive
import Interview.Reader.Repeat

/-!
# Reading headings, paragraphs and next steps

A heading is a line with a number sign. A paragraph is a run of lines that are neither blank nor
directives, each trimmed, with the breaks between them kept. A box of next steps holds its lines
as they are.

* `heading`, `paragraph`, `nextSteps`: the readers.
* `joined_singleton`, `joined_cons_cons`: how a paragraph is put together.
-/

namespace Interview

namespace Prose

open Reader Word

/-- A number sign, and the text of the heading. -/
def headingText : Reader Char String := do
  spaces
  mark '#'
  spaces1
  restTrimmed

/-- A heading. -/
def heading : Reader Line String := line headingText

/-- Whether the line can be part of a paragraph. -/
def isProse (line : List Char) : Bool :=
  !(Text.trim line).isEmpty && !Directive.isDirective line

/-- The text of a line of a paragraph, trimmed. -/
def proseText : Reader Char (List Char) := do
  let cs ← restOfLine.satisfying isProse
  return Text.trim cs

/-- A trimmed line of a paragraph and the break after it. -/
def paragraphLine : Reader Line (List Char × LineBreak) := lineBreaking proseText

/-- Lines with their breaks between them; the last break is left out. -/
def joined : List (List Char × LineBreak) → List Char
  | [] => []
  | [(text, _)] => text
  | (text, ending) :: rest => text ++ ending.chars ++ joined rest

/-- A run of lines of prose. -/
def paragraph : Reader Line String := do
  let lines ← many1 paragraphLine
  return String.ofList (joined lines)

/-- A line feed or a carriage return. -/
def isBreakChar (c : Char) : Bool := c == '\n' || c == '\r'

/-- The text without the line breaks at its two ends. -/
def trimBreaks (s : List Char) : List Char :=
  ((s.dropWhile isBreakChar).reverse.dropWhile isBreakChar).reverse

/-- The lines of a box of next steps, up to the directive that ends it. -/
def nextStepsLines : Reader Line (List (List Char)) :=
  (manyUntil (brokenLine restOfLine) (Directive.directive "$ENDNEXTSTEPS")).commit.expecting
    "$ENDNEXTSTEPS"

/-- A box of next steps. -/
def nextSteps : Reader Line String := do
  brokenLine (Directive.directiveText "$NEXTSTEPS")
  let lines ← nextStepsLines
  return String.ofList (trimBreaks (['\n'].intercalate lines))

@[simp] theorem joined_singleton (t : List Char) (b : LineBreak) : joined [(t, b)] = t := rfl

@[simp] theorem joined_cons_cons (t : List Char) (b : LineBreak) (l : List Char × LineBreak)
    (ls : List (List Char × LineBreak)) :
    joined ((t, b) :: l :: ls) = t ++ b.chars ++ joined (l :: ls) := rfl

end Prose

end Interview
