import Interview.Document.Word
import Interview.Reader.Lines

/-!
# Directives

A directive is a word with a dollar sign on a line of its own, such as `$ENDIF`; only `$IF` has
more on its line. `opensWith` recognises a line that must not be read as prose, `directive` reads
a line that holds a directive and nothing else.

* `isDirective_iff`: a directive line opens with one of the five words.
-/

namespace Interview

namespace Directive

open Reader

/-- The words that open a directive line. -/
def all : List String := ["$IF", "$ELSE", "$ENDIF", "$NEXTSTEPS", "$ENDNEXTSTEPS"]

/-- Whether the line, without the blanks around it, is the word `name` or starts with it and a
space or tab. -/
def opensWith (name : String) (line : List Char) : Bool :=
  let line := Text.trim line
  name.toList.isPrefixOf line &&
    match line.drop name.toList.length with
    | [] => true
    | c :: _ => Text.isSpace c

/-- Whether the line is a directive line. -/
def isDirective (line : List Char) : Bool := all.any (opensWith · line)

/-- Whether the line ends a branch of a conditional. -/
def endsBranch (line : List Char) : Bool := opensWith "$ELSE" line || opensWith "$ENDIF" line

/-- The word `name` and the spaces around it. -/
def directiveText (name : String) : Reader Char Unit := do
  spaces
  word name
  spaces

/-- A line that holds the directive `name` and nothing else but spaces. -/
def directive (name : String) : Reader Line Unit := line (directiveText name)

theorem isDirective_iff {l : List Char} :
    isDirective l = true ↔ ∃ n ∈ all, opensWith n l = true := by
  simp [isDirective]

end Directive

end Interview
