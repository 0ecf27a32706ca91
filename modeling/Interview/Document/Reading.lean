import Interview.Document.Block
import Interview.Reader.Report

/-!
# Reading documents

A document starts with front matter, if it has any: `key: value` lines between two lines of three
hyphens, or such lines at the very top with a vacant line after them. Blocks make up the rest.

* `Document.reader`: the reader of a whole document.
* `Document.ofText?`: the document that a text spells, or why there is none.
-/

namespace Interview

namespace Document

open Reader Word

/-- A key, a colon and a value. -/
def entryText : Reader Char (String × String) := do
  let key ← takeWhile1 isNameChar
  mark ':'
  spaces
  let value ← restTrimmed
  return (String.ofList key, value)

/-- A line of front matter. -/
def entry : Reader Line (String × String) := line entryText

/-- Three hyphens. -/
def fence : Reader Char Unit := do
  word "---"
  spaces

/-- Front matter between two fences. After the first one there is no way back. -/
def fencedFrontMatter : Reader Line (List (String × String)) := do
  brokenLine fence
  (do
    let entries ← many entry
    line fence
    return entries).commit.within "front matter"

/-- Front matter at the very top, up to a vacant line. -/
def bareFrontMatter : Reader Line (List (String × String)) := do
  let entries ← many1 entry
  atVacantLine
  return entries

/-- A whole document. -/
def reader : Reader Line Document := do
  vacantLines
  let frontMatter ← (fencedFrontMatter <|> bareFrontMatter).maybe
  let body ← Block.list
  finished.commit.expecting "end of document"
  return { frontMatter := frontMatter.getD [], body }

/-- The document that a text spells, or why there is none. -/
def ofText? (text : String) : Except Misreading Document :=
  let lines := Line.split text.toList
  match reader lines with
  | .ok document _ => .ok document
  | .fail failure => .error { lines, failure }

example :
    (match ofText? "* a?\n  * b? => c\n* d? => " with
      | .ok _ => ""
      | .error m => m.message) =
      "parse error at line 3, column 9\n  |\n3 | * d? => \n  |         ^\n" ++
        "expected outcome node name, " ++
        "heading, paragraph, question, conditional or next node rules" := by
  decide +kernel

end Document

end Interview
