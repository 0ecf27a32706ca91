import Interview.Document.Basic
import Interview.Document.Word
import Interview.Reader.Lines

/-!
# Reading questions and start buttons

A question is a tag in square brackets on a line of its own: a keyword, a colon, a name, and
options after commas. Under a choice tag stand bullets with a value and a label. Once the keyword
and its colon are read, the tag must be right.

* `tag`, `choice`, `question`, `startButton`: the readers.
-/

namespace Interview

namespace Tag

open Reader Word

/-- The keyword `k` stands for itself. -/
def keyword (k : TagKind) : Reader Char TagKind := do
  word k.keyword
  return k

/-- The keyword of a tag. -/
def kind : Reader Char TagKind :=
  keyword .choice <|> keyword .text <|> keyword .salary <|> keyword .date <|> keyword .country

/-- A character of an option's value. -/
def isOptionChar (c : Char) : Bool := c != ',' && c != ']' && c != '\n' && c != '\r'

/-- A comma, a key, a colon and a value. -/
def option : Reader Char (String × String) := do
  comma
  let key ← identifier
  spaces
  mark ':'
  spaces
  let cs ← takeWhile1 isOptionChar
  return (key, String.ofList (Text.trim cs))

/-- What stands in a tag after the keyword and its colon, to the end of the line. -/
def content : Reader Char (String × List (String × String)) := do
  spaces
  let name ← identifier
  let options ← many option
  spaces
  mark ']'
  spaces
  finished
  return (name, options)

/-- A question tag without its choices. -/
def tag : Reader Char QuestionTag := do
  spaces
  mark '['
  let kind ← kind
  mark ':'
  let (name, options) ← content.commit.within "question tag"
  return { kind, name, options, choices := [] }

/-- A bullet with a value and its label. -/
def choice : Reader Char (String × String) := do
  spaces
  bulletMark
  spaces
  let value ← identifier
  mark ':'
  spaces
  let label ← restTrimmed
  return (value, label)

/-- A question tag and, for a choice, one or more bullets. -/
def question : Reader Line QuestionTag := do
  let tag ← line tag
  if tag.kind = .choice then
    let choices ← (many1 (line choice)).commit.expecting
      "multiple choice option `* value: Label`"
    return { tag with choices }
  else
    return tag

/-- The name in a start tag, to the end of the line. -/
def startContent : Reader Char String := do
  spaces
  let name ← identifier
  spaces
  mark ']'
  spaces
  finished
  return name

/-- The tag of a start button. -/
def startText : Reader Char String := do
  spaces
  word "[start:"
  startContent.commit.within "start button"

/-- A tag with the node that a start button leads to. -/
def startButton : Reader Line String := line startText

end Tag

end Interview
