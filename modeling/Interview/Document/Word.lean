import Interview.Reader.Repeat
import Interview.Reader.Character

/-!
# Words

The small parts that conditions, tags and front matter are made of: identifiers, values, commas and
bullet marks.

* `isNameChar`: the characters of an identifier.
* `identifier`, `value`, `comma`: their readers.
-/

namespace Interview

namespace Word

open Reader

/-- A character of an identifier: an ASCII letter or digit, an underscore or a hyphen. -/
def isNameChar (c : Char) : Bool := c.isAlphanum || c == '_' || c == '-'

/-- The character `c`. -/
def mark (c : Char) : Reader Char Unit := do
  let _ ← character (· == c)

/-- Name characters, and then perhaps a question mark. -/
def identifier : Reader Char String := do
  let cs ← takeWhile1 isNameChar
  let questionMark ← (character (· == '?')).maybe
  return String.ofList (cs ++ questionMark.toList)

/-- A value between two marks `q`, which it does not hold. -/
def quotedBy (q : Char) : Reader Char String := do
  mark q
  let cs ← takeWhile (· != q)
  mark q
  return String.ofList cs

/-- A character of a value that is written without quotes. -/
def isBareChar (c : Char) : Bool :=
  !(Text.isBlank c || ['(', ')', '{', '}', ',', '\'', '"'].contains c)

/-- A value that is written without quotes. -/
def bareValue : Reader Char String := do
  let cs ← takeWhile1 isBareChar
  return String.ofList cs

/-- A value, in single quotes, in double quotes or bare. -/
def value : Reader Char String := quotedBy '\'' <|> quotedBy '"' <|> bareValue

/-- A comma and the spaces around it. -/
def comma : Reader Char Unit := do
  spaces
  mark ','
  spaces

/-- A hyphen or an asterisk. -/
def bulletMark : Reader Char Unit := do
  let _ ← character fun c => c == '*' || c == '-'

/-- A text that is not blank, trimmed. It takes up the rest of the line. -/
def restTrimmed : Reader Char String := do
  let cs ← restOfLine.satisfying fun cs => !(Text.trim cs).isEmpty
  return String.ofList (Text.trim cs)

end Word

end Interview
