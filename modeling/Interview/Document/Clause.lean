import Interview.Document.Basic
import Interview.Document.Word

/-!
# Reading conditions

A condition is one or more single conditions joined by `and`. A single condition is the word
`otherwise`, a function applied to values, a variable `in` a set of values, a comparison of a
variable with a value, or a name that ends in a question mark; the first form that fits is taken.

* `single`, `clause`: the readers.
-/

namespace Interview

namespace Clause

open Reader Word

/-- The word `otherwise`, and nothing that would make it part of a longer word or a call. -/
def otherwiseWord : Reader Char Clause := do
  word "otherwise"
  (character fun c => isNameChar c || c == '?' || c == '(').absent
  return .otherwise

/-- A function name and its arguments in parentheses. -/
def functionCall : Reader Char Clause := do
  let function ← identifier
  mark '('
  spaces
  let arguments ← separated value comma
  spaces
  mark ')'
  return .call function arguments

/-- One or more values in parentheses, with commas between them. -/
def valuesInParentheses : Reader Char (List String) := do
  mark '('
  spaces
  let values ← separated1 value comma
  spaces
  mark ')'
  return values

/-- One or more values in braces, with spaces between them. -/
def valuesInBraces : Reader Char (List String) := do
  mark '{'
  spaces
  let values ← separated1 value spaces1
  spaces
  mark '}'
  return values

/-- A variable, the word `in` and a set of values. -/
def setMembership : Reader Char Clause := do
  let subject ← identifier
  spaces1
  word "in"
  spaces1
  let values ← valuesInParentheses <|> valuesInBraces
  return .membership subject values

/-- The word `is` before a space. -/
def isWord : Reader Char String := do
  word "is"
  spaces1.peek
  return "is"

/-- A character of an operator. -/
def isOperatorChar (c : Char) : Bool := c == '<' || c == '>' || c == '=' || c == '!'

/-- A run of operator characters other than the arrow before a target. -/
def operatorSymbol : Reader Char String := do
  let cs ← (takeWhile1 isOperatorChar).satisfying (· != ['=', '>'])
  return String.ofList cs

/-- A variable, an operator and a value. -/
def comparisonClause : Reader Char Clause := do
  let subject ← identifier
  spaces
  let operator ← isWord <|> operatorSymbol
  spaces
  let value ← value
  return .comparison subject operator value

/-- An identifier that ends in a question mark. -/
def namedClause : Reader Char Clause := do
  let name ← identifier.satisfying (·.toList.getLast? == some '?')
  return .named name

/-- A condition without `and`. -/
def single : Reader Char Clause :=
  (otherwiseWord <|> functionCall <|> setMembership <|> comparisonClause <|> namedClause).expecting
    "predicate"

/-- The word `and` with the spaces around it, and the condition after it. -/
def another : Reader Char Clause := do
  spaces1
  word "and"
  spaces1
  single

/-- A condition. -/
def clause : Reader Char Clause := do
  let first ← single
  let others ← many another
  return if others.isEmpty then first else .conjunction (first :: others)

end Clause

end Interview
