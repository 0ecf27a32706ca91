import Interview.Document.Word
import Interview.Manuscript.Basic
import Interview.Text.Line

/-!
# Snippets

A line of a document that is a snippet tag, a name after `snippet:` in double braces, stands for
the text of that snippet. Snippets are put in before the document is read, once: a tag inside a
snippet stays as it is.

* `Snippet.tag?`: the name in a snippet tag.
* `Snippet.expand`: a text with its snippets put in.
* `Snippet.expandLines_append`: lines are expanded one by one.
-/

namespace Interview

namespace Snippet

open Reader Word

/-- The snippets of a manuscript, by name. -/
abbrev Table := Std.ExtTreeMap String String

/-- A snippet tag with spaces around it. -/
def tag : Reader Char String := do
  spaces
  word "\x7b\x7b"
  spaces
  word "snippet:"
  spaces
  let name ← takeWhile1 isNameChar
  spaces
  word "\x7d\x7d"
  spaces
  finished
  return String.ofList name

/-- The name in a line that is a snippet tag, blanks at its end left out. -/
def tag? (line : List Char) : Option String :=
  match tag (Text.trimEnd line) with
  | .ok name _ => some name
  | .fail _ => none

example : tag? " \x7b\x7b snippet:footer \x7d\x7d ".toList = some "footer" := by
  decide +kernel

/-- What a line stands for: itself, or the text of a snippet without the blanks at its end, and a
line feed. -/
def expandLine (snippets : Table) (node : String) (l : Line) : Except ManuscriptFault (List Char) :=
  match tag? l.text with
  | none => .ok l.chars
  | some name =>
    match snippets[name]? with
    | some text => .ok (Text.trimEnd text.toList ++ ['\n'])
    | none => .error (.unknownSnippet node name)

/-- What some lines stand for. -/
def expandLines (snippets : Table) (node : String) :
    List Line → Except ManuscriptFault (List Char)
  | [] => .ok []
  | l :: ls => do
    let first ← expandLine snippets node l
    let rest ← expandLines snippets node ls
    return first ++ rest

/-- The text of a source with its snippets put in. -/
def expand (snippets : Table) (source : Source) : Except ManuscriptFault String := do
  let text ← expandLines snippets source.name (Line.split source.text.toList)
  return String.ofList text

/-- Lines are expanded one by one. -/
theorem expandLines_append (snippets : Table) (node : String) (ls ms : List Line) :
    expandLines snippets node (ls ++ ms) =
      expandLines snippets node ls >>= fun s =>
        expandLines snippets node ms >>= fun t => pure (s ++ t) := by
  induction ls with
  | nil =>
    cases h : expandLines snippets node ms with
    | ok t => simp only [List.nil_append, h]; rfl
    | error e => simp only [List.nil_append, h]; rfl
  | cons l ls ih =>
    simp only [List.cons_append, expandLines, ih, bind_assoc, pure_bind, List.append_assoc]

end Snippet

end Interview
