import Interview.Reader.Report
import Interview.Typing
import Std.Data.ExtTreeMap

/-!
# Manuscripts

A manuscript is the text of a flow before it is read: the document of the cover, those of the
questions and of the outcomes, and snippets of text that documents may share. The cover names the
flow.

* `Manuscript.sources`: the documents in the order of the flow.
* `ManuscriptFault`: why a manuscript makes no flow.
-/

namespace Interview

/-- The text of a document and the name of its node. -/
structure Source where
  /-- The name. -/
  name : String
  /-- The text. -/
  text : String
  deriving DecidableEq

/-- The text of a flow. -/
structure Manuscript where
  /-- The document that the flow starts with and is named after. -/
  cover : Source
  /-- The documents of the questions. -/
  questions : List Source
  /-- The documents of the outcomes. -/
  outcomes : List Source
  /-- Texts that documents may share, by name. -/
  snippets : Std.ExtTreeMap String String
  deriving DecidableEq

/-- The documents: the cover, the questions, the outcomes. -/
def Manuscript.sources (m : Manuscript) : List Source := m.cover :: (m.questions ++ m.outcomes)

/-- Why a manuscript makes no flow. -/
inductive ManuscriptFault where
  /-- Two documents have the same name. -/
  | duplicateNode (name : String)
  /-- A document refers to a snippet that is not there. -/
  | unknownSnippet (node snippet : String)
  /-- A document cannot be read. -/
  | unreadable (node : String) (cause : Misreading)
  /-- A document has a defect. -/
  | defective (defect : Defect)
  deriving DecidableEq

/-- How the fault of a manuscript is said. -/
def ManuscriptFault.message : ManuscriptFault → String
  | duplicateNode name => s!"duplicate node name '{name}'"
  | unknownSnippet node snippet => s!"unknown snippet '{snippet}' referenced in node '{node}'"
  | unreadable node cause => s!"parse error in '{node}': " ++ cause.message
  | defective defect => defect.message

end Interview
