import Interview.FileTree
import Interview.Manuscript.Basic

/-!
# Manuscripts in folders

A manuscript is kept in a folder that has the name of the flow. The cover is the file of that name
in the folder; the files in the folders `questions`, `outcomes` and `snippets` are the rest. Only
files with the extension `txt` count; what stands before it is the name of the node or snippet, so
a file where that is no text is passed over. The files are taken in the order of the bytes of their
names.

* `Manuscript.fileName`: the file of a node or snippet.
* `Manuscript.textNames`: the names of the text files, in order.
* `Manuscript.sourcesIn`: the sources in a folder.
* `Manuscript.load`: the manuscript in a folder.
-/

namespace Interview

namespace Manuscript

/-- The name of the text file for a node or a snippet. -/
def fileName (name : String) : FileName := .ofText (name ++ ".txt")

/-- The names of the text files among some entries, in order. -/
def textNames (entries : List (FileName × FileTree)) : List FileName :=
  let names := (entries.filter fun e => e.2.isFile && e.1.extension? == some (.ofText "txt")).map
    (·.1)
  names.mergeSort fun a b => a.bytes ≤ b.bytes

/-- The source in a text file of a folder. -/
def sourceIn (fs : FileSystem) (folder : FilePath) (name : String) (file : FileName) :
    Except Obstacle Source := do
  let text ← fs.read (folder.child file)
  return { name, text }

/-- The sources in a folder, in the order of the file names. There are none if there is no
folder. -/
def sourcesIn (fs : FileSystem) (folder : FilePath) : Except Obstacle (List Source) :=
  let files := (textNames (fs.entriesAt folder)).filterMap fun file =>
    file.stem.text?.map (·, file)
  files.mapM fun (name, file) => sourceIn fs folder name file

/-- The name of the flow in the folder at a path. -/
def flowName? (path : FilePath) : Option String := path.finalName?.bind FileName.text?

/-- The manuscript in the folder at a path. -/
def load (fs : FileSystem) (path : FilePath) : Except Obstacle Manuscript :=
  match flowName? path with
  | none => .error (.noUsableName path)
  | some name => do
    let text ← fs.read (path.child (fileName name))
    let questions ← sourcesIn fs (path.child (.ofText "questions"))
    let outcomes ← sourcesIn fs (path.child (.ofText "outcomes"))
    let snippets ← sourcesIn fs (path.child (.ofText "snippets"))
    return {
      cover := { name, text }
      questions
      outcomes
      snippets := Std.ExtTreeMap.ofList (snippets.map fun s => (s.name, s.text)) }

end Manuscript

end Interview
