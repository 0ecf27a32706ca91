import Interview.Text.Bytes

/-!
# File trees

A file tree is a file or a folder of named file trees. A file system is a file tree, the root, with
a folder in it to work in. A path is followed step by step, from the root if it starts with a slash
and from the working folder if not; `.` stays, `..` goes back to the folder above, and both need a
folder to stand in. Above the root is the root itself. Names are bytes, which need be no text.

* `FileName.text?`, `FileName.stem`, `FileName.extension?`: a name as a text, and its parts.
* `FilePath.steps`, `FilePath.finalName?`: what a path goes through, and the name it ends in.
* `FileSystem.find`: the tree at the end of a path.
* `FileSystem.read`: the text of the file at the end of a path.
-/

namespace Interview

/-! ## Names and paths -/

/-- A name in a folder. -/
structure FileName where
  /-- The bytes of the name, which need be no text. -/
  bytes : List UInt8
  deriving DecidableEq

namespace FileName

/-- The name that a text spells. -/
def ofText (s : String) : FileName := ⟨Text.bytes s⟩

/-- The name as a text, if it is one. -/
def text? (n : FileName) : Option String := Text.ofBytes? n.bytes

/-- The dot. -/
def dot : UInt8 := 0x2E

/-- The parts of a name before and after its last dot. There are none without a dot, or if the last
dot is what the name starts with. -/
def parts? (n : FileName) : Option (FileName × FileName) :=
  match n.bytes.reverse.dropWhile (· != dot) with
  | _ :: b :: before =>
    some (⟨(b :: before).reverse⟩, ⟨(n.bytes.reverse.takeWhile (· != dot)).reverse⟩)
  | _ => none

/-- The part after the last dot. -/
def extension? (n : FileName) : Option FileName := n.parts?.map (·.2)

/-- The part before the last dot, or all of a name without parts. -/
def stem (n : FileName) : FileName := (n.parts?.map (·.1)).getD n

example : (ofText "a.b.txt").stem = ofText "a.b" ∧ (ofText "a.txt").extension? = ofText "txt" := by
  decide +kernel

example : (ofText ".txt").extension? = none ∧ (ofText "txt").extension? = none := by
  decide +kernel

end FileName

/-- A path. -/
structure FilePath where
  /-- The bytes of the path, which need be no text. -/
  bytes : List UInt8
  deriving DecidableEq

namespace FilePath

/-- The path that a text spells. -/
def ofText (s : String) : FilePath := ⟨Text.bytes s⟩

instance : Coe String FilePath := ⟨ofText⟩

/-- The slash. -/
def slash : UInt8 := 0x2F

/-- Whether the path starts at the root. -/
def isAbsolute (p : FilePath) : Bool := p.bytes.head? == some slash

/-- What stands before, between and after the slashes. -/
def steps (p : FilePath) : List FileName := (p.bytes.splitOn slash).map .mk

/-- The names on the path: its steps, without those that stay where they are. -/
def names (p : FilePath) : List FileName :=
  p.steps.filter fun n => n != .ofText "" && n != .ofText "."

/-- The name that the path ends in; there is none if that is `..`. -/
def finalName? (p : FilePath) : Option FileName := p.names.getLast?.filter (· != .ofText "..")

/-- The path with one more name at its end. -/
def child (p : FilePath) (n : FileName) : FilePath :=
  if p.bytes = [] ∨ p.bytes.getLast? = some slash then ⟨p.bytes ++ n.bytes⟩
  else ⟨p.bytes ++ slash :: n.bytes⟩

/-- Whether the path holds a null character. -/
def hasNull (p : FilePath) : Bool := p.bytes.contains 0

end FilePath

/-! ## Files and folders -/

/-- A file or a folder. -/
inductive FileTree where
  /-- A file and its bytes. -/
  | file (contents : ByteArray)
  /-- A folder and what it holds, in no particular order. -/
  | folder (entries : List (FileName × FileTree))

/-- Why a file cannot be read. -/
inductive Obstacle where
  /-- There is nothing at the end of the path. -/
  | notFound
  /-- A folder is where a file should be. -/
  | isFolder
  /-- A file is where a folder should be. -/
  | notFolder
  /-- The bytes of the file are no UTF-8 text. -/
  | notText
  /-- The path holds a null character, which no file name does. -/
  | nullCharacter
  /-- The path ends in no name that a flow could have. -/
  | noUsableName (path : FilePath)
  deriving DecidableEq

/-- What is said about an obstacle, apart from its kind. -/
def Obstacle.explanation? : Obstacle → Option String
  | nullCharacter => some "file name contained an unexpected NUL byte"
  | noUsableName path => some s!"flow directory '{Text.lossy path.bytes}' has no usable name"
  | _ => none

namespace FileTree

/-- The entry of a folder with a given name. -/
def lookup? (entries : List (FileName × FileTree)) (name : FileName) : Option FileTree :=
  (entries.find? (·.1 == name)).map (·.2)

/-- Follows steps from a tree. The trees above it are given, the nearest first. -/
def follow (tree : FileTree) (above : List FileTree) : List FileName → Except Obstacle FileTree
  | [] => .ok tree
  | name :: names =>
    match tree with
    | file _ => .error .notFolder
    | folder entries =>
      if name = .ofText "" ∨ name = .ofText "." then follow tree above names
      else if name = .ofText ".." then
        match above with
        | [] => follow tree [] names
        | parent :: above => follow parent above names
      else
        match lookup? entries name with
        | some next => follow next (tree :: above) names
        | none => .error .notFound

/-- Whether the tree is a file. -/
def isFile : FileTree → Bool
  | file _ => true
  | folder _ => false

/-- The tree with the part at the end of some names changed by `f`. Folders are made where they are
missing, and an empty folder is changed where nothing was. -/
def update (f : FileTree → FileTree) : List FileName → FileTree → FileTree
  | [], tree => f tree
  | name :: names, tree =>
    let entries := match tree with
      | file _ => []
      | folder entries => entries
    let old := (lookup? entries name).getD (folder [])
    folder ((name, update f names old) :: entries.filter (·.1 != name))

/-- The tree with a file added. -/
def addFile (tree : FileTree) (p : FilePath) (contents : ByteArray) : FileTree :=
  tree.update (fun _ => file contents) p.names

/-- The tree with a folder added, if it was not there. -/
def addFolder (tree : FileTree) (p : FilePath) : FileTree := tree.update id p.names

end FileTree

/-! ## File systems -/

/-- A file system, with a folder to work in. -/
structure FileSystem where
  /-- The root folder. -/
  root : FileTree
  /-- The names from the root to the working folder. -/
  here : List FileName

namespace FileSystem

/-- A file system that holds nothing but a tree, to work in. -/
def around (tree : FileTree) : FileSystem :=
  { root := .folder [(.ofText "work", tree)], here := [.ofText "work"] }

instance : Coe FileTree FileSystem := ⟨around⟩

/-- The tree at the end of a path. -/
def find (fs : FileSystem) (p : FilePath) : Except Obstacle FileTree :=
  if p.hasNull then .error .nullCharacter
  else if p.bytes = [] then .error .notFound
  else if p.isAbsolute then fs.root.follow [] p.steps
  else fs.root.follow [] (fs.here ++ p.steps)

/-- The text of the file at the end of a path. -/
def read (fs : FileSystem) (p : FilePath) : Except Obstacle String := do
  match ← fs.find p with
  | .folder _ => .error .isFolder
  | .file contents =>
    match String.fromUTF8? contents with
    | some text => .ok text
    | none => .error .notText

/-- The entries of the folder at the end of a path, none if there is no folder. -/
def entriesAt (fs : FileSystem) (p : FilePath) : List (FileName × FileTree) :=
  match fs.find p with
  | .ok (.folder entries) => entries
  | _ => []

end FileSystem

end Interview
