import Interview.Manuscript.Folder
import Interview.Proofs.Except
import Interview.Proofs.FileTree.Layout
import Mathlib.Data.List.Sort
import Mathlib.Data.List.TakeWhile

/-!
# What is in the folder of a manuscript

A manuscript is read from the layout of its folder alone: the cover, and in each section the text
files in the order of the bytes of their names. If one of them cannot be read, the first one that
cannot is the obstacle. The order in which folders list what they hold makes no difference, nor does
any other file, so a file whose name is no text is not even read.

* `FileName.txt_iff`: which names have the extension `txt` and a text before it.
* `Manuscript.TextFile`: the text files of a folder.
* `Manuscript.Holds`, `Manuscript.sourcesIn_eq_ok`: the sources that they make.
* `Manuscript.Blocked`, `Manuscript.sourcesIn_eq_error`: the first of them that cannot be read.
* `Manuscript.Described`, `Manuscript.Obstructed`: the same for a whole manuscript.
* `Manuscript.load_of_layout`: loading is what these say.
* `Manuscript.load_passes_over`: which files with a name in `.txt` are not read.
-/

namespace Interview

open FileSystem (Layout)

/-! ## Names of text files -/

namespace FileName

variable {n a b : FileName}

/-- The parts of a name are what stands before and after its last dot. -/
theorem parts?_eq_some : n.parts? = some (a, b) ↔
    n.bytes = a.bytes ++ dot :: b.bytes ∧ a.bytes ≠ [] ∧ dot ∉ b.bytes := by
  have hsplit := List.takeWhile_append_dropWhile (p := (· != dot)) (l := n.bytes.reverse)
  unfold parts?
  constructor
  · intro h
    split at h
    · rename_i d c before hdrop
      cases h
      have hd : d = dot := by
        have := List.head?_dropWhile_not (· != dot) n.bytes.reverse
        simpa [hdrop] using this
      refine ⟨?_, by simp, fun hmem => ?_⟩
      · rw [hdrop, hd] at hsplit
        simpa using congrArg List.reverse hsplit.symm
      · simpa using List.mem_takeWhile_imp (List.mem_reverse.mp hmem)
    · cases h
  · rintro ⟨hn, hne, hdot⟩
    obtain ⟨c, before, hbefore⟩ := List.exists_cons_of_ne_nil (List.reverse_ne_nil_iff.mpr hne)
    have hafter : ∀ x ∈ b.bytes.reverse, (x != dot) = true := fun x hx =>
      bne_iff_ne.mpr fun heq => hdot (heq ▸ List.mem_reverse.mp hx)
    have hrev : n.bytes.reverse = b.bytes.reverse ++ dot :: c :: before := by
      simp [hn, hbefore]
    have hdrop : n.bytes.reverse.dropWhile (· != dot) = dot :: c :: before := by
      rw [hrev, List.dropWhile_append_of_pos hafter]
      rfl
    have htake : n.bytes.reverse.takeWhile (· != dot) = b.bytes.reverse := by
      rw [hrev, List.takeWhile_append_of_pos hafter]
      exact List.append_nil _
    rw [hdrop, htake]
    show some (FileName.mk (c :: before).reverse, FileName.mk b.bytes.reverse.reverse) = some (a, b)
    rw [← hbefore, List.reverse_reverse, List.reverse_reverse]

/-- The names with the extension `txt`, and what stands before it. -/
theorem txt_iff : n.extension? = some (.ofText "txt") ∧ n.stem = a ↔
    n.bytes = a.bytes ++ Text.bytes ".txt" ∧ a.bytes ≠ [] := by
  have hparts : n.extension? = some (.ofText "txt") ∧ n.stem = a ↔
      n.parts? = some (a, .ofText "txt") := by
    unfold extension? stem
    cases n.parts? with
    | none => simp
    | some parts =>
      obtain ⟨b, c⟩ := parts
      simp [and_comm]
  rw [hparts, parts?_eq_some]
  exact and_congr_right fun _ => and_iff_left (by decide)

end FileName

namespace Manuscript

open FileTree

variable {fs : FileSystem} {path folder : FilePath} {stem text name : String}
  {n : FileName} {stems : List String} {sources : List Source} {c : ByteArray} {e : Obstacle}
  {entries : List (FileName × FileTree)} {m : Manuscript}

theorem fileName_bytes : (fileName stem).bytes = Text.bytes stem ++ Text.bytes ".txt" :=
  Text.bytes_append ..

/-- The text files are those with a text before `.txt`. -/
theorem stem_text?_iff :
    n.extension? = some (.ofText "txt") ∧ n.stem.text? = some stem ↔
      stem ≠ "" ∧ n = fileName stem := by
  have hbytes : Text.bytes stem ≠ [] ↔ stem ≠ "" :=
    not_congr ⟨fun h => Text.bytes_injective (h.trans rfl), fun h => h ▸ rfl⟩
  rw [FileName.text?, Text.ofBytes?_eq_some]
  constructor
  · rintro ⟨htxt, hstem⟩
    obtain ⟨hn, hne⟩ := FileName.txt_iff.mp ⟨htxt, rfl⟩
    rw [hstem] at hn hne
    refine ⟨hbytes.mp hne, ?_⟩
    obtain ⟨bs⟩ := n
    exact congrArg FileName.mk (hn.trans fileName_bytes.symm)
  · rintro ⟨hne, rfl⟩
    obtain ⟨htxt, hstem⟩ := (FileName.txt_iff (a := .ofText stem)).mpr
      ⟨fileName_bytes, hbytes.mpr hne⟩
    exact ⟨htxt, congrArg FileName.bytes hstem⟩

theorem fileName_injective {s t : String} (h : fileName s = fileName t) : s = t := by
  have hbytes := congrArg FileName.bytes h
  rw [fileName_bytes, fileName_bytes] at hbytes
  exact Text.bytes_injective (List.append_cancel_right hbytes)

/-! ## Files -/

/-- The file at the end of the path has this text. -/
def Reads (layout : Layout) (p : FilePath) (text : String) : Prop :=
  ∃ c, layout p = .ok (.file c) ∧ String.fromUTF8? c = some text

/-- There is no text at the end of the path, and why. -/
inductive Unreadable (layout : Layout) (p : FilePath) : Obstacle → Prop
  | unreachable {e : Obstacle} : layout p = .error e → Unreadable layout p e
  | folder : layout p = .ok .folder → Unreadable layout p .isFolder
  | notText {c : ByteArray} : layout p = .ok (.file c) → String.fromUTF8? c = none →
      Unreadable layout p .notText

/-- The text of what stands at the end of a path. -/
def textOf : Stand → Except Obstacle String
  | .folder => .error .isFolder
  | .file c => match String.fromUTF8? c with
    | some text => .ok text
    | none => .error .notText

theorem read_eq : fs.read folder = (fs.layout folder).bind textOf := by
  unfold FileSystem.read FileSystem.layout
  cases fs.find folder with
  | error e => rfl
  | ok tree => cases tree <;> rfl

theorem read_eq_ok : fs.read folder = .ok text ↔ Reads fs.layout folder text := by
  rw [read_eq, Reads]
  cases fs.layout folder with
  | error e => simp [Except.bind]
  | ok s =>
    cases s with
    | folder => simp [Except.bind, textOf]
    | file c => cases htext : String.fromUTF8? c <;> simp [Except.bind, textOf, htext]

theorem read_eq_error : fs.read folder = .error e ↔ Unreadable fs.layout folder e := by
  rw [read_eq]
  constructor
  · intro h
    cases hs : fs.layout folder with
    | error o =>
      rw [hs] at h
      cases h
      exact .unreachable hs
    | ok s =>
      rw [hs] at h
      cases s with
      | folder =>
        cases h
        exact .folder hs
      | file c =>
        cases htext : String.fromUTF8? c with
        | some t => simp [Except.bind, textOf, htext] at h
        | none =>
          obtain rfl : Obstacle.notText = e := by simpa [Except.bind, textOf, htext] using h
          exact .notText hs htext
  · rintro (h | h | ⟨h, htext⟩)
    · rw [h]
      rfl
    · rw [h]
      rfl
    · simp [h, Except.bind, textOf, htext]

/-- The text files of a folder, by what stands before `.txt` in their names. It is some text, and
the name is that of an entry. -/
def TextFile (layout : Layout) (folder : FilePath) (stem : String) (c : ByteArray) : Prop :=
  stem ≠ "" ∧ (fileName stem).Proper ∧ layout (folder.child (fileName stem)) = .ok (.file c)

/-- The files that a name leads to from a folder are those among its entries. -/
theorem layout_child_iff (h : fs.root.Proper) (hfolder : folder.bytes ≠ []) (hn : n.Proper) :
    fs.layout (folder.child n) = .ok (.file c) ↔ (n, .file c) ∈ fs.entriesAt folder := by
  rw [FileSystem.layout, FileSystem.find_child hfolder hn, FileSystem.entriesAt]
  cases hfind : fs.find folder with
  | error e => simp [Except.bind, Except.map]
  | ok tree =>
    cases tree with
    | file => simp [Except.bind, Except.map, enter]
    | folder entries =>
      have hnodup := (FileSystem.proper_of_find h hfind).nodup
      simp only [Except.bind, Except.map, enter, hn.ne_empty, hn.ne_dot, or_self, if_false,
        ← lookup?_eq_some_iff hnodup]
      cases lookup? entries n with
      | none => simp
      | some t => cases t <;> simp [stand]

theorem textFile_iff (h : fs.root.Proper) (hfolder : folder.bytes ≠ []) :
    TextFile fs.layout folder stem c ↔
      stem ≠ "" ∧ (fileName stem, .file c) ∈ fs.entriesAt folder := by
  refine and_congr_right fun _ => ⟨fun ⟨hn, hc⟩ => (layout_child_iff h hfolder hn).mp hc, ?_⟩
  intro hmem
  have hn := (FileSystem.proper_entriesAt h).entryName hmem
  exact ⟨hn, (layout_child_iff h hfolder hn).mpr hmem⟩

/-! ## Sections

What is read of a section depends on its text files alone: a relation of stems and bytes. -/

/-- Every text file can be read. -/
def Readable (files : String → ByteArray → Prop) : Prop :=
  ∀ stem c, files stem c → ∃ text, String.fromUTF8? c = some text

/-- The text files, each once, in the order of the bytes of their names. -/
structure Lists (files : String → ByteArray → Prop) (stems : List String) : Prop where
  ascending : stems.Pairwise fun a b => (fileName a).bytes < (fileName b).bytes
  mem_iff : ∀ stem, stem ∈ stems ↔ ∃ c, files stem c

/-- The sources that the text files make: one for each of them, in the order of the file names. -/
structure Holds (files : String → ByteArray → Prop) (sources : List Source) : Prop where
  lists : Lists files (sources.map (·.name))
  reads : ∀ s ∈ sources, ∀ c, files s.name c → String.fromUTF8? c = some s.text

/-- Some text file cannot be read, and this is the obstacle that the first such has. -/
def Blocked (files : String → ByteArray → Prop) (e : Obstacle) : Prop :=
  e = .notText ∧ ∃ stem c, files stem c ∧ String.fromUTF8? c = none ∧
    ∀ n d, files n d → (fileName n).bytes < (fileName stem).bytes →
      ∃ text, String.fromUTF8? d = some text

/-- The stems of the text files among some entries, in the order of the file names. -/
def textStems (entries : List (FileName × FileTree)) : List String :=
  (textNames entries).filterMap (·.stem.text?)

theorem mem_textNames : n ∈ textNames entries ↔
    n.extension? = some (.ofText "txt") ∧ ∃ c, (n, FileTree.file c) ∈ entries := by
  unfold textNames
  simp only [List.mem_mergeSort, List.mem_map, List.mem_filter, Bool.and_eq_true, beq_iff_eq]
  constructor
  · rintro ⟨⟨n, t⟩, ⟨hmem, hfile, htxt⟩, rfl⟩
    cases t with
    | file c => exact ⟨htxt, c, hmem⟩
    | folder => cases hfile
  · rintro ⟨htxt, c, hmem⟩
    exact ⟨(n, .file c), ⟨hmem, rfl, htxt⟩, rfl⟩

theorem pairwise_textNames (h : (entries.map (·.1)).Nodup) :
    (textNames entries).Pairwise fun a b => a.bytes < b.bytes := by
  have hnodup : (textNames entries).Nodup :=
    (List.mergeSort_perm _ _).nodup_iff.mpr (h.sublist (List.filter_sublist.map _))
  have hle : (textNames entries).Pairwise fun a b => decide (a.bytes ≤ b.bytes) = true :=
    List.pairwise_mergeSort
      (fun a b c => by simpa only [decide_eq_true_eq] using List.le_trans)
      (fun a b => by
        simpa only [Bool.or_eq_true, decide_eq_true_eq] using List.le_total a.bytes b.bytes) _
  refine hle.imp₂ (fun a b hab hne => ?_) hnodup
  rw [decide_eq_true_eq] at hab
  refine List.not_le.mp fun hba => hne ?_
  obtain ⟨bs⟩ := a
  exact congrArg FileName.mk (List.le_antisymm hab hba)

theorem mem_textStems :
    stem ∈ textStems entries ↔ stem ≠ "" ∧ ∃ c, (fileName stem, FileTree.file c) ∈ entries := by
  simp only [textStems, List.mem_filterMap, mem_textNames]
  constructor
  · rintro ⟨n, ⟨htxt, hc⟩, hstem⟩
    obtain ⟨hne, rfl⟩ := stem_text?_iff.mp ⟨htxt, hstem⟩
    exact ⟨hne, hc⟩
  · rintro ⟨hne, hc⟩
    obtain ⟨htxt, hstem⟩ := stem_text?_iff.mpr ⟨hne, rfl⟩
    exact ⟨_, ⟨htxt, hc⟩, hstem⟩

theorem pairwise_textStems (h : (entries.map (·.1)).Nodup) :
    (textStems entries).Pairwise fun a b => (fileName a).bytes < (fileName b).bytes := by
  refine List.pairwise_filterMap.mpr ((pairwise_textNames h).imp_of_mem ?_)
  intro a b ha hb hab s hs t ht
  obtain ⟨-, rfl⟩ := stem_text?_iff.mp ⟨(mem_textNames.mp ha).1, hs⟩
  obtain ⟨-, rfl⟩ := stem_text?_iff.mp ⟨(mem_textNames.mp hb).1, ht⟩
  exact hab

theorem nodup_of_ascending
    (h : stems.Pairwise fun a b => (fileName a).bytes < (fileName b).bytes) : stems.Nodup := by
  refine h.imp fun hlt heq => ?_
  rw [heq] at hlt
  exact List.lt_irrefl _ hlt

/-- The text files of a folder are listed in the order of their names. -/
theorem lists_textStems (h : fs.root.Proper) (hfolder : folder.bytes ≠ []) :
    Lists (TextFile fs.layout folder) (textStems (fs.entriesAt folder)) where
  ascending := pairwise_textStems (FileSystem.proper_entriesAt h).nodup
  mem_iff stem := by
    simp only [mem_textStems, textFile_iff h hfolder, exists_and_left]

section

variable {files : String → ByteArray → Prop}

/-- There is one such list. -/
theorem Lists.unique {stems' : List String} (h : Lists files stems) (h' : Lists files stems') :
    stems = stems' := by
  have hirrefl : Std.Irrefl fun a b : String => (fileName a).bytes < (fileName b).bytes :=
    ⟨fun _ => List.lt_irrefl _⟩
  have hasymm : Std.Asymm fun a b : String => (fileName a).bytes < (fileName b).bytes :=
    ⟨fun _ _ => List.lt_asymm⟩
  exact h.ascending.eq_of_mem_iff h'.ascending fun stem =>
    (h.mem_iff stem).trans (h'.mem_iff stem).symm

/-- What sources are made from can be read. -/
theorem Holds.readable (h : Holds files sources) : Readable files := by
  intro stem c hc
  obtain ⟨s, hs, rfl⟩ := List.mem_map.mp ((h.lists.mem_iff stem).mpr ⟨c, hc⟩)
  exact ⟨s.text, h.reads s hs c hc⟩

theorem Blocked.not_readable (h : Blocked files e) : ¬ Readable files := by
  obtain ⟨-, stem, c, hc, hnone, -⟩ := h
  intro hread
  obtain ⟨text, htext⟩ := hread stem c hc
  rw [hnone] at htext
  cases htext

end

/-! ## Sources -/

theorem TextFile.read_eq (h : TextFile fs.layout folder stem c) :
    fs.read (folder.child (fileName stem)) = textOf (.file c) := by
  rw [Manuscript.read_eq, h.2.2]
  rfl

theorem TextFile.sourceIn_eq_ok {s : Source} (h : TextFile fs.layout folder stem c) :
    sourceIn fs folder stem (fileName stem) = .ok s ↔
      s.name = stem ∧ String.fromUTF8? c = some s.text := by
  rw [sourceIn, Except.bind_pure_eq_ok, h.read_eq]
  cases htext : String.fromUTF8? c with
  | none => simp [textOf, htext]
  | some text =>
    obtain ⟨n, t⟩ := s
    simp [textOf, htext, eq_comm]

theorem TextFile.sourceIn_eq_error (h : TextFile fs.layout folder stem c) :
    sourceIn fs folder stem (fileName stem) = .error e ↔
      e = .notText ∧ String.fromUTF8? c = none := by
  rw [sourceIn, Except.bind_pure_eq_error, h.read_eq]
  cases htext : String.fromUTF8? c <;> simp [textOf, htext, eq_comm]

/-- The files that are read are those with a text before `.txt`. -/
theorem sourcesIn_eq : sourcesIn fs folder =
    (textStems (fs.entriesAt folder)).mapM fun stem => sourceIn fs folder stem (fileName stem) := by
  have hfiles : (textNames (fs.entriesAt folder)).filterMap
      (fun file => file.stem.text?.map (·, file)) =
        (textStems (fs.entriesAt folder)).map fun stem => (stem, fileName stem) := by
    rw [textStems, List.map_filterMap]
    refine List.filterMap_congr fun n hn => ?_
    cases hstem : n.stem.text? with
    | none => rfl
    | some stem =>
      obtain ⟨-, rfl⟩ := stem_text?_iff.mp ⟨(mem_textNames.mp hn).1, hstem⟩
      rfl
  rw [sourcesIn, hfiles, List.mapM_map]
  rfl

theorem names_of_forall₂
    (h : List.Forall₂ (fun stem s => sourceIn fs folder stem (fileName stem) = .ok s)
      stems sources) :
    stems = sources.map (·.name) ∧ ∀ s ∈ sources, ∀ c,
      TextFile fs.layout folder s.name c → String.fromUTF8? c = some s.text := by
  induction h with
  | nil => simp
  | cons hs _ ih =>
    obtain ⟨rfl, hreads⟩ := ih
    obtain ⟨text, -, rfl⟩ := Except.bind_pure_eq_ok.mp hs
    refine ⟨rfl, List.forall_mem_cons.mpr ⟨fun c hc => ?_, hreads⟩⟩
    exact (hc.sourceIn_eq_ok.mp hs).2

/-- What is read from a folder are the sources that its text files make. -/
theorem sourcesIn_eq_ok (h : fs.root.Proper) (hfolder : folder.bytes ≠ []) :
    sourcesIn fs folder = .ok sources ↔ Holds (TextFile fs.layout folder) sources := by
  have hlists := lists_textStems h hfolder
  rw [sourcesIn_eq, Except.mapM_eq_ok]
  constructor
  · intro hall
    obtain ⟨hnames, hreads⟩ := names_of_forall₂ hall
    exact ⟨hnames ▸ hlists, hreads⟩
  · intro hholds
    rw [hlists.unique hholds.lists, List.forall₂_map_left_iff, List.forall₂_same]
    intro s hs
    obtain ⟨c, hc⟩ := (hholds.lists.mem_iff s.name).mp (List.mem_map_of_mem hs)
    exact hc.sourceIn_eq_ok.mpr ⟨rfl, hholds.reads s hs c hc⟩

theorem blocked_of_sourcesIn (h : fs.root.Proper) (hfolder : folder.bytes ≠ [])
    (hs : sourcesIn fs folder = .error e) : Blocked (TextFile fs.layout folder) e := by
  have hlists := lists_textStems h hfolder
  rw [sourcesIn_eq] at hs
  obtain ⟨before, stem, after, hstems, hbefore, hstem⟩ := Except.exists_of_mapM_eq_error hs
  rw [hstems] at hlists
  obtain ⟨c, hc⟩ := (hlists.mem_iff stem).mp (by simp)
  obtain ⟨he, hnone⟩ := hc.sourceIn_eq_error.mp hstem
  refine ⟨he, stem, c, hc, hnone, fun n d hd hlt => ?_⟩
  obtain ⟨-, hafter, -⟩ := List.pairwise_append.mp hlists.ascending
  -- A lower name comes before.
  have hmem : n ∈ before := by
    rcases List.mem_append.mp ((hlists.mem_iff n).mpr ⟨d, hd⟩) with hmem | hmem
    · exact hmem
    · rcases List.mem_cons.mp hmem with rfl | hmem
      · exact absurd hlt (List.lt_irrefl _)
      · exact absurd (List.rel_of_pairwise_cons hafter hmem) (List.lt_asymm hlt)
  obtain ⟨s, hs⟩ := hbefore n hmem
  exact ⟨s.text, (hd.sourceIn_eq_ok.mp hs).2⟩

/-- What is in the way of reading a folder is the first text file that cannot be read. -/
theorem sourcesIn_eq_error (h : fs.root.Proper) (hfolder : folder.bytes ≠ []) :
    sourcesIn fs folder = .error e ↔ Blocked (TextFile fs.layout folder) e := by
  refine ⟨blocked_of_sourcesIn h hfolder, fun hblocked => ?_⟩
  cases hs : sourcesIn fs folder with
  | ok sources =>
    exact absurd ((sourcesIn_eq_ok h hfolder).mp hs).readable hblocked.not_readable
  | error o => rw [hblocked.1, (blocked_of_sourcesIn h hfolder hs).1]

theorem readable_iff (h : fs.root.Proper) (hfolder : folder.bytes ≠ []) :
    Readable (TextFile fs.layout folder) ↔ ∃ sources, sourcesIn fs folder = .ok sources := by
  constructor
  · intro hread
    cases hs : sourcesIn fs folder with
    | ok sources => exact ⟨sources, rfl⟩
    | error e => exact absurd hread (blocked_of_sourcesIn h hfolder hs).not_readable
  · rintro ⟨sources, hs⟩
    exact ((sourcesIn_eq_ok h hfolder).mp hs).readable

/-- The sources in a folder depend on its text files alone. -/
theorem sourcesIn_congr {fs' : FileSystem} {folder' : FilePath} (h : fs.root.Proper)
    (h' : fs'.root.Proper) (hfolder : folder.bytes ≠ []) (hfolder' : folder'.bytes ≠ [])
    (hfiles : TextFile fs'.layout folder' = TextFile fs.layout folder) :
    sourcesIn fs' folder' = sourcesIn fs folder := by
  cases hs : sourcesIn fs folder with
  | ok sources => rwa [sourcesIn_eq_ok h' hfolder', hfiles, ← sourcesIn_eq_ok h hfolder]
  | error e => rwa [sourcesIn_eq_error h' hfolder', hfiles, ← sourcesIn_eq_error h hfolder]

/-- Where there is no folder there are no sources. -/
theorem sourcesIn_of_missing (h : fs.layout folder ≠ .ok .folder) :
    sourcesIn fs folder = .ok [] := by
  have hnil : fs.entriesAt folder = [] := by
    unfold FileSystem.entriesAt
    split
    · rename_i hfind
      exact absurd (by rw [FileSystem.layout, hfind]; rfl) h
    · rfl
  rw [sourcesIn, hnil, textNames, List.filter_nil, List.map_nil, List.mergeSort_nil]
  rfl

/-- Two sources of one folder have different names. -/
theorem nodup_of_sourcesIn (h : fs.root.Proper) (hs : sourcesIn fs folder = .ok sources) :
    (sources.map (·.name)).Nodup := by
  rw [sourcesIn_eq, Except.mapM_eq_ok] at hs
  rw [← (names_of_forall₂ hs).1]
  exact nodup_of_ascending (pairwise_textStems (FileSystem.proper_entriesAt h).nodup)

/-! ## Manuscripts -/

/-- The folders of a manuscript. -/
def sections : List FileName := [.ofText "questions", .ofText "outcomes", .ofText "snippets"]

/-- The manuscript that a folder of this name describes. -/
structure Described (layout : Layout) (folder : FilePath) (name : String) (m : Manuscript) :
    Prop where
  cover_name : m.cover.name = name
  cover_text : Reads layout (folder.child (fileName name)) m.cover.text
  questions : Holds (TextFile layout (folder.child (.ofText "questions"))) m.questions
  outcomes : Holds (TextFile layout (folder.child (.ofText "outcomes"))) m.outcomes
  snippets : ∃ sources, Holds (TextFile layout (folder.child (.ofText "snippets"))) sources ∧
    ∀ n text, m.snippets[n]? = some text ↔ ⟨n, text⟩ ∈ sources

/-- What is first in the way of reading the manuscript. -/
inductive Obstructed (layout : Layout) (folder : FilePath) (name : String) (e : Obstacle) : Prop
  | cover : Unreadable layout (folder.child (fileName name)) e → Obstructed layout folder name e
  | questions {text : String} : Reads layout (folder.child (fileName name)) text →
      Blocked (TextFile layout (folder.child (.ofText "questions"))) e →
      Obstructed layout folder name e
  | outcomes {text : String} : Reads layout (folder.child (fileName name)) text →
      Readable (TextFile layout (folder.child (.ofText "questions"))) →
      Blocked (TextFile layout (folder.child (.ofText "outcomes"))) e →
      Obstructed layout folder name e
  | snippets {text : String} : Reads layout (folder.child (fileName name)) text →
      Readable (TextFile layout (folder.child (.ofText "questions"))) →
      Readable (TextFile layout (folder.child (.ofText "outcomes"))) →
      Blocked (TextFile layout (folder.child (.ofText "snippets"))) e →
      Obstructed layout folder name e

/-- Texts are found by the names of their sources. -/
theorem getElem?_ofList_sources (h : (sources.map (·.name)).Nodup) :
    (Std.ExtTreeMap.ofList (sources.map fun s => (s.name, s.text)))[name]? = some text ↔
      ⟨name, text⟩ ∈ sources := by
  have hdistinct : (sources.map fun s => (s.name, s.text)).Pairwise
      fun a b => ¬ compare a.1 b.1 = .eq :=
    List.pairwise_map.mpr ((List.pairwise_map.mp h).imp fun hne heq =>
      hne (Std.compare_eq_iff_eq.mp heq))
  have hget : ∀ s ∈ sources,
      (Std.ExtTreeMap.ofList (sources.map fun s => (s.name, s.text)))[s.name]? = some s.text :=
    fun s hs => Std.ExtTreeMap.getElem?_ofList_of_mem Std.ReflCmp.compare_self hdistinct
      (List.mem_map.mpr ⟨s, hs, rfl⟩)
  constructor
  · intro hsome
    by_cases hmem : name ∈ sources.map (·.name)
    · obtain ⟨⟨n, t⟩, hs, rfl⟩ := List.mem_map.mp hmem
      obtain rfl : t = text := Option.some.inj ((hget _ hs).symm.trans hsome)
      exact hs
    · rw [Std.ExtTreeMap.getElem?_ofList_of_contains_eq_false (by simpa using hmem)] at hsome
      cases hsome
  · exact hget _

theorem forall_sections {P : FileName → Prop} : (∀ part ∈ sections, P part) ↔
    P (.ofText "questions") ∧ P (.ofText "outcomes") ∧ P (.ofText "snippets") := by
  simp [sections]

theorem section_bytes_ne_nil (path : FilePath) :
    ∀ part ∈ sections, (path.child part).bytes ≠ [] := by
  have hne : ∀ n ∈ sections, n.bytes ≠ [] := by decide
  exact fun n hn => FilePath.child_bytes_ne_nil (.inr (hne n hn))

theorem load_eq (hname : flowName? path = some name) :
    load fs path = (do
      let text ← fs.read (path.child (fileName name))
      let questions ← sourcesIn fs (path.child (.ofText "questions"))
      let outcomes ← sourcesIn fs (path.child (.ofText "outcomes"))
      let snippets ← sourcesIn fs (path.child (.ofText "snippets"))
      return {
        cover := { name, text }
        questions
        outcomes
        snippets := Std.ExtTreeMap.ofList (snippets.map fun s => (s.name, s.text)) }) := by
  rw [load, hname]

theorem load_eq_ok (h : fs.root.Proper) (hname : flowName? path = some name) :
    load fs path = .ok m ↔ Described fs.layout path name m := by
  obtain ⟨hq, ho, hs⟩ := forall_sections.mp (section_bytes_ne_nil path)
  simp only [load_eq hname, Except.bind_eq_ok, read_eq_ok, sourcesIn_eq_ok h hq,
    sourcesIn_eq_ok h ho, sourcesIn_eq_ok h hs, pure, Except.pure, Except.ok.injEq]
  constructor
  · rintro ⟨text, htext, questions, hquestions, outcomes, houtcomes, sources, hsources, rfl⟩
    exact ⟨rfl, htext, hquestions, houtcomes, sources, hsources, fun n t =>
      getElem?_ofList_sources (nodup_of_ascending hsources.lists.ascending)⟩
  · rintro ⟨rfl, htext, hquestions, houtcomes, sources, hsources, hsnippets⟩
    refine ⟨_, htext, _, hquestions, _, houtcomes, sources, hsources, ?_⟩
    have heq : Std.ExtTreeMap.ofList (sources.map fun s => (s.name, s.text)) = m.snippets := by
      refine Std.ExtTreeMap.ext_getElem? fun n => Option.ext fun t => ?_
      rw [getElem?_ofList_sources (nodup_of_ascending hsources.lists.ascending), hsnippets]
    rw [heq]

theorem load_eq_error (h : fs.root.Proper) (hname : flowName? path = some name) :
    load fs path = .error e ↔ Obstructed fs.layout path name e := by
  obtain ⟨hq, ho, hs⟩ := forall_sections.mp (section_bytes_ne_nil path)
  simp only [load_eq hname, Except.bind_eq_error, read_eq_ok, read_eq_error,
    sourcesIn_eq_error h hq, sourcesIn_eq_error h ho, sourcesIn_eq_error h hs, pure, Except.pure,
    reduceCtorEq, and_false, exists_false, or_false]
  constructor
  · rintro (hcover | ⟨text, htext, hrest⟩)
    · exact .cover hcover
    rcases hrest with hquestions | ⟨questions, hquestions, hrest⟩
    · exact .questions htext hquestions
    have hquestions := (readable_iff h hq).mpr ⟨_, hquestions⟩
    rcases hrest with houtcomes | ⟨outcomes, houtcomes, hsnippets⟩
    · exact .outcomes htext hquestions houtcomes
    · exact .snippets htext hquestions ((readable_iff h ho).mpr ⟨_, houtcomes⟩) hsnippets
  · rintro (hcover | ⟨htext, hquestions⟩ | ⟨htext, hquestions, houtcomes⟩ |
      ⟨htext, hquestions, houtcomes, hsnippets⟩)
    · exact .inl hcover
    · exact .inr ⟨_, htext, .inl hquestions⟩
    · obtain ⟨_, hquestions⟩ := (readable_iff h hq).mp hquestions
      exact .inr ⟨_, htext, .inr ⟨_, hquestions, .inl houtcomes⟩⟩
    · obtain ⟨_, hquestions⟩ := (readable_iff h hq).mp hquestions
      obtain ⟨_, houtcomes⟩ := (readable_iff h ho).mp houtcomes
      exact .inr ⟨_, htext, .inr ⟨_, hquestions, .inr ⟨_, houtcomes, hsnippets⟩⟩⟩

theorem exists_load_iff (h : fs.root.Proper) (hname : flowName? path = some name) :
    (∃ m, load fs path = .ok m) ↔
      (∃ text, Reads fs.layout (path.child (fileName name)) text) ∧
      ∀ part ∈ sections, Readable (TextFile fs.layout (path.child part)) := by
  rw [forall_sections]
  constructor
  · rintro ⟨m, hm⟩
    obtain ⟨-, htext, hquestions, houtcomes, sources, hsources, -⟩ := (load_eq_ok h hname).mp hm
    exact ⟨⟨_, htext⟩, hquestions.readable, houtcomes.readable, hsources.readable⟩
  · rintro ⟨⟨text, htext⟩, hquestions, houtcomes, hsnippets⟩
    cases hm : load fs path with
    | ok m => exact ⟨m, rfl⟩
    | error e =>
      rcases (load_eq_error h hname).mp hm with hcover | ⟨-, hblocked⟩ | ⟨-, -, hblocked⟩ |
        ⟨-, -, -, hblocked⟩
      · rw [← read_eq_error, read_eq_ok.mpr htext] at hcover
        cases hcover
      · exact absurd hquestions hblocked.not_readable
      · exact absurd houtcomes hblocked.not_readable
      · exact absurd hsnippets hblocked.not_readable

/-- Loading depends on the cover and on the text files in the sections alone. -/
theorem load_congr {fs' : FileSystem} {path' : FilePath} (h : fs.root.Proper)
    (h' : fs'.root.Proper) (hname : flowName? path = some name)
    (hname' : flowName? path' = some name)
    (hcover : fs'.read (path'.child (fileName name)) = fs.read (path.child (fileName name)))
    (hfiles : ∀ part ∈ sections,
      TextFile fs'.layout (path'.child part) = TextFile fs.layout (path.child part)) :
    load fs' path' = load fs path := by
  have hsources : ∀ part ∈ sections,
      sourcesIn fs' (path'.child part) = sourcesIn fs (path.child part) := fun part hpart =>
    sourcesIn_congr h h' (section_bytes_ne_nil _ part hpart) (section_bytes_ne_nil _ part hpart)
      (hfiles part hpart)
  obtain ⟨hquestions, houtcomes, hsnippets⟩ := forall_sections.mp hsources
  rw [load_eq hname, load_eq hname', hcover, hquestions, houtcomes, hsnippets]

/-- The order of entries makes no difference. -/
theorem load_relisted {root : FileTree} (h : fs.root.Proper) (hname : flowName? path = some name)
    (hlisted : Relisted fs.root root) : load { fs with root } path = load fs path := by
  have hlayout := hlisted.layout_eq h
  refine load_congr h (hlisted.alike h).1 hname hname ?_ fun part _ => by rw [hlayout]
  rw [read_eq, read_eq, hlayout]

/-- **Loading a manuscript.** From a folder with a usable name, wherever its path starts, the
manuscript that its layout describes is loaded, if the cover and every text file in the sections can
be read, and otherwise what is first in the way is reported. Sections that are not there count as
empty, and the sources of one section have distinct names. The manuscript depends on nothing but the
cover and the text files in the sections: not on the order in which entries are listed, nor on a
file whose name is no text. -/
theorem load_of_layout {fs : FileSystem} {path : FilePath} {name : String}
    (hroot : fs.root.Proper) (hname : flowName? path = some name) :
    (∀ m, load fs path = .ok m ↔ Described fs.layout path name m) ∧
    ((∃ m, load fs path = .ok m) ↔
      (∃ text, Reads fs.layout (path.child (fileName name)) text) ∧
      ∀ part ∈ sections, Readable (TextFile fs.layout (path.child part))) ∧
    (∀ e, load fs path = .error e ↔ Obstructed fs.layout path name e) ∧
    (∀ part, fs.layout part ≠ .ok .folder → sourcesIn fs part = .ok []) ∧
    (∀ part sources, sourcesIn fs part = .ok sources → (sources.map (·.name)).Nodup) ∧
    (∀ fs' path', fs'.root.Proper → flowName? path' = some name →
      fs'.read (path'.child (fileName name)) = fs.read (path.child (fileName name)) →
      (∀ part ∈ sections,
        TextFile fs'.layout (path'.child part) = TextFile fs.layout (path.child part)) →
      load fs' path' = load fs path) ∧
    (∀ root, Relisted fs.root root → load { fs with root } path = load fs path) := by
  refine ⟨fun _ => load_eq_ok hroot hname, exists_load_iff hroot hname,
    fun _ => load_eq_error hroot hname, fun _ => sourcesIn_of_missing,
    fun _ _ => nodup_of_sourcesIn hroot, ?_, fun _ => load_relisted hroot hname⟩
  exact fun _ _ hroot' hname' => load_congr hroot hroot' hname hname'

/-- A file system in which `/flows/visa` is the folder of a manuscript, with a working folder
elsewhere. Two more files among the questions end in `.txt` and hold no text: one has nothing before
that, and the other has a byte there that is no text. -/
def visa : FileSystem where
  root := FileTree.folder []
    |>.addFile "flows/visa/visa.txt" "Visa".toUTF8
    |>.addFile "flows/visa/questions/a.txt" "A".toUTF8
    |>.addFile "flows/visa/questions/b.txt" "B".toUTF8
    |>.addFile "flows/visa/questions/.txt" ⟨#[0xFF]⟩
    |>.addFile ⟨Text.bytes "flows/visa/questions/" ++ 0xFF :: Text.bytes ".txt"⟩ ⟨#[0xFF]⟩
    |>.addFile "home/notes.txt" "Notes".toUTF8
  here := [.ofText "home"]

theorem proper_visa : visa.root.Proper :=
  proper_nil.addFile (by decide +kernel) |>.addFile (by decide +kernel)
    |>.addFile (by decide +kernel) |>.addFile (by decide +kernel)
    |>.addFile (by decide +kernel) |>.addFile (by decide +kernel)

/-- Its questions, listed against the order of their names. -/
theorem entriesAt_visa :
    visa.entriesAt ((FilePath.ofText "/flows/visa/").child (.ofText "questions")) =
      [(⟨0xFF :: Text.bytes ".txt"⟩, .file ⟨#[0xFF]⟩), (fileName "", .file ⟨#[0xFF]⟩),
        (fileName "b", .file "B".toUTF8), (fileName "a", .file "A".toUTF8)] := by
  rfl

theorem textFile_visa :
    TextFile visa.layout ((FilePath.ofText "/flows/visa/").child (.ofText "questions")) stem c ↔
      stem = "b" ∧ c = "B".toUTF8 ∨ stem = "a" ∧ c = "A".toUTF8 := by
  have hbroken : fileName stem ≠ ⟨0xFF :: Text.bytes ".txt"⟩ := fun h => by
    have hbytes := fileName_bytes.symm.trans (congrArg FileName.bytes h)
    have hstem : [0xFF] = Text.bytes stem := (List.append_cancel_right hbytes).symm
    have hnone : Text.ofBytes? [0xFF] = none := by decide +kernel
    rw [Text.ofBytes?_eq_some.mpr hstem] at hnone
    cases hnone
  have hname : ∀ s, fileName stem = fileName s ↔ stem = s := fun s =>
    ⟨fileName_injective, congrArg fileName⟩
  rw [textFile_iff proper_visa (by decide +kernel), entriesAt_visa]
  simp only [List.mem_cons, Prod.mk.injEq, hbroken, hname, FileTree.file.injEq, List.not_mem_nil,
    false_and, false_or, or_false]
  constructor
  · rintro ⟨hne, ⟨rfl, -⟩ | h⟩
    · exact absurd rfl hne
    · exact h
  · rintro (⟨rfl, rfl⟩ | ⟨rfl, rfl⟩)
    · exact ⟨by decide, .inr (.inl ⟨rfl, rfl⟩)⟩
    · exact ⟨by decide, .inr (.inr ⟨rfl, rfl⟩)⟩

theorem fromUTF8?_toUTF8 (text : String) : String.fromUTF8? text.toUTF8 = some text := by
  rw [String.fromUTF8?, dif_pos (show text.toUTF8.IsValidUTF8 from text.isValidUTF8)]
  rfl

theorem holds_nil (h : fs.root.Proper) (hfolder : folder.bytes ≠ [])
    (hnil : fs.entriesAt folder = []) : Holds (TextFile fs.layout folder) [] where
  lists := ⟨.nil, fun stem => by simp [textFile_iff h hfolder, hnil]⟩
  reads := List.forall_mem_nil _

/-- The manuscript in the folder. -/
def visaManuscript : Manuscript where
  cover := ⟨"visa", "Visa"⟩
  questions := [⟨"a", "A"⟩, ⟨"b", "B"⟩]
  outcomes := []
  snippets := ∅

theorem described_visa :
    Described visa.layout (FilePath.ofText "/flows/visa/") "visa" visaManuscript where
  cover_name := rfl
  cover_text := ⟨_, rfl, fromUTF8?_toUTF8 "Visa"⟩
  questions := by
    refine ⟨⟨by decide +kernel, fun stem => ?_⟩, ?_⟩
    · simp [textFile_visa, visaManuscript, exists_or, or_comm]
    · refine List.forall_mem_cons.mpr ⟨fun c hc => ?_, List.forall_mem_singleton.mpr fun c hc => ?_⟩
      · obtain ⟨hb, -⟩ | ⟨-, rfl⟩ := textFile_visa.mp hc
        · exact absurd hb (by decide)
        · exact fromUTF8?_toUTF8 "A"
      · obtain ⟨-, rfl⟩ | ⟨ha, -⟩ := textFile_visa.mp hc
        · exact fromUTF8?_toUTF8 "B"
        · exact absurd ha (by decide)
  outcomes := holds_nil proper_visa (by decide +kernel) rfl
  snippets := ⟨[], holds_nil proper_visa (by decide +kernel) rfl, fun n text => by
    simp [visaManuscript]⟩

theorem load_of_layout_visa :
    visa.root.Proper ∧ flowName? "/flows/visa/" = some "visa" ∧
      load visa "/flows/visa/" = .ok visaManuscript ∧
      flowName? "../flows//visa" = some "visa" ∧
      visa.read ((FilePath.ofText "../flows//visa").child (fileName "visa")) =
        visa.read ((FilePath.ofText "/flows/visa/").child (fileName "visa")) ∧
      (∀ part ∈ sections, TextFile visa.layout ((FilePath.ofText "../flows//visa").child part) =
        TextFile visa.layout ((FilePath.ofText "/flows/visa/").child part)) ∧
      load visa "../flows//visa" = .ok visaManuscript := by
  have hname : flowName? "/flows/visa/" = some "visa" := by decide +kernel
  have hname' : flowName? "../flows//visa" = some "visa" := by decide +kernel
  have hfind : ∀ n : FileName, n.Proper →
      visa.find ((FilePath.ofText "../flows//visa").child n) =
        visa.find ((FilePath.ofText "/flows/visa/").child n) := fun n hn =>
    FileSystem.find_child_congr (by decide +kernel) (by decide +kernel) hn rfl
  have hcover : visa.read ((FilePath.ofText "../flows//visa").child (fileName "visa")) =
      visa.read ((FilePath.ofText "/flows/visa/").child (fileName "visa")) := by
    rw [FileSystem.read, hfind _ (by decide +kernel), FileSystem.read]
  have hfiles : ∀ part ∈ sections,
      TextFile visa.layout ((FilePath.ofText "../flows//visa").child part) =
        TextFile visa.layout ((FilePath.ofText "/flows/visa/").child part) := by
    have hproper : ∀ part ∈ sections, part.Proper := by decide +kernel
    intro part hpart
    funext stem c
    rw [textFile_iff proper_visa (section_bytes_ne_nil _ part hpart),
      textFile_iff proper_visa (section_bytes_ne_nil _ part hpart), FileSystem.entriesAt,
      hfind part (hproper part hpart), FileSystem.entriesAt]
  obtain ⟨hload, -, -, -, -, hsame, -⟩ := load_of_layout proper_visa hname
  have hvisa := (hload _).mpr described_visa
  exact ⟨proper_visa, hname, hvisa, hname', hcover, hfiles,
    (hsame visa _ proper_visa hname' hcover hfiles).trans hvisa⟩

/-- **What is passed over.** It is not enough for failure that some regular file in a section whose
extension is `txt` cannot be read: its name may be no text. Nor that some file whose name is a text
that ends in `.txt` cannot be read: there may be nothing before that. -/
theorem load_passes_over :
    (¬ ∀ (fs : FileSystem) path name, fs.root.Proper → flowName? path = some name →
      ((∃ m, load fs path = .ok m) ↔
        (∃ text, Reads fs.layout (path.child (fileName name)) text) ∧
        ∀ part ∈ sections, ∀ n : FileName, n.Proper → n.extension? = some (.ofText "txt") →
          ∀ c, fs.layout ((path.child part).child n) = .ok (.file c) →
            ∃ text, String.fromUTF8? c = some text)) ∧
    ¬ ∀ (fs : FileSystem) path name, fs.root.Proper → flowName? path = some name →
      ((∃ m, load fs path = .ok m) ↔
        (∃ text, Reads fs.layout (path.child (fileName name)) text) ∧
        ∀ part ∈ sections, ∀ stem, (fileName stem).Proper →
          ∀ c, fs.layout ((path.child part).child (fileName stem)) = .ok (.file c) →
            ∃ text, String.fromUTF8? c = some text) := by
  have hname : flowName? "/flows/visa/" = some "visa" := by decide +kernel
  have hload := (load_eq_ok proper_visa hname).mpr described_visa
  have hnone : ∀ text, String.fromUTF8? ⟨#[0xFF]⟩ ≠ some text := by
    have : String.fromUTF8? ⟨#[0xFF]⟩ = none := by decide +kernel
    simp [this]
  refine ⟨fun h => ?_, fun h => ?_⟩
  · obtain ⟨-, hread⟩ := (h visa _ _ proper_visa hname).mp ⟨_, hload⟩
    obtain ⟨text, htext⟩ := hread (.ofText "questions") (by decide) ⟨0xFF :: Text.bytes ".txt"⟩
      (by decide +kernel) (by decide +kernel) _
      ((layout_child_iff proper_visa (by decide +kernel) (by decide +kernel)).mpr
        (entriesAt_visa ▸ List.mem_cons_self))
    exact hnone text htext
  · obtain ⟨-, hread⟩ := (h visa _ _ proper_visa hname).mp ⟨_, hload⟩
    obtain ⟨text, htext⟩ := hread (.ofText "questions") (by decide) "" (by decide +kernel) _
      ((layout_child_iff proper_visa (by decide +kernel) (by decide +kernel)).mpr
        (entriesAt_visa ▸ List.mem_cons_of_mem _ List.mem_cons_self))
    exact hnone text htext

end Manuscript

end Interview
