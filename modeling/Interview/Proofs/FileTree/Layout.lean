import Interview.FileTree
import Mathlib.Data.List.Forall2
import Mathlib.Data.List.Nodup

/-!
# What stands where in a file system

All that can be seen of a file system from outside is its layout: for every path the file or folder
at its end, or the obstacle on the way. The order in which folders list their entries is no part of
it.

* `FileSystem.Layout`, `FileSystem.layout`: what stands at the end of each path.
* `FileTree.Proper`: the names in a folder are distinct, and each can be a step of a path.
* `FileTree.Proper.addFile`: files added to a proper tree leave it proper.
* `FilePath.steps_child`, `FileSystem.find_child`: the end of a path with one more name.
* `FileTree.Relisted.layout_eq`: with the entries of its folders in another order, a file system has
  the same layout.
-/

namespace Interview

/-- A name that an entry of a folder can have: as a step of a path it leads to that entry. -/
structure FileName.Proper (n : FileName) : Prop where
  ne_empty : n ≠ .ofText ""
  ne_dot : n ≠ .ofText "."
  ne_dots : n ≠ .ofText ".."
  slash_notMem : FilePath.slash ∉ n.bytes
  null_notMem : 0 ∉ n.bytes

instance : DecidablePred FileName.Proper := fun n =>
  decidable_of_iff (n ≠ .ofText "" ∧ n ≠ .ofText "." ∧ n ≠ .ofText ".." ∧
      FilePath.slash ∉ n.bytes ∧ 0 ∉ n.bytes)
    ⟨fun ⟨he, hd, hds, hs, hn⟩ => ⟨he, hd, hds, hs, hn⟩,
      fun ⟨he, hd, hds, hs, hn⟩ => ⟨he, hd, hds, hs, hn⟩⟩

namespace FileTree

/-- What can stand at the end of a path. -/
inductive Stand where
  /-- A file with these bytes. -/
  | file (contents : ByteArray)
  /-- A folder. -/
  | folder

/-- What a tree is, apart from what it holds as a folder. -/
def stand : FileTree → Stand
  | file contents => .file contents
  | folder _ => .folder

/-- A tree as file systems hold it: the names in a folder are distinct, and each leads to its
entry. -/
inductive Proper : FileTree → Prop
  | file (contents : ByteArray) : Proper (file contents)
  | folder {entries : List (FileName × FileTree)} : (entries.map (·.1)).Nodup →
      (∀ e ∈ entries, e.1.Proper) → (∀ e ∈ entries, Proper e.2) → Proper (folder entries)

/-- The same files and folders, with the entries of some folders in another order. -/
inductive Relisted : FileTree → FileTree → Prop
  | refl (tree : FileTree) : Relisted tree tree
  /-- The entries of one folder are listed in another order. -/
  | perm {entries entries' : List (FileName × FileTree)} : entries.Perm entries' →
      Relisted (folder entries) (folder entries')
  /-- What one entry of a folder holds is listed in another order. -/
  | inside {name : FileName} {tree tree' : FileTree} {before after : List (FileName × FileTree)} :
      Relisted tree tree' →
      Relisted (folder (before ++ (name, tree) :: after)) (folder (before ++ (name, tree') :: after))
  | trans {tree tree' tree'' : FileTree} : Relisted tree tree' → Relisted tree' tree'' →
      Relisted tree tree''

variable {tree tree' : FileTree} {above above' : List FileTree} {name : FileName}
  {names : List FileName} {entries entries' : List (FileName × FileTree)} {p : FilePath}

/-! ## Names in a folder -/

theorem mem_of_lookup? (h : lookup? entries name = some tree) : (name, tree) ∈ entries := by
  obtain ⟨⟨n, t⟩, hfind, rfl⟩ := Option.map_eq_some_iff.mp h
  obtain rfl : n = name := by simpa using List.find?_some hfind
  exact List.mem_of_find?_eq_some hfind

theorem lookup?_cons {n : FileName} :
    lookup? ((n, tree) :: entries) name = if n = name then some tree else lookup? entries name := by
  unfold lookup?
  by_cases h : n = name <;> simp [h]

theorem lookup?_append : lookup? (entries ++ entries') name =
    (lookup? entries name).or (lookup? entries' name) := by
  unfold lookup?
  rw [List.find?_append, Option.map_or]

/-- The name of an entry leads to it, as no other entry has that name. -/
theorem lookup?_eq_some_iff (h : (entries.map (·.1)).Nodup) :
    lookup? entries name = some tree ↔ (name, tree) ∈ entries := by
  refine ⟨mem_of_lookup?, fun hmem => ?_⟩
  induction entries with
  | nil => simp at hmem
  | cons entry entries ih =>
    obtain ⟨n, t⟩ := entry
    rw [List.map_cons, List.nodup_cons] at h
    rw [lookup?_cons]
    rcases List.mem_cons.mp hmem with heq | hmem
    · obtain ⟨rfl, rfl⟩ := Prod.mk.inj heq
      rw [if_pos rfl]
    · have hne : n ≠ name := fun heq => h.1 (List.mem_map.mpr ⟨_, hmem, heq.symm⟩)
      rw [if_neg hne, ih h.2 hmem]

theorem lookup?_perm (h : (entries.map (·.1)).Nodup) (hp : entries.Perm entries') :
    lookup? entries name = lookup? entries' name := by
  ext t
  rw [lookup?_eq_some_iff h, lookup?_eq_some_iff ((hp.map _).nodup_iff.mp h), hp.mem_iff]

/-! ## Proper trees -/

theorem Proper.nodup (h : Proper (.folder entries)) : (entries.map (·.1)).Nodup := by
  cases h with | folder h _ _ => exact h

theorem Proper.entry (h : Proper (.folder entries)) {entry : FileName × FileTree}
    (hmem : entry ∈ entries) : Proper entry.2 := by
  cases h with | folder _ _ h => exact h entry hmem

theorem Proper.entryName (h : Proper (.folder entries)) {entry : FileName × FileTree}
    (hmem : entry ∈ entries) : entry.1.Proper := by
  cases h with | folder _ h _ => exact h entry hmem

theorem proper_nil : Proper (.folder []) :=
  .folder .nil (List.forall_mem_nil _) (List.forall_mem_nil _)

/-- What is found in a proper tree is proper. -/
theorem Proper.follow (h : Proper tree) (ha : ∀ t ∈ above, Proper t)
    (hfollow : follow tree above names = .ok tree') : Proper tree' := by
  induction names generalizing tree above with
  | nil =>
    obtain rfl : tree = tree' := Except.ok.inj hfollow
    exact h
  | cons name names ih =>
    cases tree with
    | file => cases hfollow
    | folder entries =>
      simp only [FileTree.follow] at hfollow
      split at hfollow
      · exact ih h ha hfollow
      · split at hfollow
        · cases above with
          | nil => exact ih h (List.forall_mem_nil _) hfollow
          | cons parent above =>
            rw [List.forall_mem_cons] at ha
            exact ih ha.1 ha.2 hfollow
        · cases hnext : lookup? entries name with
          | none => rw [hnext] at hfollow; cases hfollow
          | some next =>
            rw [hnext] at hfollow
            exact ih (h.entry (mem_of_lookup? hnext)) (List.forall_mem_cons.mpr ⟨h, ha⟩) hfollow

/-- What is put into a proper tree leaves it proper. -/
theorem Proper.update {f : FileTree → FileTree} (hf : ∀ {t}, Proper t → Proper (f t))
    (hnames : ∀ n ∈ names, n.Proper) (h : Proper tree) : Proper (tree.update f names) := by
  induction names generalizing tree with
  | nil => exact hf h
  | cons name names ih =>
    rw [List.forall_mem_cons] at hnames
    -- A file on the way gives way to an empty folder.
    obtain ⟨entries, hentries, heq⟩ : ∃ entries, Proper (.folder entries) ∧
        tree.update f (name :: names) = .folder
          ((name, update f names ((lookup? entries name).getD (.folder []))) ::
            entries.filter (·.1 != name)) := by
      cases tree with
      | file => exact ⟨[], proper_nil, rfl⟩
      | folder entries => exact ⟨entries, h, rfl⟩
    have hold : Proper ((lookup? entries name).getD (.folder [])) := by
      cases hlookup : lookup? entries name with
      | none => exact proper_nil
      | some old => exact hentries.entry (mem_of_lookup? hlookup)
    rw [heq]
    refine .folder ?_ ?_ ?_
    · rw [List.map_cons, List.nodup_cons]
      exact ⟨by simp, hentries.nodup.sublist (List.filter_sublist.map _)⟩
    · exact List.forall_mem_cons.mpr ⟨hnames.1, fun e he =>
        hentries.entryName (List.mem_of_mem_filter he)⟩
    · exact List.forall_mem_cons.mpr ⟨ih hnames.2 hold, fun e he =>
        hentries.entry (List.mem_of_mem_filter he)⟩

/-- Files added to a proper tree leave it proper. -/
theorem Proper.addFile {contents : ByteArray} (h : Proper tree) (hp : ∀ n ∈ p.names, n.Proper) :
    Proper (tree.addFile p contents) :=
  h.update (fun _ => .file contents) hp

/-! ## One more name -/

/-- What a name leads to from the tree it is looked up in, unless it leads back. -/
def enter (name : FileName) : FileTree → Except Obstacle FileTree
  | file _ => .error .notFolder
  | folder entries =>
    if name = .ofText "" ∨ name = .ofText "." then .ok (folder entries)
    else
      match lookup? entries name with
      | some next => .ok next
      | none => .error .notFound

theorem follow_concat (h : name ≠ .ofText "..") :
    follow tree above (names ++ [name]) = (follow tree above names).bind (enter name) := by
  induction names generalizing tree above with
  | nil =>
    cases tree with
    | file => rfl
    | folder entries =>
      cases hnext : lookup? entries name <;>
        simp [FileTree.follow, h, Except.bind, enter, hnext]
  | cons n names ih =>
    cases tree with
    | file => rfl
    | folder entries =>
      simp only [List.cons_append, FileTree.follow]
      split
      · exact ih
      · split
        · cases above <;> exact ih
        · cases lookup? entries n with
          | none => rfl
          | some next => exact ih

/-- A name is looked up in a folder, with or without a slash at the end of its path. -/
theorem enter_empty_bind (x : Except Obstacle FileTree) :
    (x.bind (enter (.ofText ""))).bind (enter name) = x.bind (enter name) := by
  cases x with
  | error e => rfl
  | ok tree => cases tree <;> rfl

end FileTree

namespace FilePath

variable {p : FilePath} {n : FileName}

theorem child_of_slash {q : List UInt8} (hp : p.bytes = q ++ [slash]) :
    p.child n = ⟨q ++ slash :: n.bytes⟩ := by
  simp [child, hp]

theorem child_of_no_slash (hne : p.bytes ≠ []) (hp : p.bytes.getLast? ≠ some slash) :
    p.child n = ⟨p.bytes ++ slash :: n.bytes⟩ := by
  simp [child, hne, hp]

theorem child_bytes_ne_nil (h : p.bytes ≠ [] ∨ n.bytes ≠ []) : (p.child n).bytes ≠ [] := by
  unfold child
  split
  · simpa [imp_iff_not_or] using h
  · simp

theorem hasNull_child (hn : n.Proper) : (p.child n).hasNull = p.hasNull := by
  have hslash : (slash == 0) = false := rfl
  unfold child
  split <;> simp [hasNull, hn.null_notMem, slash]

theorem isAbsolute_child (hp : p.bytes ≠ []) : (p.child n).isAbsolute = p.isAbsolute := by
  obtain ⟨b, bs, hb⟩ := List.exists_cons_of_ne_nil hp
  unfold child
  split <;> simp [isAbsolute, hb]

theorem steps_append {q r : List UInt8} :
    steps ⟨q ++ slash :: r⟩ = steps ⟨q⟩ ++ steps ⟨r⟩ := by
  have hsplit : (q ++ slash :: r).splitOn slash = q.splitOn slash ++ r.splitOn slash :=
    List.splitOnP_append_cons q r (beq_self_eq_true slash)
  rw [steps, hsplit, List.map_append, steps, steps]

theorem steps_of_proper (hn : n.Proper) : steps ⟨n.bytes⟩ = [n] := by
  have hslash : ∀ b ∈ n.bytes, (b == slash) = false := fun b hb =>
    beq_eq_false_iff_ne.mpr fun heq => hn.slash_notMem (heq ▸ hb)
  rw [steps, List.splitOn, List.splitOnP_eq_singleton hslash]
  rfl

/-- The name is the last step, in place of the empty one after a slash at the end. -/
theorem steps_child (hp : p.bytes ≠ []) (hn : n.Proper) : ∃ before,
    (p.child n).steps = before ++ [n] ∧
      (p.steps = before ∨ p.steps = before ++ [.ofText ""]) := by
  by_cases hslash : p.bytes.getLast? = some slash
  · obtain ⟨q, hq⟩ := List.getLast?_eq_some_iff.mp hslash
    refine ⟨steps ⟨q⟩, ?_, .inr ?_⟩
    · rw [child_of_slash hq, steps_append, steps_of_proper hn]
    · obtain ⟨bs⟩ := p
      cases hq
      exact steps_append
  · refine ⟨p.steps, ?_, .inl rfl⟩
    rw [child_of_no_slash hp hslash, steps_append, steps_of_proper hn]

end FilePath

/-! ## Layouts -/

namespace FileSystem

open FileTree

/-- What stands at the end of each path, or the obstacle on the way. -/
abbrev Layout := FilePath → Except Obstacle Stand

/-- The layout of a file system. -/
def layout (fs : FileSystem) : Layout := fun p => (fs.find p).map stand

variable {fs : FileSystem} {p : FilePath} {n : FileName} {tree : FileTree}

/-- The steps that a path takes from the root. -/
def stepsOf (fs : FileSystem) (p : FilePath) : List FileName :=
  if p.isAbsolute then p.steps else fs.here ++ p.steps

theorem find_eq (hp : p.bytes ≠ []) :
    fs.find p = if p.hasNull then .error .nullCharacter else fs.root.follow [] (fs.stepsOf p) := by
  unfold find stepsOf
  rw [if_neg hp]
  split
  · rfl
  · split <;> rfl

theorem proper_of_find (h : fs.root.Proper) (hfind : fs.find p = .ok tree) : tree.Proper := by
  unfold find at hfind
  split at hfind
  · cases hfind
  · split at hfind
    · cases hfind
    · split at hfind <;> exact h.follow (List.forall_mem_nil _) hfind

theorem proper_entriesAt (h : fs.root.Proper) : Proper (.folder (fs.entriesAt p)) := by
  unfold entriesAt
  split
  · rename_i hfind
    exact proper_of_find h hfind
  · exact proper_nil

/-- The end of a path with one more name. -/
theorem find_child (hp : p.bytes ≠ []) (hn : n.Proper) :
    fs.find (p.child n) = (fs.find p).bind (enter n) := by
  rw [find_eq hp, find_eq (FilePath.child_bytes_ne_nil (.inl hp)), FilePath.hasNull_child hn]
  split
  · rfl
  · obtain ⟨before, hchild, hsteps⟩ := FilePath.steps_child hp hn
    -- Either way of writing the path leads to the same folder.
    have hbefore : ∃ xs, fs.stepsOf (p.child n) = xs ++ [n] ∧
        (fs.stepsOf p = xs ∨ fs.stepsOf p = xs ++ [.ofText ""]) := by
      unfold stepsOf
      rw [FilePath.isAbsolute_child hp, hchild]
      split
      · exact ⟨before, rfl, hsteps⟩
      · refine ⟨fs.here ++ before, (List.append_assoc ..).symm, ?_⟩
        exact hsteps.imp (congrArg _) fun h => by rw [h, List.append_assoc]
    obtain ⟨xs, hxs, hp | hp⟩ := hbefore
    · rw [hxs, hp, follow_concat hn.ne_dots]
    · rw [hxs, hp, follow_concat hn.ne_dots, follow_concat (by decide), enter_empty_bind]

/-- Paths to one folder lead to the same entries. -/
theorem find_child_congr {p' : FilePath} (hp : p.bytes ≠ []) (hp' : p'.bytes ≠ []) (hn : n.Proper)
    (h : fs.find p' = fs.find p) : fs.find (p'.child n) = fs.find (p.child n) := by
  rw [find_child hp' hn, h, find_child hp hn]

end FileSystem

namespace FileTree

variable {tree tree' : FileTree} {above above' : List FileTree} {name : FileName}
  {names : List FileName} {entries entries' : List (FileName × FileTree)}

/-! ## Other orders -/

/-- Two files, or two folders with entries of the same names that hold the same in another order. -/
inductive Alike : FileTree → FileTree → Prop
  | file (contents : ByteArray) : Alike (file contents) (file contents)
  | folder {entries entries' : List (FileName × FileTree)} :
      (∀ {name t}, lookup? entries name = some t →
        ∃ t', lookup? entries' name = some t' ∧ Relisted t t') →
      (∀ {name}, lookup? entries name = none → lookup? entries' name = none) →
      Alike (folder entries) (folder entries')

theorem Alike.refl : (tree : FileTree) → Alike tree tree
  | .file contents => .file contents
  | .folder _ => .folder (fun {_ t} h => ⟨t, h, .refl t⟩) id

theorem Relisted.alike (h : Relisted tree tree') (hp : Proper tree) :
    Proper tree' ∧ Alike tree tree' := by
  induction h with
  | refl tree => exact ⟨hp, .refl tree⟩
  | perm hperm =>
    refine ⟨.folder ((hperm.map _).nodup_iff.mp hp.nodup) ?_ ?_, .folder ?_ ?_⟩
    · exact fun e he => hp.entryName (hperm.mem_iff.mpr he)
    · exact fun e he => hp.entry (hperm.mem_iff.mpr he)
    · exact fun {_ t} h => ⟨t, lookup?_perm hp.nodup hperm ▸ h, .refl t⟩
    · exact fun {_} h => lookup?_perm hp.nodup hperm ▸ h
  | @inside name tree tree' before after h ih =>
    obtain ⟨_⟩ | ⟨hnodup, hname, hentry⟩ := hp
    simp only [List.forall_mem_append, List.forall_mem_cons] at hname hentry
    refine ⟨.folder ?_ ?_ ?_, .folder ?_ ?_⟩
    · simpa only [List.map_append, List.map_cons] using hnodup
    · simpa only [List.forall_mem_append, List.forall_mem_cons] using hname
    · simpa only [List.forall_mem_append, List.forall_mem_cons] using
        ⟨hentry.1, (ih hentry.2.1).1, hentry.2.2⟩
    · intro n t ht
      rw [lookup?_append, lookup?_cons] at ht ⊢
      cases hbefore : lookup? before n with
      | some u =>
        rw [hbefore] at ht
        exact ⟨t, ht, .refl t⟩
      | none =>
        rw [hbefore, Option.none_or] at ht
        rw [Option.none_or]
        split at ht
        · rw [← Option.some.inj ht, if_pos ‹_›]
          exact ⟨tree', rfl, h⟩
        · rw [if_neg ‹_›]
          exact ⟨t, ht, .refl t⟩
    · intro n ht
      rw [lookup?_append, lookup?_cons, Option.or_eq_none_iff] at ht ⊢
      refine ⟨ht.1, ?_⟩
      split
      · rw [if_pos ‹_›] at ht
        exact absurd ht.2 (by simp)
      · simpa only [if_neg ‹_›] using ht.2
  | trans _ _ ih ih' =>
    obtain ⟨hp', h⟩ := ih hp
    obtain ⟨hp'', h'⟩ := ih' hp'
    refine ⟨hp'', ?_⟩
    cases h with
    | file => exact h'
    | folder hsome hnone =>
      cases h' with
      | folder hsome' hnone' =>
        refine .folder (fun ht => ?_) fun ht => hnone' (hnone ht)
        obtain ⟨t', ht', hrel⟩ := hsome ht
        obtain ⟨t'', ht'', hrel'⟩ := hsome' ht'
        exact ⟨t'', ht'', hrel.trans hrel'⟩

/-- Names lead to the same things, whatever the order of entries. -/
theorem Relisted.map_follow (h : Relisted tree tree') (hp : Proper tree)
    (ha : List.Forall₂ Relisted above above') (hap : ∀ t ∈ above, Proper t) :
    (follow tree above names).map stand = (follow tree' above' names).map stand := by
  induction names generalizing tree tree' above above' with
  | nil => cases (h.alike hp).2 <;> rfl
  | cons name names ih =>
    cases (h.alike hp).2 with
    | file => rfl
    | folder hsome hnone =>
      simp only [follow]
      split
      · exact ih h hp ha hap
      · split
        · cases ha with
          | nil => exact ih h hp .nil hap
          | cons hparent ha =>
            rw [List.forall_mem_cons] at hap
            exact ih hparent hap.1 ha hap.2
        · rename_i entries _ _ _
          cases hnext : lookup? entries name with
          | none => rw [hnone hnext]
          | some next =>
            obtain ⟨next', hnext', hrel⟩ := hsome hnext
            rw [hnext']
            exact ih hrel (hp.entry (mem_of_lookup? hnext)) (.cons h ha)
              (List.forall_mem_cons.mpr ⟨hp, hap⟩)

/-- With the entries of its folders in another order, a file system has the same layout. -/
theorem Relisted.layout_eq {fs : FileSystem} (h : Relisted fs.root tree) (hp : fs.root.Proper) :
    FileSystem.layout { fs with root := tree } = fs.layout := by
  have hfollow : ∀ names, (follow tree [] names).map stand = (follow fs.root [] names).map stand :=
    fun _ => (h.map_follow hp .nil (List.forall_mem_nil _)).symm
  funext p
  unfold FileSystem.layout FileSystem.find
  split
  · rfl
  · split
    · rfl
    · split <;> exact hfollow _

end FileTree

end Interview
