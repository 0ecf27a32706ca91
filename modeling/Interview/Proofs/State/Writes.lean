import Interview.State

/-!
# States and their writes

A state is the result of its writes. Those of a state at the start are its first entries, those of
a state made of pairs are the lists that every state has and then the pairs, and a value put under
a key is one more write. Under every key is the last write whose key has the same normal form.

* `State.lastWrite?`: the value of the last write for a key in normal form.
* `State.Made`: a state and the writes that it is the result of.
* `State.Made.getElem?_entries`: a state holds the last write for each key, and nothing else.
* `State.Made.eq_iff_get_eq`: a state is known by what is found in it.
* `State.ofPairs_eq_putAll`: a state made of pairs is any start with the pairs put on top.
* `State.last_write_wins`: all of this together.
-/

namespace Interview

namespace State

/-- The value of the last write whose key has the normal form `c`. -/
def lastWrite? (writes : List (String × Value)) (c : String) : Option Value :=
  (writes.reverse.find? fun w => Key.normal w.1 == c).map (·.2)

/-- The state after some writes, the first one first. -/
def putAll (s : State) (writes : List (String × Value)) : State :=
  writes.foldl (fun s w => s.put w.1 w.2) s

/-- The lists that every state has, before anything is in them. -/
def emptyLists : List (String × Value) :=
  [(Key.path, .list []), (Key.responses, .list []), (Key.currentAnswers, .list [])]

/-- The first entries of a state at the start. -/
def firstWrites (node : String) : List (String × Value) :=
  (Key.currentNode, .text node) :: emptyLists

/-- The state is the result of these writes, the first one first. -/
inductive Made : List (String × Value) → State → Prop
  /-- A state at the start. -/
  | start (node : String) : Made (firstWrites node) (start node)
  /-- A state made of pairs. -/
  | pairs {pairs : List (String × Value)} {s : State} (h : ofPairs pairs = .ok s) :
    Made (emptyLists ++ pairs) s
  /-- A state with one more value put under a key. -/
  | put {writes : List (String × Value)} {s : State} (key : String) (v : Value)
    (h : Made writes s) : Made (writes ++ [(key, v)]) (s.put key v)

variable {s s' : State} {writes writes' pairs : List (String × Value)} {c node : String}

/-! ## The last write -/

theorem lastWrite?_append (xs ys : List (String × Value)) (c : String) :
    lastWrite? (xs ++ ys) c = (lastWrite? ys c).or (lastWrite? xs c) := by
  simp [lastWrite?, List.find?_append, Option.map_or]

theorem lastWrite?_singleton (key : String) (v : Value) (c : String) :
    lastWrite? [(key, v)] c = if Key.normal key = c then some v else none := by
  by_cases h : Key.normal key = c <;> simp [lastWrite?, h]

theorem lastWrite?_cons (w : String × Value) (ws : List (String × Value)) (c : String) :
    lastWrite? (w :: ws) c =
      (lastWrite? ws c).or (if Key.normal w.1 = c then some w.2 else none) := by
  rw [← List.singleton_append, lastWrite?_append, lastWrite?_singleton]

theorem lastWrite?_isSome :
    (lastWrite? writes c).isSome = true ↔ ∃ w ∈ writes, Key.normal w.1 = c := by
  simp [lastWrite?]

theorem lastWrite?_emptyLists (c : String) :
    lastWrite? emptyLists c =
      if c ∈ [Key.path, Key.responses, Key.currentAnswers] then some (.list []) else none := by
  have hnil : lastWrite? [] c = none := rfl
  simp only [emptyLists, lastWrite?_cons, hnil, Key.normal_path, Key.normal_responses,
    Key.normal_currentAnswers, List.mem_cons, List.not_mem_nil, or_false, eq_comm (a := c)]
  by_cases hp : Key.path = c <;> by_cases hr : Key.responses = c <;>
    by_cases ha : Key.currentAnswers = c <;> simp [hp, hr, ha]

/-! ## The entries of a state -/

/-- States with the same entries are equal. -/
theorem eq_of_getElem?_entries (h : ∀ c : String, s.entries[c]? = s'.entries[c]?) : s = s' := by
  cases s
  cases s'
  exact congrArg State.mk (Std.ExtTreeMap.ext_getElem? fun c => h c)

theorem entries_put (s : State) (key : String) (v : Value) :
    (s.put key v).entries = s.entries.insert (Key.normal key) v := rfl

theorem getElem?_entries_put (s : State) (key : String) (v : Value) (c : String) :
    (s.put key v).entries[c]? = if Key.normal key = c then some v else s.entries[c]? := by
  simp [entries_put, Std.ExtTreeMap.getElem?_insert]

theorem putAll_cons (s : State) (w : String × Value) (ws : List (String × Value)) :
    s.putAll (w :: ws) = (s.put w.1 w.2).putAll ws := rfl

theorem getElem?_entries_putAll (s : State) (writes : List (String × Value)) (c : String) :
    (s.putAll writes).entries[c]? = (lastWrite? writes c).or s.entries[c]? := by
  induction writes generalizing s with
  | nil => rfl
  | cons w ws ih =>
    rw [putAll_cons, ih, getElem?_entries_put, lastWrite?_cons, Option.or_assoc]
    by_cases h : Key.normal w.1 = c <;> simp [h]

theorem entries_putAll (s : State) (writes : List (String × Value)) :
    (s.putAll writes).entries =
      (writes.map fun w => (Key.normal w.1, w.2)).foldl (fun m w => m.insert w.1 w.2)
        s.entries := by
  induction writes generalizing s with
  | nil => rfl
  | cons w ws ih => rw [putAll_cons, ih, entries_put, List.map_cons, List.foldl_cons]

theorem getElem?_entriesOfPairs (pairs : List (String × Value)) (c : String) :
    (entriesOfPairs pairs)[c]? = lastWrite? pairs c := by
  have hentries : entriesOfPairs pairs = ((⟨∅⟩ : State).putAll pairs).entries := by
    rw [entriesOfPairs, Std.ExtTreeMap.ofList_eq_foldl, entries_putAll]
  rw [hentries, getElem?_entries_putAll]
  simp

theorem start_entries (node : String) :
    (start node).entries = entriesOfPairs (firstWrites node) := by
  simp [start, entriesOfPairs, firstWrites, emptyLists]

/-- Keys that are not in use get a value, all others keep theirs. -/
theorem getElem?_foldl_insertIfNew (m : Std.ExtTreeMap String Value) (keys : List String)
    (v : Value) (c : String) :
    (keys.foldl (fun m key => m.insertIfNew key v) m)[c]? =
      m[c]?.or (if c ∈ keys then some v else none) := by
  induction keys generalizing m with
  | nil => simp
  | cons key keys ih =>
    rw [List.foldl_cons, ih, Std.ExtTreeMap.getElem?_insertIfNew]
    by_cases hk : key = c
    · subst hk
      cases hm : m[key]? <;> simp [Std.ExtTreeMap.mem_iff_isSome_getElem?, hm]
    · simp [hk, Ne.symm hk]

theorem getElem?_entries_ofPairs (h : ofPairs pairs = .ok s) (c : String) :
    s.entries[c]? = lastWrite? (emptyLists ++ pairs) c := by
  simp only [ofPairs] at h
  split at h
  · cases h
    rw [getElem?_foldl_insertIfNew, getElem?_entriesOfPairs, lastWrite?_append,
      lastWrite?_emptyLists]
  · cases h

/-- **The entries of a state.** A state holds the last write for each key, and nothing else. -/
theorem Made.getElem?_entries (h : Made writes s) (c : String) :
    s.entries[c]? = lastWrite? writes c := by
  induction h with
  | start node => rw [start_entries, getElem?_entriesOfPairs]
  | pairs h => exact getElem?_entries_ofPairs h c
  | put key v _ ih =>
    rw [getElem?_entries_put, lastWrite?_append, lastWrite?_singleton, ih]
    split <;> rfl

theorem Made.putAll (h : Made writes s) (more : List (String × Value)) :
    Made (writes ++ more) (s.putAll more) := by
  induction more generalizing writes s with
  | nil => rwa [List.append_nil]
  | cons w ws ih =>
    rw [List.append_cons]
    exact ih (h.put w.1 w.2)

/-! ## What is found in a state -/

theorem Made.get?_eq (h : Made writes s) (k : String) :
    s.get? k = lastWrite? writes (Key.normal k) :=
  h.getElem?_entries _

theorem Made.get_eq (h : Made writes s) (k : String) :
    s.get k =
      match lastWrite? writes (Key.normal k) with
      | some v => .ok v
      | none => .error (.undefinedValue (Key.normal k)) := by
  rw [← h.get?_eq]
  unfold get
  cases s.get? k <;> rfl

theorem get_eq_iff {k : String} : s.get k = s'.get k ↔ s.get? k = s'.get? k := by
  unfold get
  cases s.get? k <;> cases s'.get? k <;> simp

/-- A state is known by what is found in it: a key that is the normal form of nothing is in no
state. -/
theorem Made.eq_iff_get_eq (h : Made writes s) (h' : Made writes' s') :
    s = s' ↔ ∀ k, s.get k = s'.get k := by
  refine ⟨fun hs k => by rw [hs], fun hget => eq_of_getElem?_entries fun c => ?_⟩
  by_cases hc : ∃ k, Key.normal k = c
  · obtain ⟨k, rfl⟩ := hc
    exact get_eq_iff.mp (hget k)
  · have hnone : ∀ ws, lastWrite? ws c = none := fun ws => by
      rw [← Option.not_isSome_iff_eq_none, lastWrite?_isSome]
      exact fun ⟨w, _, hw⟩ => hc ⟨w.1, hw⟩
    rw [h.getElem?_entries, h'.getElem?_entries, hnone, hnone]

/-! ## States made of pairs -/

theorem exists_ofPairs_iff :
    (∃ s, ofPairs pairs = .ok s) ↔ ∃ p ∈ pairs, Key.normal p.1 = Key.currentNode := by
  rw [← lastWrite?_isSome, ← getElem?_entriesOfPairs, ← Std.ExtTreeMap.contains_eq_isSome_getElem?]
  simp only [ofPairs]
  split <;> simp_all

/-- A state made of pairs is any start with the pairs put on top: one of them is for the current
node. -/
theorem ofPairs_eq_putAll (h : ofPairs pairs = .ok s) (node : String) :
    s = (start node).putAll pairs := by
  have hnode : (lastWrite? pairs Key.currentNode).isSome = true :=
    lastWrite?_isSome.mpr (exists_ofPairs_iff.mp ⟨s, h⟩)
  refine eq_of_getElem?_entries fun c => ?_
  rw [(Made.pairs h).getElem?_entries, ((Made.start node).putAll pairs).getElem?_entries,
    lastWrite?_append, lastWrite?_append, firstWrites, lastWrite?_cons]
  by_cases hc : Key.currentNode = c
  · subst hc
    obtain ⟨v, hv⟩ := Option.isSome_iff_exists.mp hnode
    simp [hv]
  · simp [hc]

/-! ## Other ways to look -/

theorem getText_eq (s : State) (k : String) :
    s.getText k =
      match s.get k with
      | .ok (.text t) => .ok t
      | .ok (.list _) => .error (.shapeMismatch (Key.normal k) .text)
      | .error e => .error e := by
  unfold getText
  cases s.get k with
  | error e => rfl
  | ok v => cases v <;> rfl

theorem getList_eq (s : State) (k : String) :
    s.getList k =
      match s.get k with
      | .ok (.list items) => .ok items
      | .ok (.text _) => .error (.shapeMismatch (Key.normal k) .list)
      | .error e => .error e := by
  unfold getList
  cases s.get k with
  | error e => rfl
  | ok v => cases v <;> rfl

/-- The same value is under two keys with one normal form. -/
theorem get_congr_key {k k' : String} (h : Key.normal k = Key.normal k') : s.get k = s.get k' := by
  simp only [get, get?, h]

theorem getText_congr {k k' : String} (h : Key.normal k = Key.normal k') :
    s.getText k = s.getText k' := by
  simp only [getText, get_congr_key h, h]

theorem contains_iff_get {k : String} : s.contains k = true ↔ ∃ v, s.get k = .ok v := by
  simp only [contains_eq_isSome, get_eq_ok, Option.isSome_iff_exists]

/-- Values under keys with different normal forms may be put in any order. -/
theorem put_comm {k k' : String} (h : Key.normal k ≠ Key.normal k') (s : State) (v v' : Value) :
    (s.put k v).put k' v' = (s.put k' v').put k v := by
  refine eq_of_getElem?_entries fun c => ?_
  simp only [getElem?_entries_put]
  by_cases hc : Key.normal k = c
  · simp [hc, show Key.normal k' ≠ c from fun hc' => h (hc.trans hc'.symm)]
  · simp [hc]

/-! ## A state is a map -/

/-- **The last write wins.** A look-up finds the value of the last write whose key has the same
normal form, be it a first entry of the state or put there later; if there is none, it names the
normal form. The other ways to look agree with it. Pairs make a state if one of them is for the
current node, and that state is any start with the pairs put on top. Two states are equal if all
look-ups in them are, and values under keys with different normal forms may be put in any order. -/
theorem last_write_wins :
    (∀ writes s, Made writes s → ∀ k,
      s.get k = (match lastWrite? writes (Key.normal k) with
        | some v => .ok v
        | none => .error (.undefinedValue (Key.normal k))) ∧
      (s.contains k = true ↔ ∃ v, s.get k = .ok v) ∧
      s.getText k = (match s.get k with
        | .ok (.text t) => .ok t
        | .ok (.list _) => .error (.shapeMismatch (Key.normal k) .text)
        | .error e => .error e) ∧
      s.getList k = (match s.get k with
        | .ok (.list items) => .ok items
        | .ok (.text _) => .error (.shapeMismatch (Key.normal k) .list)
        | .error e => .error e)) ∧
    (∀ pairs, ((∃ s, ofPairs pairs = .ok s) ↔ ∃ p ∈ pairs, Key.normal p.1 = Key.currentNode) ∧
      ∀ s, ofPairs pairs = .ok s → ∀ node, s = (start node).putAll pairs) ∧
    (∀ writes s writes' s', Made writes s → Made writes' s' →
      (s = s' ↔ ∀ k, s.get k = s'.get k)) ∧
    ∀ (s : State) k k' v v', Key.normal k ≠ Key.normal k' →
      (s.put k v).put k' v' = (s.put k' v').put k v := by
  refine ⟨fun writes s h k => ⟨h.get_eq k, contains_iff_get, getText_eq s k, getList_eq s k⟩,
    fun pairs => ⟨exists_ofPairs_iff, fun s h => ofPairs_eq_putAll h⟩,
    fun writes s writes' s' h h' => h.eq_iff_get_eq h', fun s k k' v v' h => put_comm h s v v'⟩

/-- Writes under three spellings of two keys. -/
def repaints : List (String × Value) :=
  [(" :Colour", .text "red"), ("size", .text "9"), (":Current_Node", .text "shop"),
    ("COLOUR", .text "blue")]

/-- The same writes put on a start, and as a state of their own. -/
theorem last_write_wins_repaints :
    Made (firstWrites "home" ++ repaints) ((start "home").putAll repaints) ∧
      ((start "home").putAll repaints).get "colour" = .ok (.text "blue") ∧
      ((start "home").putAll repaints).get ":Hue" = .error (.undefinedValue "hue") ∧
      (∃ s, ofPairs repaints = .ok s ∧ s = (start "home").putAll repaints) ∧
      ((start "home").put "size" (.text "1")).put "Colour" (.text "red") =
        ((start "home").put "Colour" (.text "red")).put "size" (.text "1") := by
  obtain ⟨hlook, hpairs, -, hcomm⟩ := last_write_wins
  have hmade : Made (firstWrites "home" ++ repaints) ((start "home").putAll repaints) :=
    (Made.start "home").putAll repaints
  have hcolour := (hlook _ _ hmade "colour").1
  rw [show lastWrite? (firstWrites "home" ++ repaints) (Key.normal "colour") =
    some (.text "blue") by decide +kernel] at hcolour
  have hhue := (hlook _ _ hmade ":Hue").1
  rw [show lastWrite? (firstWrites "home" ++ repaints) (Key.normal ":Hue") = none by decide +kernel,
    show Key.normal ":Hue" = "hue" by decide +kernel] at hhue
  obtain ⟨hiff, hstart⟩ := hpairs repaints
  obtain ⟨s, hs⟩ :=
    hiff.mpr ⟨(":Current_Node", .text "shop"), by simp [repaints], by decide +kernel⟩
  exact ⟨hmade, hcolour, hhue, ⟨s, hs, hstart s hs "home"⟩, hcomm _ _ _ _ _ (by decide +kernel)⟩

end State

end Interview
