import Interview.Proofs.State.Writes
import Mathlib.Data.Finset.Max

/-!
# Keys in normal form

Making the normal form of a key drops the blanks around it and then one colon. What comes to stand
at the start after that is kept, also another colon or a blank, so that a key in a state need not
lead back to its own entry.

* `Key.Bare`: there is neither a colon nor a blank at the start of a key.
* `Key.normal_normal_iff`: a normal form is its own normal form if and only if it is bare.
* `Key.bare_normal_iff`: which keys have a bare normal form.
* `State.Made.rebuilt_eq_iff`: a state can be made anew from its entries if and only if all its
  keys are bare.
* `State.keys_address_entries`: all of this about the keys of a state.
* `State.listed_key_lost`: a state with a key that leads nowhere.
-/

namespace Interview

namespace Key

/-- There is neither a colon nor a blank at the start of the key. -/
def Bare (key : String) : Prop :=
  ∀ c, key.toList.head? = some c → c ≠ ':' ∧ Text.isBlank c = false

/-- The key without the blanks around it and without a colon, in lower case. -/
def stripped (key : String) : List Char := toLower (dropColon (Text.trim key.toList))

variable {x y : String} {s : List Char} {c : Char}

/-! ## Lower case -/

theorem toLower_eq_or (c : Char) :
    c.toLower = c ∨ (65 ≤ c.toNat ∧ c.toNat ≤ 90) ∧ c.toLower.toNat = c.toNat + 32 := by
  unfold Char.toLower
  split
  · rename_i h
    rw [ge_iff_le, UInt32.le_iff_toNat_le, UInt32.le_iff_toNat_le] at h
    have hhi : c.val.toNat ≤ 90 := h.2
    refine .inr ⟨h, ?_⟩
    show (c.val + 32).toNat = c.val.toNat + 32
    rw [UInt32.toNat_add]
    exact Nat.mod_eq_of_lt (show c.val.toNat + 32 < 2 ^ 32 by omega)
  · exact .inl rfl

theorem isBlank_toLower (c : Char) : Text.isBlank c.toLower = Text.isBlank c := by
  rcases toLower_eq_or c with h | ⟨⟨hlo, hhi⟩, h⟩
  · rw [h]
  · simp only [Text.isBlank, h]
    grind

theorem toLower_eq_colon : c.toLower = ':' ↔ c = ':' := by
  rcases toLower_eq_or c with h | ⟨⟨hlo, hhi⟩, h⟩
  · rw [h]
  · have hcolon : ':'.toNat = 58 := rfl
    constructor
    · intro hc
      rw [hc] at h
      omega
    · rintro rfl
      omega

theorem toLower_toLower (s : List Char) : toLower (toLower s) = toLower s := by
  unfold toLower
  rw [List.map_map]
  refine List.map_congr_left fun c _ => ?_
  rcases toLower_eq_or c with h | ⟨⟨hlo, hhi⟩, h⟩
  · rw [Function.comp_apply, h, h]
  · rcases toLower_eq_or c.toLower with h' | ⟨⟨hlo', hhi'⟩, -⟩
    · exact h'
    · omega

/-! ## The start and the end of a normal form -/

theorem normal_eq (key : String) :
    normal key = if String.ofList (stripped key) = "responses" then responses
      else String.ofList (stripped key) := rfl

theorem dropColon_eq_or (s : List Char) :
    s = ':' :: dropColon s ∨ dropColon s = s ∧ ∀ c, s.head? = some c → c ≠ ':' := by
  cases s with
  | nil => exact .inr ⟨rfl, fun c h => by cases h⟩
  | cons c r =>
    by_cases h : c = ':'
    · subst h
      exact .inl rfl
    · exact .inr ⟨by simp [dropColon, h], fun d hd => by cases hd; exact h⟩

theorem isBlank_getLast?_stripped (h : (stripped x).getLast? = some c) :
    Text.isBlank c = false := by
  rw [stripped, toLower, List.getLast?_map, Option.map_eq_some_iff] at h
  obtain ⟨d, hd, rfl⟩ := h
  rw [isBlank_toLower]
  rcases dropColon_eq_or (Text.trim x.toList) with ht | ⟨ht, -⟩
  · refine Text.isBlank_getLast?_trim (s := x.toList) ?_
    rw [ht, List.getLast?_cons, hd]
    rfl
  · rw [ht] at hd
    exact Text.isBlank_getLast?_trim hd

/-- The start of what is left of a key when blanks and one colon are dropped. -/
theorem head?_stripped :
    (∀ c, (stripped x).head? = some c → c ≠ ':' ∧ Text.isBlank c = false) ↔
      ∀ c r, Text.trim x.toList = ':' :: c :: r → c ≠ ':' ∧ Text.isBlank c = false := by
  have hlower : ∀ c : Char, c.toLower ≠ ':' ∧ Text.isBlank c.toLower = false ↔
      c ≠ ':' ∧ Text.isBlank c = false := fun c => by
    rw [isBlank_toLower, ne_eq, toLower_eq_colon]
  rw [stripped, toLower, List.head?_map]
  rcases dropColon_eq_or (Text.trim x.toList) with ht | ⟨ht, hcolon⟩
  · rw [ht]
    generalize dropColon (Text.trim x.toList) = b
    cases b with
    | nil => simp [dropColon]
    | cons d r => simp [dropColon, ← hlower d]
  · rw [ht]
    refine iff_of_true (fun c hc => ?_) fun c r h => ?_
    · obtain ⟨d, hd, rfl⟩ := Option.map_eq_some_iff.mp hc
      exact (hlower d).mpr ⟨hcolon d hd, Text.isBlank_head?_trim hd⟩
    · rw [h] at hcolon
      exact absurd rfl (hcolon ':' rfl)

/-! ## Bare keys -/

theorem bare_ofList : Bare (String.ofList s) ↔
    ∀ c, s.head? = some c → c ≠ ':' ∧ Text.isBlank c = false := by
  rw [Bare, String.toList_ofList]

instance (key : String) : Decidable (Bare key) :=
  match h : key.toList.head? with
  | none => .isTrue fun c hc => by simp [h] at hc
  | some d =>
    decidable_of_iff (d ≠ ':' ∧ Text.isBlank d = false)
      ⟨fun hd c hc => by rw [h] at hc; cases hc; exact hd, fun hbare => hbare d h⟩

theorem bare_responses : Bare responses := by decide

/-- The alias makes no difference to whether a normal form is bare. -/
theorem bare_normal : Bare (normal x) ↔ Bare (String.ofList (stripped x)) := by
  rw [normal_eq]
  split
  · rename_i h
    rw [h]
    exact iff_of_true bare_responses (by decide)
  · rfl

/-- A normal form is bare unless its key, without the blanks around it, starts with a colon and
then another colon or a blank. -/
theorem bare_normal_iff (x : String) : Bare (normal x) ↔
    ∀ c r, Text.trim x.toList = ':' :: c :: r → c ≠ ':' ∧ Text.isBlank c = false := by
  rw [bare_normal, bare_ofList, head?_stripped]

theorem normal_of_bare (h : Bare (normal x)) : normal (normal x) = normal x := by
  rw [bare_normal, bare_ofList] at h
  rw [normal_eq x]
  split
  · exact normal_responses
  · rename_i hne
    have htrim : Text.trim (stripped x) = stripped x :=
      Text.trim_eq_self (fun c hc => (h c hc).2) fun c => isBlank_getLast?_stripped
    have hstripped : stripped (String.ofList (stripped x)) = stripped x := by
      rw [stripped, String.toList_ofList, htrim]
      rcases dropColon_eq_or (stripped x) with hd | ⟨hd, -⟩
      · exact absurd rfl (h ':' (by rw [hd]; rfl)).1
      · rw [hd, stripped, toLower_toLower]
    rw [normal_eq, hstripped, if_neg hne]

theorem trim_sublist (s : List Char) : (Text.trim s).Sublist s := by
  have hend : (Text.trimEnd (Text.trimStart s)).Sublist (Text.trimStart s) := by
    conv => rhs; rw [← Text.trimEnd_append_takeWhile (Text.trimStart s)]
    exact List.sublist_append_left _ _
  exact hend.trans (List.dropWhile_sublist _)

/-- What is dropped from a key that is not bare makes it shorter. -/
theorem length_stripped_lt (h : ¬ Bare y) : (stripped y).length < y.toList.length := by
  rw [stripped, toLower, List.length_map]
  by_cases htrim : Text.trim y.toList = y.toList
  · rcases dropColon_eq_or y.toList with hd | ⟨-, hcolon⟩
    · rw [htrim, congrArg List.length hd, List.length_cons]
      omega
    · refine absurd (fun c hc => ⟨hcolon c hc, ?_⟩) h
      rw [← htrim] at hc
      exact Text.isBlank_head?_trim hc
  · have hlt : (Text.trim y.toList).length < y.toList.length := by
      by_contra hle
      exact htrim ((trim_sublist _).eq_of_length_le (by omega))
    have hle : (dropColon (Text.trim y.toList)).length ≤ (Text.trim y.toList).length := by
      rcases dropColon_eq_or (Text.trim y.toList) with hd | ⟨hd, -⟩
      · rw [congrArg List.length hd, List.length_cons]
        omega
      · rw [hd]
    omega

/-- The normal form is shorter than the key if neither is bare. -/
theorem length_normal_lt (hnormal : ¬ Bare (normal y)) (h : ¬ Bare y) :
    (normal y).toList.length < y.toList.length := by
  rw [normal_eq] at hnormal ⊢
  split at hnormal
  · exact absurd bare_responses hnormal
  · rename_i hne
    rw [if_neg hne, String.toList_ofList]
    exact length_stripped_lt h

theorem bare_of_normal_eq (h : normal y = y) : Bare y := by
  by_contra hbare
  have hlt := length_normal_lt (h.symm ▸ hbare) hbare
  rw [h] at hlt
  exact lt_irrefl _ hlt

/-- A normal form is its own normal form if and only if it is bare. -/
theorem normal_normal_iff (x : String) : normal (normal x) = normal x ↔ Bare (normal x) :=
  ⟨bare_of_normal_eq, normal_of_bare⟩

end Key

namespace State

variable {s s' : State} {writes : List (String × Value)} {k : String}

/-! ## The keys of a state -/

theorem mem_keys {c : String} : c ∈ s.keys ↔ ∃ v, s.entries[c]? = some v := by
  rw [keys, Std.ExtTreeMap.mem_keys, Std.ExtTreeMap.mem_iff_isSome_getElem?,
    Option.isSome_iff_exists]

theorem Made.mem_keys_iff (h : Made writes s) : k ∈ s.keys ↔ ∃ w ∈ writes, Key.normal w.1 = k := by
  rw [mem_keys, ← Option.isSome_iff_exists, h.getElem?_entries, lastWrite?_isSome]

theorem Made.normal_eq_of_bare (h : Made writes s) (hk : k ∈ s.keys) (hbare : Key.Bare k) :
    Key.normal k = k := by
  obtain ⟨w, -, rfl⟩ := h.mem_keys_iff.mp hk
  exact Key.normal_of_bare hbare

/-- A bare key finds the value that is kept under it. -/
theorem Made.get_of_bare (h : Made writes s) (hk : k ∈ s.keys) (hbare : Key.Bare k) :
    s.contains k = true ∧ ∃ v, s.entries[k]? = some v ∧ s.get k = .ok v := by
  obtain ⟨v, hv⟩ := mem_keys.mp hk
  have hget : s.get k = .ok v := by
    rw [get_eq_ok, get?, h.normal_eq_of_bare hk hbare, hv]
  exact ⟨contains_iff_get.mpr ⟨v, hget⟩, v, hv, hget⟩

theorem normal_of_mem_emptyLists {w : String × Value} (hw : w ∈ emptyLists) :
    Key.normal w.1 = w.1 := by
  simp only [emptyLists, List.mem_cons, List.not_mem_nil, or_false] at hw
  rcases hw with rfl | rfl | rfl <;> simp

theorem bare_of_mem_emptyLists {w : String × Value} (hw : w ∈ emptyLists) : Key.Bare w.1 := by
  simp only [emptyLists, List.mem_cons, List.not_mem_nil, or_false] at hw
  rcases hw with rfl | rfl | rfl <;> decide

/-- A state always has a current node and the three lists. -/
theorem Made.reserved (h : Made writes s) :
    (∃ w ∈ writes, Key.normal w.1 = Key.currentNode) ∧
      ∀ l ∈ emptyLists, ∃ w ∈ writes, Key.normal w.1 = l.1 := by
  induction h with
  | start node =>
    refine ⟨⟨_, List.mem_cons_self, Key.normal_currentNode⟩, fun l hl => ?_⟩
    exact ⟨l, List.mem_cons_of_mem _ hl, normal_of_mem_emptyLists hl⟩
  | pairs h =>
    obtain ⟨p, hp, hnode⟩ := exists_ofPairs_iff.mp ⟨_, h⟩
    refine ⟨⟨p, List.mem_append_right _ hp, hnode⟩, fun l hl => ?_⟩
    exact ⟨l, List.mem_append_left _ hl, normal_of_mem_emptyLists hl⟩
  | put key v _ ih =>
    obtain ⟨⟨w, hw, hnode⟩, hlists⟩ := ih
    refine ⟨⟨w, List.mem_append_left _ hw, hnode⟩, fun l hl => ?_⟩
    obtain ⟨w, hw, hlist⟩ := hlists l hl
    exact ⟨w, List.mem_append_left _ hw, hlist⟩

/-! ## A state made anew from its entries -/

theorem Made.exists_rebuilt (h : Made writes s) : ∃ s', ofPairs s.entries.toList = .ok s' := by
  obtain ⟨v, hv⟩ := mem_keys.mp (h.mem_keys_iff.mpr h.reserved.1)
  refine exists_ofPairs_iff.mpr ⟨(Key.currentNode, v), ?_, Key.normal_currentNode⟩
  exact Std.ExtTreeMap.mem_toList_iff_getElem?_eq_some.mpr hv

/-- Entries whose keys are in normal form are the entries of the pairs that they make. -/
theorem Made.entriesOfPairs_toList (h : Made writes s) (hbare : ∀ k ∈ s.keys, Key.Bare k) :
    entriesOfPairs s.entries.toList = s.entries := by
  have hmap : s.entries.toList.map (fun p => (Key.normal p.1, p.2)) = s.entries.toList := by
    conv => rhs; rw [← List.map_id s.entries.toList]
    refine List.map_congr_left fun ⟨k, v⟩ hp => ?_
    have hk : k ∈ s.keys := mem_keys.mpr ⟨v, Std.ExtTreeMap.mem_toList_iff_getElem?_eq_some.mp hp⟩
    rw [h.normal_eq_of_bare hk (hbare k hk), id]
  rw [entriesOfPairs, hmap]
  refine Std.ExtTreeMap.ext_getElem? fun c => ?_
  cases hc : s.entries[c]? with
  | some v =>
    exact Std.ExtTreeMap.getElem?_ofList_of_mem Std.ReflCmp.compare_self
      Std.ExtTreeMap.distinct_keys_toList (Std.ExtTreeMap.mem_toList_iff_getElem?_eq_some.mpr hc)
  | none =>
    refine Std.ExtTreeMap.getElem?_ofList_of_contains_eq_false ?_
    rw [Std.ExtTreeMap.map_fst_toList_eq_keys, ← Bool.not_eq_true, List.contains_iff_mem,
      Std.ExtTreeMap.mem_keys, Std.ExtTreeMap.mem_iff_isSome_getElem?, hc]
    exact Bool.false_ne_true

theorem Made.rebuilt_of_bare (h : Made writes s) (h' : ofPairs s.entries.toList = .ok s')
    (hbare : ∀ k ∈ s.keys, Key.Bare k) : s' = s := by
  refine eq_of_getElem?_entries fun c => ?_
  rw [(Made.pairs h').getElem?_entries, lastWrite?_append, ← getElem?_entriesOfPairs,
    h.entriesOfPairs_toList hbare]
  cases hc : s.entries[c]? with
  | some v => rfl
  | none =>
    rw [Option.none_or, ← Option.not_isSome_iff_eq_none, lastWrite?_isSome]
    rintro ⟨l, hl, rfl⟩
    rw [h.getElem?_entries, ← Option.not_isSome_iff_eq_none, lastWrite?_isSome,
      normal_of_mem_emptyLists hl] at hc
    exact hc (h.reserved.2 l hl)

/-- A key that is not bare comes only from a longer one that is not bare either. -/
theorem Made.exists_longer (h : Made writes s) (h' : ofPairs s.entries.toList = .ok s)
    (hk : k ∈ s.keys) (hbare : ¬ Key.Bare k) :
    ∃ k' ∈ s.keys, ¬ Key.Bare k' ∧ k.toList.length < k'.toList.length := by
  obtain ⟨⟨k', v⟩, hw, hnormal⟩ := (Made.pairs h').mem_keys_iff.mp hk
  rcases List.mem_append.mp hw with hw | hw
  · rw [normal_of_mem_emptyLists hw] at hnormal
    exact absurd (hnormal ▸ bare_of_mem_emptyLists hw) hbare
  · have hk' : k' ∈ s.keys := mem_keys.mpr ⟨v, Std.ExtTreeMap.mem_toList_iff_getElem?_eq_some.mp hw⟩
    have hbare' : ¬ Key.Bare k' := fun hbare' => by
      rw [h.normal_eq_of_bare hk' hbare'] at hnormal
      exact hbare (hnormal ▸ hbare')
    refine ⟨k', hk', hbare', ?_⟩
    rw [← hnormal] at hbare ⊢
    exact Key.length_normal_lt hbare hbare'

theorem Made.bare_of_rebuilt (h : Made writes s) (h' : ofPairs s.entries.toList = .ok s)
    (hk : k ∈ s.keys) : Key.Bare k := by
  by_contra hbare
  obtain ⟨k', hk', hmax⟩ := (s.keys.toFinset.filter fun k => ¬ Key.Bare k).exists_max_image
    (fun k => k.toList.length) ⟨k, by simp [hk, hbare]⟩
  obtain ⟨hk', hbare'⟩ : k' ∈ s.keys ∧ ¬ Key.Bare k' := by simpa using hk'
  obtain ⟨longer, hlonger, hbare, hlt⟩ := h.exists_longer h' hk' hbare'
  have hle := hmax longer (by simp [hlonger, hbare])
  omega

/-- A state can be made anew from its entries if and only if all its keys are bare. -/
theorem Made.rebuilt_eq_iff (h : Made writes s) (h' : ofPairs s.entries.toList = .ok s') :
    s' = s ↔ ∀ k ∈ s.keys, Key.Bare k := by
  refine ⟨?_, h.rebuilt_of_bare h'⟩
  rintro rfl k hk
  exact h.bare_of_rebuilt h' hk

/-- **The keys of a state.** A normal form is its own normal form just if it is bare, that is,
unless its key, without the blanks around it, starts with a colon and then another colon or a
blank. A key of a state that is bare finds the value kept under it; one that is not is not its own
normal form. The entries of a state make a state again, which is equal to it just if all its keys
are bare. -/
theorem keys_address_entries (x : String) (h : Made writes s) :
    (Key.normal (Key.normal x) = Key.normal x ↔ Key.Bare (Key.normal x)) ∧
    (Key.Bare (Key.normal x) ↔
      ∀ c r, Text.trim x.toList = ':' :: c :: r → c ≠ ':' ∧ Text.isBlank c = false) ∧
    (∀ k ∈ s.keys, (Key.normal k = k ↔ Key.Bare k) ∧
      (Key.Bare k → s.contains k = true ∧ ∃ v, s.entries[k]? = some v ∧ s.get k = .ok v)) ∧
    ∃ s', ofPairs s.entries.toList = .ok s' ∧ (s' = s ↔ ∀ k ∈ s.keys, Key.Bare k) := by
  obtain ⟨s', hs'⟩ := h.exists_rebuilt
  refine ⟨Key.normal_normal_iff x, Key.bare_normal_iff x, fun k hk => ?_,
    s', hs', h.rebuilt_eq_iff hs'⟩
  exact ⟨⟨Key.bare_of_normal_eq, h.normal_eq_of_bare hk⟩, h.get_of_bare hk⟩

/-- A state with a key that starts with a colon. -/
def marked : State := (start "home").put "::a" (.text "1")

/-- That key does not lead to its own entry, so the state is not made anew; the others do. -/
theorem keys_address_entries_marked :
    Made (firstWrites "home" ++ [("::a", .text "1")]) marked ∧ ":a" ∈ marked.keys ∧
      ¬ Key.Bare ":a" ∧ Key.normal ":a" ≠ ":a" ∧
      Key.path ∈ marked.keys ∧ Key.Bare Key.path ∧
      (∃ v, marked.entries[Key.path]? = some v ∧ marked.get Key.path = .ok v) ∧
      ∃ s', ofPairs marked.entries.toList = .ok s' ∧ s' ≠ marked := by
  have hmade : Made (firstWrites "home" ++ [("::a", .text "1")]) marked := (Made.start _).put _ _
  obtain ⟨-, -, hkeys, s', hs', hiff⟩ := keys_address_entries "::a" hmade
  have hmem : ":a" ∈ marked.keys := by decide +kernel
  have hbare : ¬ Key.Bare ":a" := by decide
  have hpath : Key.path ∈ marked.keys := by decide +kernel
  have hpathBare : Key.Bare Key.path := by decide
  exact ⟨hmade, hmem, hbare, fun h => hbare ((hkeys _ hmem).1.mp h), hpath, hpathBare,
    ((hkeys _ hpath).2 hpathBare).2, s', hs', fun h => hbare (hiff.mp h _ hmem)⟩

/-- **A listed key may lead nowhere.** It is not so that every key of a state finds the value kept
under it, nor that every normal form is its own, nor that the entries of a state make it anew. -/
theorem listed_key_lost :
    (¬ ∀ writes s, Made writes s → ∀ k ∈ s.keys,
      s.contains k = true ∧ ∃ v, s.entries[k]? = some v ∧ s.get k = .ok v) ∧
    (¬ ∀ x, Key.normal (Key.normal x) = Key.normal x) ∧
    ¬ ∀ writes s, Made writes s → ofPairs s.entries.toList = .ok s := by
  have hmade : Made (firstWrites "home" ++ [("::a", .text "1")]) marked := (Made.start _).put _ _
  have hmem : ":a" ∈ marked.keys := by decide +kernel
  refine ⟨fun h => ?_, fun h => ?_, fun h => ?_⟩
  · obtain ⟨hcontains, -⟩ := h _ _ hmade _ hmem
    revert hcontains
    decide +kernel
  · have : Key.normal (Key.normal "::a") ≠ Key.normal "::a" := by decide
    exact this (h "::a")
  · have hbare : Key.Bare ":a" := hmade.bare_of_rebuilt (h _ _ hmade) hmem
    revert hbare
    decide

end State

end Interview
