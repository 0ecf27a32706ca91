import Interview.Proofs.Block.Breaking
import Interview.Proofs.Document.Front

/-!
# A failure says what was expected

A document that cannot be read breaks off in its front matter, in one of its blocks, or at a
directive that ends no branch. Whichever it is, the report gives a place in the text and says what
was expected there, and it gives the hint of a block for each block that was entered and not left.

* `Report.showHints_ne_empty`, `Misreading.valid_offset`: what a report says, and where.
* `Document.Breaks`: the blocks that are entered and not left where reading breaks off.
* `Document.failure_says_what_was_expected`: what the failure is.
-/

namespace Interview

/-! ## Reports -/

namespace Report

variable {hints : List Hint}

theorem intercalate_ne_empty {sep : String} : ∀ {parts : List String}, parts ≠ [] →
    (∀ p ∈ parts, p ≠ "") → sep.intercalate parts ≠ ""
  | [], h, _ => absurd rfl h
  | [p], _, h => by
    rw [String.intercalate_singleton]
    exact h p List.mem_cons_self
  | p :: q :: ps, _, h => by
    rw [String.intercalate_cons_cons, ne_eq, String.append_eq_empty_iff,
      String.append_eq_empty_iff]
    exact fun hempty => h p List.mem_cons_self hempty.1.1

/-- Whatever the hints are, they are shown. -/
theorem showHints_ne_empty (h : hints ≠ []) : showHints hints ≠ "" := by
  have hstarts : ∀ {w s : String}, w ≠ "" → w ++ s ≠ "" := fun hw hempty =>
    hw (String.append_eq_empty_iff.mp hempty).1
  unfold showHints
  refine intercalate_ne_empty ?_ fun p hp => ?_
  · cases hints with
    | nil => exact absurd rfl h
    | cons hint hs => cases hint <;> simp [construct?, wanted]
  · rcases List.mem_append.mp hp with hp | hp
    · obtain ⟨c, -, rfl⟩ := List.mem_map.mp hp
      exact hstarts (by decide)
    · split at hp
      · cases hp
      · obtain rfl := List.mem_singleton.mp hp
        exact hstarts (by decide)

theorem byteCount_eq (s : List Char) : byteCount s = (String.ofList s).utf8ByteSize := by
  induction s with
  | nil => rfl
  | cons c s ih =>
    rw [String.ofList_cons, String.utf8ByteSize_append, String.utf8ByteSize_singleton, ← ih]
    rfl

end Report

/-- The offset of a failure that stands at an end of the text is a place between two of its
characters, at its start or at its end. -/
theorem Misreading.valid_offset {m : Misreading} {text : String} (h : m.after <:+ text.toList)
    (hlines : m.lines = Line.split text.toList) :
    String.Pos.Raw.IsValid text ⟨m.offset⟩ ∧ m.offset ≤ text.utf8ByteSize := by
  have hjoin : Line.join m.lines = text.toList := by rw [hlines, Line.join_split]
  have htext : text = String.ofList m.before ++ String.ofList m.after := by
    rw [← String.ofList_append, Misreading.before_append_after (hjoin ▸ h), hjoin,
      String.ofList_toList]
  have hoffset : m.offset = (String.ofList m.before).utf8ByteSize := Report.byteCount_eq _
  constructor
  · exact String.Pos.Raw.isValid_iff_exists_append.mpr
      ⟨_, _, htext, String.Pos.Raw.ext hoffset⟩
  · rw [hoffset, htext, String.utf8ByteSize_append]
    exact Nat.le_add_right _ _

/-! ## Documents -/

namespace Document

open Reader Block

variable {ls ks us : List Line} {e : Failure Line} {stack : List (List Line)}

/-- The failure at lines that belong to no block. -/
def leftover (us : List Line) : Failure Line := ⟨us, true, [.expected "end of document"]⟩

/-- Reading the document in the lines `ls` breaks off with a failure in blocks that have been
entered and not been left. They start at the places `stack`, the outermost first. -/
inductive Breaks : List Line → List (List Line) → Failure Line → Prop
  /-- After the first fence there is no front matter. -/
  | front {ls : List Line} {e : Failure Line} :
      fencedFrontMatter (ls.dropWhile Line.isVacant) = .fail e → e.isFinal = true → Breaks ls [] e
  /-- After the front matter reading breaks off in the blocks. -/
  | body {ls ms : List Line} {es : List (String × String)} {stack : List (List Line)}
      {e : Failure Line} : Front (ls.dropWhile Line.isVacant) es ms → Block.Breaks ms stack e →
      Breaks ls stack e
  /-- The blocks end before the text does. -/
  | leftover {ls ms us : List Line} {es : List (String × String)} {bs : List Block} :
      Front (ls.dropWhile Line.isVacant) es ms → Block.list ms = .ok bs us → us ≠ [] →
      Breaks ls [] (leftover us)

theorem finished_fails_iff : (finished.commit.expecting "end of document" us = .fail e) ↔
    us ≠ [] ∧ e = leftover us := by
  cases us with
  | nil => simp [finished, commit, expecting, hinting]
  | cons l us => simp [finished, commit, expecting, hinting, leftover, eq_comm]

theorem frontMatter_eq_fail : (fencedFrontMatter <|> bareFrontMatter).maybe ks = .fail e ↔
    fencedFrontMatter ks = .fail e ∧ e.isFinal = true := by
  rw [maybe_eq_fail, orElse_eq_fail]
  constructor
  · rintro ⟨h | ⟨-, h⟩, hfinal⟩
    · exact h
    · simp [tentative_bareFrontMatter h] at hfinal
  · exact fun h => ⟨.inl h, h.2⟩

theorem reader_eq_fail (hks : ls.dropWhile Line.isVacant = ks) : reader ls = .fail e ↔
    (fencedFrontMatter ks = .fail e ∧ e.isFinal = true) ∨ ∃ es ms, Front ks es ms ∧
      (Block.list ms = .fail e ∨ ∃ bs us, Block.list ms = .ok bs us ∧ us ≠ [] ∧
        e = leftover us) := by
  have hvacant : ∀ e, vacantLines ls ≠ .fail e := nofun
  unfold reader
  simp only [bind_eq_fail, Block.vacantLines_eq_ok, hvacant, false_or, hks, frontMatter_eq_fail,
    finished_fails_iff, pure_apply, reduceCtorEq, and_false, exists_false, or_false,
    ← frontMatter_iff]
  constructor
  · rintro ⟨_, _, rfl, h | ⟨o, ms, ho, h⟩⟩
    · exact .inl h
    · exact .inr ⟨_, ms, ⟨o, ho, rfl⟩, h⟩
  · rintro (h | ⟨_, ms, ⟨o, ho, -⟩, h⟩)
    · exact ⟨(), ks, rfl, .inl h⟩
    · exact ⟨(), ks, rfl, .inr ⟨o, ms, ho, h⟩⟩

/-- If the document cannot be read, reading breaks off somewhere. -/
theorem exists_breaks (h : reader ls = .fail e) : ∃ stack own, Breaks ls stack own := by
  obtain ⟨hfront, hfinal⟩ | ⟨es, ms, hfront, h | ⟨bs, us, hbs, hus, rfl⟩⟩ :=
    (reader_eq_fail rfl).mp h
  · exact ⟨[], e, .front hfront hfinal⟩
  · obtain ⟨stack, own, hbreaks⟩ := Block.exists_breaks h
    exact ⟨stack, own, .body hfront hbreaks⟩
  · exact ⟨[], _, .leftover hfront hbs hus⟩

/-- If reading breaks off, the document cannot be read, and the hint of a block is given for each
block that was entered and not left. -/
theorem Breaks.reader_eq (h : Breaks ls stack e) :
    ∃ e', reader ls = .fail e' ∧ SaidBy stack e e' := by
  cases h with
  | front h hfinal =>
    exact ⟨e, (reader_eq_fail rfl).mpr (.inl ⟨h, hfinal⟩), rfl, (List.append_nil _).symm⟩
  | body hfront h =>
    obtain ⟨e', he, hsaid⟩ := h.list_eq
    exact ⟨e', (reader_eq_fail rfl).mpr (.inr ⟨_, _, hfront, .inl he⟩), hsaid⟩
  | leftover hfront hbs hus =>
    exact ⟨_, (reader_eq_fail rfl).mpr (.inr ⟨_, _, hfront, .inr ⟨_, _, hbs, hus, rfl⟩⟩), rfl,
      (List.append_nil _).symm⟩

/-- Where reading breaks off is an end of the text, and what is said there is no hint of a block. -/
theorem Breaks.stands (h : Breaks ls stack e) : Stands ls e := by
  have hvacant : ls.dropWhile Line.isVacant <:+ ls := List.dropWhile_suffix _
  cases h with
  | front h _ => exact (tracks_fencedFrontMatter.stands h).of_suffix hvacant
  | body hfront h => exact h.stands.of_suffix (hfront.suffix.trans hvacant)
  | leftover hfront hbs _ =>
    have hus := (keeps_list hbs).trans (hfront.suffix.trans hvacant)
    exact ⟨join_suffix hus, List.forall_mem_singleton.mpr (inner_expected (by decide))⟩

/-- Front matter that is malformed is said to be so. -/
theorem hints_ne_nil_of_front (h : fencedFrontMatter ls = .fail e) (hfinal : e.isFinal = true) :
    e.hints ≠ [] := by
  rcases bind_eq_fail.mp h with h | ⟨_, ms, -, h⟩
  · simp [tentative_fence.brokenLine h] at hfinal
  · obtain ⟨e', -, rfl⟩ := hinting_eq_fail.mp h
    simp

/-- Something is said wherever reading breaks off, by the last block or by the blocks around it. -/
theorem Breaks.hints_ne_nil (h : Breaks ls stack e) :
    e.hints ++ List.replicate stack.length Block.hint ≠ [] := by
  refine fun hnil => ?_
  obtain ⟨hown, hstack⟩ := List.append_eq_nil_iff.mp hnil
  cases h with
  | front h hfinal => exact hints_ne_nil_of_front h hfinal hown
  | body _ h =>
    exact h.stack_ne_nil (by simpa using hstack)
  | leftover => cases hown

theorem Breaks.conditionals (h : Breaks ls stack e) :
    ∀ ks ∈ stack.dropLast, ∃ c ms, opening ks = .ok c ms := by
  cases h with
  | front | leftover => nofun
  | body _ h => exact h.conditionals

theorem ofText?_eq_error {text : String} {m : Misreading} : ofText? text = .error m ↔
    reader (Line.split text.toList) = .fail m.failure ∧ m.lines = Line.split text.toList := by
  unfold ofText?
  cases hread : reader (Line.split text.toList) with
  | ok d r => simp only [hread, reduceCtorEq, false_and]
  | fail e =>
    simp only [hread, Except.error.injEq, Reply.fail.injEq]
    exact ⟨fun h => h ▸ ⟨rfl, rfl⟩, fun ⟨hfailure, hlines⟩ => by rw [hfailure, ← hlines]⟩

/-- **A failure says what was expected.** Whatever text cannot be read, the failure gives a hint, so
the report does not end after the place. The place is one between two characters of the text, or an
end of it. Reading breaks off somewhere, and wherever that is, the blocks that were entered and not
left are conditionals, each in a branch of the one before, and at last a block that fails by itself.
The hint of a block is given once for each of them, after all that the last one says. -/
theorem failure_says_what_was_expected {text : String} {m : Misreading}
    (h : ofText? text = .error m) :
    m.failure.hints ≠ [] ∧ Report.showHints m.failure.hints ≠ "" ∧
      String.Pos.Raw.IsValid text ⟨m.offset⟩ ∧ m.offset ≤ text.utf8ByteSize ∧
      (∃ stack own, Breaks (Line.split text.toList) stack own) ∧
      ∀ stack own, Breaks (Line.split text.toList) stack own →
        m.failure.place = own.place ∧
        m.failure.hints = own.hints ++ List.replicate stack.length Block.hint ∧
        m.failure.hints.count Block.hint = stack.length ∧
        ∀ ks ∈ stack.dropLast, ∃ c ms, opening ks = .ok c ms := by
  obtain ⟨hread, hlines⟩ := ofText?_eq_error.mp h
  have hsaid : ∀ {stack own}, Breaks (Line.split text.toList) stack own →
      SaidBy stack own m.failure := fun hbreaks => by
    obtain ⟨e, he, hsaid⟩ := hbreaks.reader_eq
    rw [hread] at he
    cases he
    exact hsaid
  obtain ⟨stack, own, hbreaks⟩ := exists_breaks hread
  have hhints : m.failure.hints ≠ [] := (hsaid hbreaks).2 ▸ hbreaks.hints_ne_nil
  have hafter : m.after <:+ text.toList := by
    rw [Misreading.after, (hsaid hbreaks).1]
    simpa only [Line.join_split] using hbreaks.stands.place
  obtain ⟨hvalid, hle⟩ := Misreading.valid_offset hafter hlines
  refine ⟨hhints, Report.showHints_ne_empty hhints, hvalid, hle, ⟨stack, own, hbreaks⟩, ?_⟩
  intro stack own hbreaks
  obtain ⟨hplace, hall⟩ := hsaid hbreaks
  refine ⟨hplace, hall, ?_, hbreaks.conditionals⟩
  have hown : own.hints.count Block.hint = 0 :=
    List.count_eq_zero.mpr fun hmem => hbreaks.stands.inner _ hmem rfl
  rw [hall, List.count_append, hown, List.count_replicate_self, Nat.zero_add]

/-- The conditional in a second branch is not ended: two blocks have been entered. -/
theorem failure_says_what_was_expected_unclosed :
    ∃ m, ofText? "$IF a?\n$ELSE\n$IF b?\nx" = .error m ∧
      m.failure.hints = [.expected "$ENDIF", Block.hint, Block.hint] ∧
      Report.showHints m.failure.hints ≠ "" ∧
      String.Pos.Raw.IsValid "$IF a?\n$ELSE\n$IF b?\nx" ⟨m.offset⟩ ∧
      ∃ stack own, Breaks (Line.split "$IF a?\n$ELSE\n$IF b?\nx".toList) stack own ∧
        stack.length = 2 := by
  have hhints : (match ofText? "$IF a?\n$ELSE\n$IF b?\nx" with
      | .ok _ => []
      | .error m => m.failure.hints) = [.expected "$ENDIF", Block.hint, Block.hint] := by
    decide +kernel
  cases h : ofText? "$IF a?\n$ELSE\n$IF b?\nx" with
  | ok d => simp [h] at hhints
  | error m =>
    simp only [h] at hhints
    obtain ⟨-, hshown, hvalid, -, ⟨stack, own, hbreaks⟩, hall⟩ := failure_says_what_was_expected h
    obtain ⟨-, -, hcount, -⟩ := hall stack own hbreaks
    refine ⟨m, rfl, hhints, hshown, hvalid, stack, own, hbreaks, ?_⟩
    rw [← hcount, hhints]
    decide

end Document

end Interview
