import Interview.Document.Reading
import Interview.Proofs.Block.Recursion
import Interview.Proofs.Document.Composition
import Interview.Proofs.Text.Lines

/-!
# Every reading ends

All readers that are repeated take something from their input when they succeed, and the readers
that call themselves do so on fewer lines. So no repetition goes round without getting on, the
recursions are well founded, and every text is read to a document or a failure.

* `Advances`: a reader of lines that leaves a shorter end of the text.
* `blankLine`, `vacantLines_eq`: vacant lines as a repetition of one.
* `Document.readings_end`: what is repeated, and what is recursive.
-/

namespace Interview

open Reader Word

namespace Line

theorem join_ne_nil {ls : List Line} {s : List Char} (h : ls <:+: split s) (hne : ls ≠ []) :
    join ls ≠ [] := by
  intro hnil
  have hsplit := split_join h
  rw [hnil] at hsplit
  exact hne hsplit.symm

end Line

namespace Reader

variable {α : Type} {p : Reader Line α} {ls : List Line}

/-- Where `p` succeeds in a text, it leaves a shorter end of that text. -/
def Advances (p : Reader Line α) : Prop := ∀ (text : List Char) (a : α) (rest : List Line),
  p (Line.split text) = .ok a rest →
    ∃ t, rest = Line.split t ∧ t <:+ text ∧ t.length < text.length

theorem Consumes.advances (hp : Consumes p) : Advances p := by
  intro text a rest h
  obtain ⟨⟨front, hfront⟩, hlt⟩ := hp h
  have hjoin : Line.join front ++ Line.join rest = text := by
    rw [← Line.join_append, hfront, Line.join_split]
  have hne : front ≠ [] := by
    rintro rfl
    rw [← hfront] at hlt
    exact Nat.lt_irrefl _ hlt
  have hchars := Line.join_ne_nil ⟨[], rest, hfront⟩ hne
  refine ⟨Line.join rest, (Line.split_join ⟨front, [], by simpa using hfront⟩).symm,
    ⟨Line.join front, hjoin⟩, ?_⟩
  rw [← hjoin, List.length_append]
  have := List.length_pos_iff.mpr hchars
  omega

/-! ## Blank lines -/

/-- A line of spaces that ends in a break. -/
def blankLine : Reader Line Unit := brokenLine spaces

/-- Spaces at the end of the text, after the last break. -/
def lastBlank : Reader Line Unit := do
  let (_, ending) ← lineBreaking spaces
  if ending = .none then return () else reject

theorem consumes_brokenLine {p : Reader Char α} : Consumes (brokenLine p) := by
  intro ls a r h
  obtain ⟨l, rfl, -⟩ := brokenLine_eq_ok.mp h
  exact ⟨List.suffix_cons l r, Nat.lt_succ_self _⟩

theorem lineBreaking_spaces_of_vacant {l : Line} (h : l.isVacant = true) :
    lineBreaking spaces (l :: ls) = .ok ((), l.ending) ls := by
  have hspaces : spaces l.text = .ok () [] := by
    show Reply.ok () (l.text.dropWhile Text.isSpace) = .ok () []
    rw [List.dropWhile_eq_nil_iff.mpr (List.all_eq_true.mp h)]
  exact lineBreaking_cons_eq_ok.mpr ⟨hspaces, rfl, rfl⟩

theorem lineBreaking_spaces_fails {l : Line} (h : l.isVacant = false) :
    Fails (lineBreaking spaces) (l :: ls) := by
  refine lineBreaking_fails.mpr (.inl ?_)
  obtain ⟨c, r, hr⟩ := List.exists_cons_of_ne_nil
    (show l.text.dropWhile Text.isSpace ≠ [] from fun hnil => by
      have hall : l.isVacant = true := List.all_eq_true.mpr (List.dropWhile_eq_nil_iff.mp hnil)
      simp [h] at hall)
  exact ⟨(), c, r, by rw [← hr]; rfl⟩

theorem many_blankLine_of_fails (h : Fails blankLine ls) : many blankLine ls = .ok [] ls := by
  obtain ⟨e, he, hroom⟩ := h
  exact many_of_fail he hroom

/-- Vacant lines are blank lines, and perhaps spaces at the end of the text. -/
theorem vacantLines_eq (h : Line.Whole ls) : vacantLines ls = (do
    let _ ← many blankLine
    let _ ← lastBlank.maybe : Reader Line Unit) ls := by
  suffices hread : ∃ us t o, many blankLine ls = .ok us t ∧
      lastBlank.maybe t = .ok o (ls.dropWhile Line.isVacant) by
    obtain ⟨us, t, o, hus, ho⟩ := hread
    exact (bind_eq_ok.mpr ⟨us, t, hus, bind_eq_ok.mpr ⟨o, _, ho, pure_apply ()⟩⟩).symm
  induction ls with
  | nil => exact ⟨[], [], some (), many_blankLine_of_fails ⟨_, rfl, rfl⟩, rfl⟩
  | cons l ls ih =>
    cases hv : l.isVacant with
    | false =>
      have hfails : Fails (lineBreaking spaces) (l :: ls) := lineBreaking_spaces_fails hv
      refine ⟨[], l :: ls, none, many_blankLine_of_fails (bind_fails_of_fails hfails), ?_⟩
      rw [List.dropWhile_cons_of_neg (by simp [hv])]
      exact maybe_eq_ok.mpr (.inr ⟨rfl, rfl, bind_fails_of_fails hfails⟩)
    | true =>
      have hline : lineBreaking spaces (l :: ls) = .ok ((), l.ending) ls :=
        lineBreaking_spaces_of_vacant hv
      rw [List.dropWhile_cons_of_pos hv]
      by_cases hb : l.ending = .none
      · -- A line without a break is the last one.
        obtain rfl : ls = [] := by
          cases ls with
          | nil => rfl
          | cons m ms => exact absurd hb (List.isChain_cons_cons.mp h).1
        rw [hb] at hline
        refine ⟨[], [l], some (), many_blankLine_of_fails ?_, ?_⟩
        · exact bind_fails.mpr (.inr ⟨_, _, hline, _, rfl, rfl⟩)
        · exact maybe_eq_ok.mpr (.inl ⟨(), rfl, bind_eq_ok.mpr ⟨_, _, hline, rfl⟩⟩)
      · obtain ⟨us, t, o, hus, ho⟩ := ih h.tail
        have hblank : blankLine (l :: ls) = .ok () ls :=
          bind_eq_ok.mpr ⟨_, _, hline, by simp [hb]⟩
        exact ⟨() :: us, t, o, many_of_ok hblank (Nat.lt_succ_self _) hus, ho⟩

end Reader

theorem Prose.consumes_paragraphLine : Consumes Prose.paragraphLine := by
  rintro ls ⟨text, ending⟩ r h
  obtain ⟨l, rfl, -⟩ := (lineBreaking_eq_ok Block.proseText_fails_nil.hungry).mp h
  exact ⟨List.suffix_cons l r, Nat.lt_succ_self _⟩

theorem Clause.consumes_another : Consumes Clause.another := by
  rw [another_eq]
  exact consumes_joint_single

namespace Document

/-- **Every reading ends.** What is repeated leaves a shorter end of the text whenever it succeeds,
and no repetition stalls; vacant lines are such a repetition. The readers of blocks and of bullets
are the only solutions of their equations, and their calls are nested no deeper than the text has
lines. So every text is read to a document or to a failure. -/
theorem readings_end :
    (Advances blankLine ∧ Advances entry ∧ (∀ w, Advances (Bullet.item Bullet.list w)) ∧
      Advances (line Tag.choice) ∧ Advances Prose.paragraphLine ∧
      Advances (brokenLine restOfLine) ∧ Advances (Block.single Block.list)) ∧
    (Repeatable blankLine ∧ Repeatable entry ∧ (∀ w, Repeatable (Bullet.item Bullet.list w)) ∧
      Repeatable (line Tag.choice) ∧ Repeatable Prose.paragraphLine ∧
      Repeatable (brokenLine restOfLine) ∧ Repeatable Clause.another ∧ Repeatable Tag.option ∧
      Repeatable (comma >>= fun _ => value) ∧ Repeatable (spaces1 >>= fun _ => value)) ∧
    (∀ text ls, ls <:+ Line.split text → vacantLines ls = (do
      let _ ← many blankLine
      let _ ← lastBlank.maybe : Reader Line Unit) ls) ∧
    Founded (fun (blocks : Unit → Reader Line (List Block)) _ => Block.round (blocks ()))
      (fun _ => Block.list) ∧
    Founded (fun list w => many1 (Bullet.item list w)) Bullet.list ∧
    ∀ text, (∃ d, ofText? text = .ok d) ∨ ∃ m, ofText? text = .error m := by
  have hentry : Consumes entry := consumes_line hungry_entryText
  have hitem : ∀ w, Consumes (Bullet.item Bullet.list w) := Bullet.consumes_item Bullet.keeps_list
  have hchoice : Consumes (line Tag.choice) := consumes_line Tag.hungry_choice
  have hblank : Consumes blankLine := consumes_brokenLine
  have hbox : Consumes (brokenLine restOfLine) := consumes_brokenLine
  refine ⟨⟨hblank.advances, hentry.advances, fun w => (hitem w).advances, hchoice.advances,
      Prose.consumes_paragraphLine.advances, hbox.advances,
      (Block.consumes_single Block.keeps_list).advances⟩,
    ⟨hblank.repeatable, hentry.repeatable, fun w => (hitem w).repeatable, hchoice.repeatable,
      Prose.consumes_paragraphLine.repeatable, hbox.repeatable, Clause.consumes_another.repeatable,
      Tag.consumes_option.repeatable, consumes_comma_value.repeatable,
      consumes_spaces1_value.repeatable⟩, ?_, Block.descends_round.founded,
    Bullet.descends_list.founded, fun text => ?_⟩
  · intro text ls hls
    have hwhole : Line.Whole ls := List.IsChain.infix (Line.whole_split text) hls.isInfix
    exact vacantLines_eq hwhole
  · cases ofText? text with
    | ok d => exact .inl ⟨d, rfl⟩
    | error m => exact .inr ⟨m, rfl⟩

end Document

end Interview
