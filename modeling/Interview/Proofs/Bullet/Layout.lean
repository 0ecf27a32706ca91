import Interview.Proofs.Bullet.Reading

/-!
# Indentation and nesting of bullets

Bullets are nested by indentation and by nothing else. `Row gap w c t s` says, without any reader,
that the text `s` is the line of a bullet at the column `w` with a spelling of the condition `c`
and, with `gap` around an arrow, the target `t`.

* `Bullet.head_of_row`, `Bullet.row_of_head`: the line of a bullet is read as it is written.
* `Bullet.Laid.open_of_dedent`: a line that is indented less than the one before it belongs to a
  list that is still open.
* `Bullet.indentation_decides_nesting`: what a block of bullets is read as, in both directions.
-/

namespace Interview

open Reader Text Word Clause

namespace Bullet

/-- The line of a bullet at a column: indentation, a mark, a gap, a spelling of the condition and,
if the bullet has a target, an arrow with `gap` before and after it and the target. -/
inductive Row (gap : List Char → Prop) : Nat → Clause → Option String → List Char → Prop
  /-- A bullet with a target. -/
  | goTo {g k q a b n p : List Char} {m : Char} {c : Clause} : Spaces g → Mark m → Gap k →
      Spells q c → gap a → gap b → Target n → Spaces p →
      Row gap (width g) c (some (String.ofList n))
        (g ++ m :: (k ++ (q ++ (a ++ ("=>".toList ++ (b ++ (n ++ p)))))))
  /-- A bullet that heads the bullets under it. -/
  | group {g k q p : List Char} {m : Char} {c : Clause} : Spaces g → Mark m → Gap k →
      Spells q c → Spaces p → Row gap (width g) c none (g ++ m :: (k ++ (q ++ p)))

variable {w : Nat} {c : Clause} {o : Option String} {s r : List Char}

theorem stem_of_row {g k q t : List Char} {m : Char} (hg : Spaces g) (hm : Mark m) (hk : Gap k)
    (hq : Spells q c) (hapart : Apart t) (hand : ¬ "and".toList <+: t.dropWhile isSpace) :
    stem (width g) (g ++ m :: (k ++ (q ++ t))) = .ok c t :=
  stem_iff.mpr ⟨g, m, k, q ++ t, hg, rfl, hm, hk, Spells.stops hq, rfl,
    clause_of_spells hq hapart hand⟩

theorem head_of_row (h : Row Gap w c o s) : head w s = .ok (c, o) [] := by
  cases h with
  | @goTo g k q a b n p m c hg hm hk hq ha hb hn hp =>
    have hdrop : (a ++ ("=>".toList ++ (b ++ (n ++ p)))).dropWhile isSpace =
        "=>".toList ++ (b ++ (n ++ p)) := dropWhile_spaces ha.2 (stops_cons.mpr (by decide))
    have hapart : Apart (a ++ ("=>".toList ++ (b ++ (n ++ p)))) :=
      apart_of_arrow ha (hb.stops fun _ => isOperatorChar_of_isSpace)
    have hand : ¬ "and".toList <+:
        (a ++ ("=>".toList ++ (b ++ (n ++ p)))).dropWhile isSpace := by
      rw [hdrop]
      rintro ⟨x, hx⟩
      simp at hx
    exact head_iff.mpr ⟨_, stem_of_row hg hm hk hq hapart hand,
      ending_iff.mpr (.inr ⟨a, b, n, p, ha.2, hb.2, hn, hp, rfl, rfl⟩)⟩
  | @group g k q p m c hg hm hk hq hp =>
    have hand : ¬ "and".toList <+: p.dropWhile isSpace := by
      rw [spaces_iff_dropWhile.mp hp]
      simp
    exact head_iff.mpr ⟨p, stem_of_row hg hm hk hq (apart_of_spaces hp) hand,
      ending_iff.mpr (.inl ⟨rfl, hp⟩)⟩

theorem row_of_head (h : head w s = .ok (c, o) []) : Row Spaces w c o s := by
  obtain ⟨t, hstem, hend⟩ := head_iff.mp h
  obtain ⟨g, m, k, u, hg, rfl, hm, hk, -, rfl, hc⟩ := stem_iff.mp hstem
  obtain ⟨q, rfl, hq⟩ := spells_of_clause hc
  rcases ending_iff.mp hend with ⟨rfl, ht⟩ | ⟨a, b, n, p, ha, hb, hn, hp, rfl, rfl⟩
  · exact .group hg hm hk hq ht
  · exact .goTo hg hm hk hq ha hb hn hp

/-! ## Columns -/

variable {bs : List Bullet} {ls : List Line}

/-- A list at the column `w` is open after the lines `ls`: one of them is at that column, and none
after it is at a smaller one. -/
def Open (w : Nat) (ls : List Line) : Prop :=
  ∃ us m vs, ls = us ++ m :: vs ∧ column m = w ∧ ∀ l ∈ vs, w ≤ column l

theorem Open.append_left (us : List Line) (h : Open w ls) : Open w (us ++ ls) := by
  obtain ⟨xs, m, vs, rfl, hm, hvs⟩ := h
  exact ⟨us ++ xs, m, vs, by simp, hm, hvs⟩

/-- No line of a list is at a smaller column than the list. -/
theorem Laid.le_column (h : Laid Read w bs ls) : ∀ l ∈ ls, w ≤ column l := by
  induction h with
  | nil => simp
  | goTo hl _ ih =>
    intro l hmem
    rcases List.mem_cons.mp hmem with rfl | hmem
    · exact (column_of_head hl).ge
    · exact ih l hmem
  | group hl hlt _ _ _ ihkids ih =>
    intro l hmem
    rcases List.mem_cons.mp hmem with rfl | hmem
    · exact (column_of_head hl).ge
    rcases List.mem_append.mp hmem with hmem | hmem
    · exact hlt.le.trans (ihkids l hmem)
    · exact ih l hmem

/-- Where a line of a list stands: first, in a list that is open before it, or deeper than the
line before it. -/
theorem Laid.open_or_deeper (h : Laid Read w bs ls) {us vs : List Line} {d : Line}
    (hls : ls = us ++ d :: vs) : us = [] ∧ column d = w ∨ Open (column d) us ∨
      ∃ xs l, us = xs ++ [l] ∧ column l < column d := by
  induction h generalizing us vs d with
  | nil => simp at hls
  | @goTo w c t l bs ls hl _ ih =>
    have hcolumn := column_of_head hl
    cases us with
    | nil =>
      obtain ⟨rfl, -⟩ := List.cons.inj hls
      exact .inl ⟨rfl, hcolumn⟩
    | cons x us =>
      obtain rfl : l = x := (List.cons.inj hls).1
      have htail : ls = us ++ d :: vs := (List.cons.inj hls).2
      right
      rcases ih htail with ⟨rfl, hd⟩ | hopen | ⟨xs, y, rfl, hlt⟩
      · exact .inl ⟨[], l, [], rfl, hcolumn.trans hd.symm, by simp⟩
      · exact .inl (hopen.append_left [l])
      · exact .inr ⟨l :: xs, y, rfl, hlt⟩
  | @group w v c l kids bs ks ls hl hlt _ hkids _ ihkids ih =>
    have hcolumn := column_of_head hl
    cases us with
    | nil =>
      obtain ⟨rfl, -⟩ := List.cons.inj hls
      exact .inl ⟨rfl, hcolumn⟩
    | cons x us =>
      obtain rfl : l = x := (List.cons.inj hls).1
      have htail : ks ++ ls = us ++ d :: vs := (List.cons.inj hls).2
      right
      -- The line is one of the children, or it comes after all of them.
      rcases List.append_eq_append_iff.mp htail with ⟨xs, rfl, hrest⟩ | ⟨xs, rfl, hrest⟩
      · rcases ih hrest with ⟨rfl, hd⟩ | hopen | ⟨ys, y, rfl, hlt'⟩
        · refine .inl ⟨[], l, ks ++ [], rfl, hcolumn.trans hd.symm, fun k hk => ?_⟩
          rw [List.append_nil] at hk
          exact hd ▸ hlt.le.trans (hkids.le_column k hk)
        · exact .inl (hopen.append_left (l :: ks))
        · exact .inr ⟨l :: (ks ++ ys), y, by simp, hlt'⟩
      · cases xs with
        | nil =>
          have hrest : ls = [] ++ d :: vs := hrest.symm
          rcases ih hrest with ⟨-, hd⟩ | ⟨_, _, _, h, -⟩ | ⟨_, _, h, -⟩
          · refine .inl ⟨[], l, us, by simp, hcolumn.trans hd.symm, fun k hk => ?_⟩
            exact hd ▸ hlt.le.trans (hkids.le_column k (by simpa using hk))
          · simp at h
          · simp at h
        | cons x xs =>
          obtain ⟨rfl, -⟩ := List.cons.inj hrest
          rcases ihkids rfl with ⟨rfl, hd⟩ | hopen | ⟨ys, y, rfl, hlt'⟩
          · exact .inr ⟨[], l, rfl, by omega⟩
          · exact .inl (hopen.append_left [l])
          · exact .inr ⟨l :: ys, y, rfl, hlt'⟩

/-- A line that is indented less than the one before it belongs to a list that is still open. -/
theorem Laid.open_of_dedent (h : Laid Read w bs ls) {us vs : List Line} {l d : Line}
    (hls : ls = us ++ l :: d :: vs) (hlt : column d < column l) : Open (column d) (us ++ [l]) := by
  have hsplit : ls = us ++ [l] ++ d :: vs := by simp [hls]
  rcases h.open_or_deeper hsplit with ⟨hnil, -⟩ | hopen | ⟨xs, m, hus, hlt'⟩
  · simp at hnil
  · exact hopen
  · obtain ⟨-, rfl⟩ := List.append_inj' hus rfl |>.imp id fun h => (List.cons.inj h).1
    omega

/-! ## Blocks of bullets -/

/-- A line after which a block of bullets cannot end is one of its lines. -/
theorem exists_of_not_ends {ms rest us vs : List Line} {d : Line} (h : ms ++ rest = us ++ d :: vs)
    (hends : Ends rest) (hnot : ∀ k ∈ us ++ [d], ¬ Ends [k]) : ∃ xs, ms = us ++ d :: xs := by
  have hrest : ∀ {k ks}, rest = k :: ks → k ∉ us ++ [d] := by
    rintro k ks rfl hk
    exact hnot k hk fun l hl => hends l hl
  rcases List.append_eq_append_iff.mp h with ⟨xs, rfl, hxs⟩ | ⟨xs, rfl, hxs⟩
  · cases xs with
    | nil => exact absurd (by simp) (hrest hxs)
    | cons x xs =>
      refine absurd ?_ (hrest hxs)
      simp
  · cases xs with
    | nil => exact absurd (by simp) (hrest hxs.symm)
    | cons x xs =>
      obtain ⟨rfl, rfl⟩ := List.cons.inj hxs
      exact ⟨xs, rfl⟩

/-- **Indentation decides nesting.** Bullets laid out by indentation are read as exactly the
bullets they stand for, before a blank line, before a directive line and at the end of the input.
Conversely the lines that are read as a block of bullets are laid out so, in the order of the
bullets; and a line that is indented less than the one before it, at the column of no list that is
open there, makes the block unreadable. -/
theorem indentation_decides_nesting :
    (∀ (w : Nat) (bs : List Bullet) (ls rest : List Line), bs ≠ [] → Laid (Row Gap) w bs ls →
      Ends rest → block (ls ++ rest) = .ok bs rest) ∧
    (∀ (s : List Line) (bs : List Bullet) (rest : List Line), block s = .ok bs rest →
      bs ≠ [] ∧ Ends rest ∧ ∃ w ls, s = ls ++ rest ∧ Laid (Row Spaces) w bs ls) ∧
    (∀ (us vs : List Line) (l d : Line), (∀ k ∈ us ++ [l, d], ¬ Ends [k]) →
      column d < column l → ¬ Open (column d) (us ++ [l]) →
      ∀ bs rest, block (us ++ l :: d :: vs) ≠ .ok bs rest) := by
  refine ⟨fun w bs ls rest hne hlaid hends => ?_, fun s bs rest h => ?_, ?_⟩
  · exact block_iff.mpr ⟨w, ls, rfl, hne, hlaid.mono head_of_row, hends⟩
  · obtain ⟨w, ls, rfl, hne, hlaid, hends⟩ := block_iff.mp h
    exact ⟨hne, hends, w, ls, rfl, hlaid.mono row_of_head⟩
  · intro us vs l d hnot hlt hclosed bs rest h
    obtain ⟨w, ls, heq, -, hlaid, hends⟩ := block_iff.mp h
    have hsplit : ls ++ rest = us ++ [l] ++ d :: vs := by simp [← heq]
    obtain ⟨xs, rfl⟩ := exists_of_not_ends hsplit hends (by simpa using hnot)
    have hpair : us ++ [l] ++ d :: xs = us ++ l :: d :: xs := by simp
    exact hclosed (hlaid.open_of_dedent hpair hlt)

/-- A bullet under another, indented by a tab, before a directive line; and a dedent to a column of
no list. -/
theorem indentation_decides_nesting_tab :
    (Laid (Row Gap) 0 [.group (.named "a?") [.goTo (.named "b?") "c"]]
        [⟨"* a?".toList, .lineFeed⟩, ⟨"\t- b? => c".toList, .lineFeed⟩] ∧
      block [⟨"* a?".toList, .lineFeed⟩, ⟨"\t- b? => c".toList, .lineFeed⟩,
        ⟨"$ENDIF".toList, .none⟩] =
          .ok [.group (.named "a?") [.goTo (.named "b?") "c"]] [⟨"$ENDIF".toList, .none⟩]) ∧
    ∀ bs rest, block [⟨"* a?".toList, .lineFeed⟩, ⟨"\t- b? => c".toList, .lineFeed⟩,
      ⟨" * d? => e".toList, .none⟩] ≠ .ok bs rest := by
  have hname : ∀ c : Char, isNameChar c = true → Spells [c, '?'] (.named (String.ofList [c, '?'])) :=
    fun c hc => .single (.named ⟨[c], ['?'], rfl, by simp, by simpa using hc, .inr rfl⟩ rfl)
  have hgap : Gap [' '] := ⟨by simp, by simp [Spaces, isSpace]⟩
  have htarget : Target ['c'] := ⟨by simp, by simp [isBlank]⟩
  have hparent : Row Gap 0 (.named "a?") none "* a?".toList :=
    Row.group (p := []) spaces_nil (.inl rfl) hgap (hname 'a' rfl) spaces_nil
  have hchild : Row Gap 4 (.named "b?") (some "c") "\t- b? => c".toList :=
    Row.goTo (p := []) (g := ['\t']) (by simp [Spaces, isSpace]) (.inr rfl) hgap (hname 'b' rfl)
      hgap hgap htarget spaces_nil
  have hlaid : Laid (Row Gap) 0 [.group (.named "a?") [.goTo (.named "b?") "c"]]
      [⟨"* a?".toList, .lineFeed⟩, ⟨"\t- b? => c".toList, .lineFeed⟩] :=
    .group hparent (by decide) (by simp) (.goTo hchild .nil) .nil
  have hends : Ends [⟨"$ENDIF".toList, .none⟩] := by
    intro l hl
    obtain rfl : _ = l := by simpa using hl
    exact .inr (by decide +kernel)
  refine ⟨⟨hlaid, indentation_decides_nesting.1 0 _ _ _ (by simp) hlaid hends⟩,
    indentation_decides_nesting.2.2 [⟨"* a?".toList, .lineFeed⟩] [] _ _ ?_ (by decide +kernel) ?_⟩
  · intro k hk hends
    have hline := hends k rfl
    simp only [List.mem_append, List.mem_cons, List.not_mem_nil, or_false] at hk
    rcases hk with rfl | rfl | rfl <;> revert hline <;> decide +kernel
  · rintro ⟨us, m, vs, heq, hm, -⟩
    have hmem : m ∈ us ++ m :: vs := by simp
    rw [← heq] at hmem
    simp only [List.mem_append, List.mem_cons, List.not_mem_nil, or_false] at hmem
    rcases hmem with rfl | rfl <;> revert hm <;> decide +kernel

end Bullet

end Interview
