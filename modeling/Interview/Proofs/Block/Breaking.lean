import Interview.Proofs.Block.Recursion
import Interview.Proofs.Document.Places

/-!
# Where reading breaks off

When a list of blocks cannot be read, some blocks have been entered and not left: the conditionals
around the place, from the outside in, and the block that failed by itself. Each of them says what
it expected, so the hint of a block is given once for each of them.

* `Block.Own`: the failures of a block itself.
* `Block.Breaks`: the blocks that are entered and not left where reading breaks off.
* `Block.exists_breaks`, `Block.Breaks.list_eq`: when a list of blocks fails, and what it says.
-/

namespace Interview

namespace Block

open Reader Directive

variable {f : Reader Line (List Block)} {ls ks ms us vs : List Line} {e : Failure Line}
  {stack : List (List Line)}

/-! ## One block -/

/-- The failure where `$ENDIF` should be, and is not. -/
def unclosed (e : Failure Line) : Failure Line :=
  { e with isFinal := true, hints := e.hints ++ [.expected "$ENDIF"] }

theorem closing_eq_fail {b : Block} :
    ((directive "$ENDIF").commit.expecting "$ENDIF" >>= fun _ => (pure b : Reader Line Block)) us =
      .fail e ↔ ∃ e', directive "$ENDIF" us = .fail e' ∧ e = unclosed e' := by
  rw [bind_eq_fail, expecting_eq_fail]
  simp only [commit_eq_fail]
  constructor
  · rintro (⟨_, ⟨e', he, rfl⟩, rfl⟩ | ⟨_, _, _, h⟩)
    · exact ⟨e', he, rfl⟩
    · cases h
  · rintro ⟨e', he, rfl⟩
    exact .inl ⟨_, ⟨e', he, rfl⟩, rfl⟩

/-- How a conditional fails: at its first line, in a branch, or where it should end. -/
theorem branching_eq_fail : branching f ls = .fail e ↔ opening ls = .fail e ∨
    ∃ c ms, opening ls = .ok c ms ∧ ((∃ e', f ms = .fail e' ∧ e = { e' with isFinal := true }) ∨
      ∃ bs us, f ms = .ok bs us ∧
        ((Fails (directive "$ELSE") us ∧ ∃ e', directive "$ENDIF" us = .fail e' ∧ e = unclosed e') ∨
          ∃ vs, directive "$ELSE" us = .ok () vs ∧
            ((∃ e', f vs = .fail e' ∧ e = { e' with isFinal := true }) ∨
              ∃ es ws, f vs = .ok es ws ∧
                ∃ e', directive "$ENDIF" ws = .fail e' ∧ e = unclosed e'))) := by
  rw [branching_eq, bind_eq_fail]
  refine or_congr_right (exists_congr fun c => exists_congr fun ms => and_congr_right fun _ => ?_)
  rw [bind_eq_fail, commit_eq_fail]
  refine or_congr_right (exists_congr fun bs => exists_congr fun us => ?_)
  rw [commit_eq_ok, bind_eq_fail]
  refine and_congr_right fun _ => ?_
  have hmaybe : ¬ (directive "$ELSE").maybe us = .fail e := fun h => by
    obtain ⟨h, hfinal⟩ := maybe_eq_fail.mp h
    simp [(tentative_directiveText "$ELSE").line h] at hfinal
  constructor
  · rintro (h | ⟨o, vs, ho, h⟩)
    · exact absurd h hmaybe
    · rcases maybe_eq_ok.mp ho with ⟨⟨⟩, rfl, hvs⟩ | ⟨rfl, rfl, hfails⟩
      · refine .inr ⟨vs, hvs, ?_⟩
        rcases bind_eq_fail.mp h with h | ⟨es, ws, hes, h⟩
        · exact .inl (commit_eq_fail.mp h)
        · exact .inr ⟨es, ws, commit_eq_ok.mp hes, closing_eq_fail.mp h⟩
      · rcases bind_eq_fail.mp h with h | ⟨es, ws, hes, h⟩
        · cases h
        · cases hes
          exact .inl ⟨hfails, closing_eq_fail.mp h⟩
  · rintro (⟨hfails, h⟩ | ⟨vs, hvs, h⟩)
    · exact .inr ⟨none, us, maybe_eq_ok.mpr (.inr ⟨rfl, rfl, hfails⟩),
        bind_eq_fail.mpr (.inr ⟨[], us, rfl, closing_eq_fail.mpr h⟩)⟩
    · refine .inr ⟨some (), vs, maybe_eq_ok.mpr (.inl ⟨(), rfl, hvs⟩), bind_eq_fail.mpr ?_⟩
      rcases h with h | ⟨es, ws, hes, h⟩
      · exact .inl (commit_eq_fail.mpr h)
      · exact .inr ⟨es, ws, commit_eq_ok.mpr hes, closing_eq_fail.mpr h⟩

theorem single_eq_fail : single f ls = .fail e ↔ ∃ e',
    (branching f ls = .fail e' ∧ e'.isFinal = true ∨ Fails (branching f) ls ∧ plain ls = .fail e') ∧
      e = { e' with hints := e'.hints ++ [hint] } := by
  show ((branching f <|> plain).expecting _) ls = .fail e ↔ _
  simp only [expecting_eq_fail, orElse_eq_fail]
  rfl

/-- A conditional leaves room for another block at its first line only. -/
theorem branching_fails_iff : Fails (branching f) ls ↔ Fails opening ls := by
  refine ⟨?_, bind_fails_of_fails⟩
  rintro ⟨e, h, hroom⟩
  rcases branching_eq_fail.mp h with h | ⟨c, ms, -, ⟨e', -, rfl⟩ | ⟨bs, us, -, ⟨-, e', -, rfl⟩ |
    ⟨vs, -, ⟨e', -, rfl⟩ | ⟨es, ws, -, e', -, rfl⟩⟩⟩⟩
  · exact ⟨e, h, hroom⟩
  all_goals cases hroom

/-! ## Lists of blocks -/

/-- A failure of a block itself, and not of a block in one of its branches. -/
inductive Own (ls : List Line) : Failure Line → Prop
  /-- After `$IF` there is no condition. -/
  | condition {e : Failure Line} : opening ls = .fail e → e.isFinal = true → Own ls e
  /-- After the only branch there is no `$ENDIF`. -/
  | ending {c : Clause} {bs : List Block} {ms us : List Line} {e : Failure Line} :
      opening ls = .ok c ms → list ms = .ok bs us → Fails (directive "$ELSE") us →
      directive "$ENDIF" us = .fail e → Own ls (unclosed e)
  /-- After the second branch there is no `$ENDIF`. -/
  | elseEnding {c : Clause} {bs es : List Block} {ms us vs ws : List Line} {e : Failure Line} :
      opening ls = .ok c ms → list ms = .ok bs us → directive "$ELSE" us = .ok () vs →
      list vs = .ok es ws → directive "$ENDIF" ws = .fail e → Own ls (unclosed e)
  /-- There is no `$IF`, and no other block can be read. -/
  | plain {e : Failure Line} : Fails opening ls → plain ls = .fail e → Own ls e

/-- Reading the blocks in the lines `ls` breaks off with a failure in blocks that have been entered
and not been left. They start at the places `stack`, the outermost first, and the last one fails by
itself. -/
inductive Breaks : List Line → List (List Line) → Failure Line → Prop
  /-- The next block fails by itself. -/
  | own {ls ks : List Line} {e : Failure Line} : ls.dropWhile Line.isVacant = ks →
      atBranchEnd ks = false → Own ks e → Breaks ls [ks] e
  /-- The next block is a conditional, and reading breaks off in its first branch. -/
  | thenBranch {ls ks ms : List Line} {c : Clause} {stack : List (List Line)} {e : Failure Line} :
      ls.dropWhile Line.isVacant = ks → atBranchEnd ks = false → opening ks = .ok c ms →
      Breaks ms stack e → Breaks ls (ks :: stack) e
  /-- The next block is a conditional, and reading breaks off in its second branch. -/
  | elseBranch {ls ks ms us vs : List Line} {c : Clause} {bs : List Block}
      {stack : List (List Line)} {e : Failure Line} : ls.dropWhile Line.isVacant = ks →
      atBranchEnd ks = false → opening ks = .ok c ms → list ms = .ok bs us →
      directive "$ELSE" us = .ok () vs → Breaks vs stack e → Breaks ls (ks :: stack) e
  /-- The next block is read, and reading breaks off after it. -/
  | next {ls ks ms : List Line} {b : Block} {stack : List (List Line)} {e : Failure Line} :
      ls.dropWhile Line.isVacant = ks → atBranchEnd ks = false → single list ks = .ok b ms →
      Breaks ms stack e → Breaks ls stack e

/-- What the failure `e` of the last of some blocks is after all of them have been left. -/
def SaidBy (stack : List (List Line)) (e e' : Failure Line) : Prop :=
  e'.place = e.place ∧ e'.hints = e.hints ++ List.replicate stack.length hint

theorem list_eq_fail (hks : ls.dropWhile Line.isVacant = ks) : list ls = .fail e ↔
    atBranchEnd ks = false ∧
      (single list ks = .fail e ∨ ∃ b ms, single list ks = .ok b ms ∧ list ms = .fail e) := by
  have hround : list ls = (if atBranchEnd ks then pure []
      else single list >>= fun b => list >>= fun bs => pure (b :: bs)) ks := by
    rw [← hks]
    exact congrFun list_eq ls
  rw [hround]
  cases hend : atBranchEnd ks with
  | true => simp
  | false =>
    rw [if_neg Bool.false_ne_true, bind_eq_fail]
    simp only [bind_eq_fail, pure_apply, reduceCtorEq, and_false, exists_false, or_false, true_and]

theorem SaidBy.cons {e' : Failure Line} (h : SaidBy stack e e') (room : Bool) :
    SaidBy (ks :: stack) e { e' with isFinal := room, hints := e'.hints ++ [hint] } := by
  refine ⟨h.1, ?_⟩
  rw [List.length_cons, List.replicate_succ', ← List.append_assoc, ← h.2]

theorem Own.single_eq (h : Own ks e) :
    single list ks = .fail { e with hints := e.hints ++ [hint] } := by
  refine single_eq_fail.mpr ⟨e, ?_, rfl⟩
  cases h with
  | condition h hfinal => exact .inl ⟨branching_eq_fail.mpr (.inl h), hfinal⟩
  | ending hc hbs helse hend =>
    exact .inl ⟨branching_eq_fail.mpr
      (.inr ⟨_, _, hc, .inr ⟨_, _, hbs, .inl ⟨helse, _, hend, rfl⟩⟩⟩), rfl⟩
  | elseEnding hc hbs helse hes hend =>
    exact .inl ⟨branching_eq_fail.mpr
      (.inr ⟨_, _, hc, .inr ⟨_, _, hbs, .inr ⟨_, helse, .inr ⟨_, _, hes, _, hend, rfl⟩⟩⟩⟩), rfl⟩
  | plain hif h => exact .inr ⟨branching_fails_iff.mpr hif, h⟩

/-- If reading breaks off, the list of blocks cannot be read, and what the last block says of the
failure comes first, and then the hint of a block for each block that was entered and not left. -/
theorem Breaks.list_eq (h : Breaks ls stack e) : ∃ e', list ls = .fail e' ∧ SaidBy stack e e' := by
  induction h with
  | own hks hend hown => exact ⟨_, (list_eq_fail hks).mpr ⟨hend, .inl hown.single_eq⟩, rfl, rfl⟩
  | thenBranch hks hend hc _ ih =>
    obtain ⟨e', he, hsaid⟩ := ih
    have hbranch := branching_eq_fail.mpr (.inr ⟨_, _, hc, .inl ⟨e', he, rfl⟩⟩)
    have hsingle := single_eq_fail.mpr ⟨_, .inl ⟨hbranch, rfl⟩, rfl⟩
    exact ⟨_, (list_eq_fail hks).mpr ⟨hend, .inl hsingle⟩, hsaid.cons true⟩
  | elseBranch hks hend hc hbs helse _ ih =>
    obtain ⟨e', he, hsaid⟩ := ih
    have hbranch := branching_eq_fail.mpr
      (.inr ⟨_, _, hc, .inr ⟨_, _, hbs, .inr ⟨_, helse, .inl ⟨e', he, rfl⟩⟩⟩⟩)
    have hsingle := single_eq_fail.mpr ⟨_, .inl ⟨hbranch, rfl⟩, rfl⟩
    exact ⟨_, (list_eq_fail hks).mpr ⟨hend, .inl hsingle⟩, hsaid.cons true⟩
  | next hks hend hb _ ih =>
    obtain ⟨e', he, hsaid⟩ := ih
    exact ⟨e', (list_eq_fail hks).mpr ⟨hend, .inr ⟨_, _, hb, he⟩⟩, hsaid⟩

/-- If the list of blocks cannot be read, reading breaks off somewhere. -/
theorem exists_breaks (h : list ls = .fail e) : ∃ stack e', Breaks ls stack e' := by
  induction hn : ls.length using Nat.strongRecOn generalizing ls e with
  | ind n ih =>
    obtain ⟨ks, hks⟩ : ∃ ks, ls.dropWhile Line.isVacant = ks := ⟨_, rfl⟩
    have hle : ks.length ≤ n := by
      rw [← hks, ← hn]
      exact (List.dropWhile_suffix _).length_le
    have hshorter : ∀ {ms e}, ms.length < ks.length → list ms = .fail e →
        ∃ stack e', Breaks ms stack e' :=
      fun hms h => ih _ (Nat.lt_of_lt_of_le hms hle) h rfl
    obtain ⟨hend, hsingle | ⟨b, ms, hb, h⟩⟩ := (list_eq_fail hks).mp h
    · obtain ⟨e', ⟨h, hfinal⟩ | ⟨hfails, h⟩, -⟩ := single_eq_fail.mp hsingle
      · rcases branching_eq_fail.mp h with h | ⟨c, ms, hc, h⟩
        · exact ⟨_, _, .own hks hend (.condition h hfinal)⟩
        have hms := (consumes_opening hc).2
        rcases h with ⟨e, h, -⟩ | ⟨bs, us, hbs, h⟩
        · obtain ⟨stack, e', hbreaks⟩ := hshorter hms h
          exact ⟨_, e', .thenBranch hks hend hc hbreaks⟩
        rcases h with ⟨helse, e, h, -⟩ | ⟨vs, helse, h⟩
        · exact ⟨_, _, .own hks hend (.ending hc hbs helse h)⟩
        rcases h with ⟨e, h, -⟩ | ⟨es, ws, hes, e, h, -⟩
        · have hvs := Nat.lt_of_lt_of_le (consumes_else helse).2 (keeps_list hbs).length_le
          obtain ⟨stack, e', hbreaks⟩ := hshorter (Nat.lt_trans hvs hms) h
          exact ⟨_, e', .elseBranch hks hend hc hbs helse hbreaks⟩
        · exact ⟨_, _, .own hks hend (.elseEnding hc hbs helse hes h)⟩
      · exact ⟨_, _, .own hks hend (.plain (branching_fails_iff.mp hfails) h)⟩
    · obtain ⟨stack, e', hbreaks⟩ := hshorter (consumes_single keeps_list hb).2 h
      exact ⟨stack, e', .next hks hend hb hbreaks⟩

/-! ## What is said, and where -/

theorem thenBranch_suffix {c : Clause} {bs : List Block} (hc : opening ls = .ok c ms)
    (hbs : list ms = .ok bs us) : us <:+ ls := (keeps_list hbs).trans (consumes_opening hc).1

theorem elseBranch_suffix {c : Clause} {bs : List Block} (hc : opening ls = .ok c ms)
    (hbs : list ms = .ok bs us) (helse : directive "$ELSE" us = .ok () vs) : vs <:+ ls :=
  (consumes_else helse).1.trans (thenBranch_suffix hc hbs)

/-- The failure of a block itself stands in the text, and the block has not given its hint yet. -/
theorem Own.stands (h : Own ls e) : Stands ls e := by
  have hend : ∀ {us : List Line} {e}, us <:+ ls → directive "$ENDIF" us = .fail e →
      Stands ls (unclosed e) := fun hus h => by
    obtain ⟨hplace, hinner⟩ := ((tracks_directive _).stands h).of_suffix hus
    exact ⟨hplace, List.forall_mem_append.mpr
      ⟨hinner, List.forall_mem_singleton.mpr (inner_expected (by decide))⟩⟩
  cases h with
  | condition h _ => exact tracks_opening.stands h
  | ending hc hbs _ h => exact hend (thenBranch_suffix hc hbs) h
  | elseEnding hc hbs helse hes h =>
    exact hend ((keeps_list hes).trans (elseBranch_suffix hc hbs helse)) h
  | plain _ h => exact tracks_plain.stands h

theorem Breaks.stands (h : Breaks ls stack e) : Stands ls e := by
  have hvacant : ∀ {ls ks : List Line}, ls.dropWhile Line.isVacant = ks → ks <:+ ls :=
    fun h => h ▸ List.dropWhile_suffix _
  -- What is left after some lines is an end of the text, so a place in it is one too.
  induction h with
  | own hks _ hown => exact hown.stands.of_suffix (hvacant hks)
  | thenBranch hks _ hc _ ih => exact ih.of_suffix ((consumes_opening hc).1.trans (hvacant hks))
  | elseBranch hks _ hc hbs helse _ ih =>
    exact ih.of_suffix ((elseBranch_suffix hc hbs helse).trans (hvacant hks))
  | next hks _ hb _ ih => exact ih.of_suffix ((consumes_single keeps_list hb).1.trans (hvacant hks))

theorem Breaks.stack_ne_nil (h : Breaks ls stack e) : stack ≠ [] := by
  induction h with
  | own | thenBranch | elseBranch => nofun
  | next _ _ _ _ ih => exact ih

/-- All blocks but the last are conditionals. -/
theorem Breaks.conditionals (h : Breaks ls stack e) :
    ∀ ks ∈ stack.dropLast, ∃ c ms, opening ks = .ok c ms := by
  induction h with
  | own => nofun
  | thenBranch _ _ hc h ih | elseBranch _ _ hc _ _ h ih =>
    rw [List.dropLast_cons_of_ne_nil h.stack_ne_nil]
    exact List.forall_mem_cons.mpr ⟨⟨_, _, hc⟩, ih⟩
  | next _ _ _ _ ih => exact ih

end Block

end Interview
