import Interview.Proofs.Block.Sequence
import Interview.Proofs.Reader.Recursion

/-!
# Blocks within blocks

The reader of blocks calls itself for the branches of a conditional and for the blocks after a block
that was read. At each of these calls at least one line has been read since the last one.

* `Block.consumes_single`: a block takes at least one line.
* `Block.round`, `Block.list_eq`: the reader of blocks, in terms of itself.
* `Block.descends_round`: it calls itself on fewer lines only.
-/

namespace Interview

namespace Block

open Reader

variable {f g : Reader Line (List Block)} {ls : List Line}

/-- One round of the reader of blocks: vacant lines, and a block unless the branch ends. -/
def round (blocks : Reader Line (List Block)) : Reader Line (List Block) := do
  vacantLines
  if atBranchEnd (← remaining) then
    return []
  else
    let first ← single blocks
    let others ← blocks
    return first :: others

theorem keeps_vacantLines : Keeps vacantLines := by
  intro ls u r h
  rw [vacantLines_eq_ok.mp h]
  exact List.dropWhile_suffix _

theorem keeps_remaining : Keeps (remaining : Reader Line (List Line)) := by
  intro ls ks r h
  exact (remaining_eq_ok.mp h).2 ▸ List.suffix_rfl

theorem consumes_opening : Consumes opening := consumes_line hungry_openingText

theorem consumes_directive {n : String} (h : n ∈ Directive.all) :
    Consumes (Directive.directive n) := by
  intro ls u r hr
  obtain ⟨l, rfl, -⟩ := (directive_iff h).mp hr
  exact ⟨List.suffix_cons l r, Nat.lt_succ_self _⟩

theorem consumes_else : Consumes (Directive.directive "$ELSE") :=
  consumes_directive (by simp [Directive.all])

/-- The branch after `$ELSE`, if that was read. -/
def elseBranch (blocks : Reader Line (List Block)) (otherwise : Option Unit) :
    Reader Line (List Block) :=
  if otherwise.isSome then blocks.commit else pure []

theorem branching_eq (f : Reader Line (List Block)) : branching f = (do
    let condition ← opening
    let thenBlocks ← f.commit
    let otherwise ← (Directive.directive "$ELSE").maybe
    let elseBlocks ← elseBranch f otherwise
    (Directive.directive "$ENDIF").commit.expecting "$ENDIF"
    return .conditional condition thenBlocks elseBlocks) := by
  unfold branching
  congr 1
  funext condition
  congr 1
  funext thenBlocks
  congr 1
  funext otherwise
  cases otherwise <;> rfl

theorem keeps_elseBranch (hf : Keeps f) (o : Option Unit) : Keeps (elseBranch f o) := by
  unfold elseBranch
  split
  · exact hf.commit
  · exact keeps_pure _

theorem consumes_branching (hf : Keeps f) : Consumes (branching f) := by
  rw [branching_eq]
  have hend := (consumes_directive (n := "$ENDIF") (by simp [Directive.all])).keeps
  exact consumes_opening.bind fun c => hf.commit.bind fun bs =>
    consumes_else.keeps.maybe.bind fun o => (keeps_elseBranch hf o).bind fun es =>
      (hend.commit.expecting _).bind fun _ => keeps_pure _

/-- A block takes at least one line. -/
theorem consumes_single (hf : Keeps f) : Consumes (single f) := by
  intro ls b r h
  rcases single_iff.mp h with h | ⟨ms, rfl, hms, -⟩
  · exact consumes_branching hf h
  · obtain ⟨l, ks, rfl, -⟩ := hms.first
    refine ⟨List.suffix_append _ _, ?_⟩
    rw [List.length_append, List.length_cons]
    omega

theorem keeps_round (hf : Keeps f) : Keeps (round f) := by
  refine keeps_vacantLines.bind fun _ => keeps_remaining.bind fun ks => ?_
  split
  · exact keeps_pure _
  · exact (consumes_single hf).keeps.bind fun _ => hf.bind fun _ => keeps_pure _

theorem branching_congr (hf : Keeps f) (h : ∀ ms, ms.length < ls.length → f ms = g ms) :
    branching f ls = branching g ls := by
  rw [branching_eq, branching_eq]
  refine bind_congr rfl fun c ms hc => ?_
  have hms := (consumes_opening hc).2
  refine bind_congr (commit_congr (h ms hms)) fun bs ks hbs => ?_
  have hks := Nat.lt_of_le_of_lt (hf (commit_eq_ok.mp hbs)).length_le hms
  refine bind_congr rfl fun o us ho => bind_congr ?_ fun _ _ _ => rfl
  unfold elseBranch
  split
  · have hle := (consumes_else.keeps.maybe ho).length_le
    exact commit_congr (h us (Nat.lt_of_le_of_lt hle hks))
  · rfl

theorem single_congr (hf : Keeps f) (h : ∀ ms, ms.length < ls.length → f ms = g ms) :
    single f ls = single g ls := expecting_congr (orElse_congr (branching_congr hf h))

theorem round_congr (hf : Keeps f) (h : ∀ ms, ms.length < ls.length → f ms = g ms) :
    round f ls = round g ls := by
  refine bind_congr rfl fun _ ks hks => bind_congr rfl fun _ ms hms => ?_
  have hle : ms.length ≤ ls.length :=
    ((keeps_remaining hms).trans (keeps_vacantLines hks)).length_le
  split
  · rfl
  · refine bind_congr (single_congr hf fun us hus => h us (Nat.lt_of_lt_of_le hus hle))
      fun b us hb => bind_congr ?_ fun _ _ _ => rfl
    exact h us (Nat.lt_of_lt_of_le (consumes_single hf hb).2 hle)

/-- The reader of blocks calls itself on fewer lines only. -/
theorem descends_round : Descends fun (blocks : Unit → Reader Line (List Block)) _ =>
    round (blocks ()) where
  keeps hf _ := keeps_round (hf ())
  congr hf h _ := round_congr (hf ()) (h ())

theorem keeps_list : Keeps list := descends_round.keeps_fix ()

/-- The reader of blocks is a round of itself. -/
theorem list_eq : list = round list := descends_round.fix_eq ()

end Block

end Interview
