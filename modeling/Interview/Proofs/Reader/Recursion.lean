import Interview.Proofs.Reader.Progress

/-!
# Recursion and repetition without checks

A recursive reader refuses to call itself on an input that is no shorter, and a repetition ends
where a round reads nothing. Both checks are idle where every round consumes: the recursive reader
satisfies the equation that it was described by, and nothing else does.

* `Stalls`, `Repeatable`: a repetition never meets a round that reads nothing.
* `Descends`: a description that asks for readings of shorter inputs only.
* `Descends.fix_eq`, `Descends.fix_unique`: the equation, and its only solution.
* `Descends.unrolled_eq`: calls are nested no deeper than the input is long.
* `Founded`, `Descends.founded`: all of this.
-/

namespace Interview

namespace Reader

variable {τ α β ι : Type} {p q : Reader τ α} {f g : α → Reader τ β} {s : List τ}

/-! ## Repetition -/

/-- Somewhere in the repetition of `p` a round succeeds and reads nothing. -/
inductive Stalls (p : Reader τ α) : List τ → Prop
  | here {s r : List τ} {a : α} : p s = .ok a r → r.length = s.length → Stalls p s
  | later {s r : List τ} {a : α} : p s = .ok a r → Stalls p r → Stalls p s

theorem Consumes.not_stalls (hp : Consumes p) : ¬ Stalls p s := by
  intro h
  induction h with
  | here h heq => exact Nat.ne_of_lt (hp h).2 heq
  | later _ _ ih => exact ih

/-- Each success of `p` takes something from the input, so that no repetition of `p` stalls. -/
structure Repeatable (p : Reader τ α) : Prop where
  consumes : Consumes p
  not_stalls : ∀ s, ¬ Stalls p s

theorem Consumes.repeatable (hp : Consumes p) : Repeatable p := ⟨hp, fun _ => hp.not_stalls⟩

/-! ## Readers that agree -/

theorem bind_congr (hp : p s = q s) (h : ∀ a t, p s = .ok a t → f a t = g a t) :
    (p >>= f) s = (q >>= g) s := by
  rw [bind_congr_of_ok h]
  show Reader.bind p g s = Reader.bind q g s
  unfold Reader.bind
  rw [hp]

theorem orElse_congr {p' : Reader τ α} (h : p s = p' s) : (p <|> q) s = (p' <|> q) s := by
  show Reader.orElse p _ s = Reader.orElse p' _ s
  unfold Reader.orElse
  rw [h]

theorem commit_congr (h : p s = q s) : p.commit s = q.commit s := by
  unfold commit
  rw [h]

theorem expecting_congr {d : String} (h : p s = q s) : p.expecting d s = q.expecting d s := by
  unfold expecting hinting
  rw [h]

/-- A repetition is the same for readers that agree on all inputs that are no longer. -/
theorem many1_congr (hp : Keeps p) (h : ∀ t : List τ, t.length ≤ s.length → p t = q t) :
    many1 p s = many1 q s := by
  refine bind_congr (h s (Nat.le_refl _)) fun a t ht => bind_congr ?_ fun _ _ _ => rfl
  exact many_congr fun u hu => h u (Nat.le_trans hu (hp ht).length_le)

/-! ## Recursion -/

/-- Readers that `step` makes of a family call it on shorter inputs only: what the family does with
other inputs makes no difference. -/
structure Descends (step : (ι → Reader τ α) → ι → Reader τ α) : Prop where
  keeps : ∀ {f : ι → Reader τ α}, (∀ j, Keeps (f j)) → ∀ i, Keeps (step f i)
  congr : ∀ {f g : ι → Reader τ α} {s : List τ}, (∀ j, Keeps (f j)) →
    (∀ j t, t.length < s.length → f j t = g j t) → ∀ i, step f i s = step g i s

/-- A family after `n` steps. -/
def unrolled (step : (ι → Reader τ α) → ι → Reader τ α) (f : ι → Reader τ α) : Nat → ι → Reader τ α
  | 0 => f
  | n + 1 => step (unrolled step f n)

/-- The family is all that `step` describes: it satisfies the equation of `step`, nothing else does,
and on an input of fewer than `n` items no more than `n` of its calls are nested. -/
structure Founded (step : (ι → Reader τ α) → ι → Reader τ α) (family : ι → Reader τ α) : Prop where
  eq : ∀ i, family i = step family i
  unique : ∀ f : ι → Reader τ α, (∀ i, f i = step f i) → f = family
  unrolled : ∀ (f : ι → Reader τ α) (n : Nat) (i : ι) (s : List τ), s.length < n →
    unrolled step f n i s = family i s

variable {step : (ι → Reader τ α) → ι → Reader τ α} (h : Descends step)

include h

theorem Descends.keeps_fix (i : ι) : Keeps (fix step i) := Keeps.fix (fun _ => h.keeps) i

/-- A recursive reader is what it was described to be. -/
theorem Descends.fix_eq (i : ι) : fix step i = step (fix step) i := by
  funext s
  rw [Reader.fix_eq]
  exact (h.congr h.keeps_fix (fun _ _ ht => (below_apply ht).symm) i).symm

/-- Nothing else is. -/
theorem Descends.fix_unique {f : ι → Reader τ α} (hf : ∀ i, f i = step f i) (i : ι) :
    f i = fix step i := by
  funext s
  induction hn : s.length using Nat.strongRecOn generalizing s i with
  | ind n ih =>
    rw [hf, h.fix_eq]
    exact (h.congr h.keeps_fix (fun j t ht => (ih _ (hn ▸ ht) j t rfl).symm) i).symm

/-- On an input of fewer than `n` items no more than `n` calls are nested. -/
theorem Descends.unrolled_eq (f : ι → Reader τ α) {n : Nat} (hn : s.length < n) (i : ι) :
    unrolled step f n i s = fix step i s := by
  induction n generalizing s i with
  | zero => exact absurd hn (Nat.not_lt_zero _)
  | succ n ih =>
    rw [h.fix_eq]
    exact (h.congr h.keeps_fix
      (fun j t ht => (ih (Nat.lt_of_lt_of_le ht (Nat.le_of_lt_succ hn)) j).symm) i).symm

/-- A recursive reader that calls itself on shorter inputs only is well founded. -/
theorem Descends.founded : Founded step (fix step) where
  eq := h.fix_eq
  unique _ hf := funext (h.fix_unique hf)
  unrolled f _ i _ hn := h.unrolled_eq f hn i

end Reader

end Interview
