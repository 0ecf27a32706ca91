/-!
# Readers

A reader takes a list of items from its front: a value and the items that are left, or a failure
that says where reading stopped. A failure leaves room for an alternative unless it is final.
`commit` makes failures final, `hinting` adds to what a failure says about itself. Characters and
whole lines are read with the same combinators.

* `bind_eq_ok`, `map_eq_ok`, `orElse_eq_ok`, `maybe_eq_ok`, `peek_eq_ok`, `satisfying_eq_ok`,
  `commit_eq_ok`, `hinting_eq_ok`: when a combined reader succeeds, and with what.
-/

namespace Interview

/-- What a failure says about the construct that was being read. -/
inductive Hint where
  /-- The construct that turned out to be malformed. -/
  | invalid (construct : String)
  /-- What would have been accepted. -/
  | expected (description : String)
  deriving DecidableEq

/-- Why and where reading failed. -/
structure Failure (τ : Type) where
  /-- The input left where reading stopped. -/
  place : List τ
  /-- No alternative is tried after a final failure. -/
  isFinal : Bool
  /-- Hints, the innermost construct first. -/
  hints : List Hint
  deriving DecidableEq

/-- The answer of a reader. -/
inductive Reply (τ α : Type) where
  /-- A value, and the input left after it. -/
  | ok (value : α) (rest : List τ)
  /-- Nothing could be read. -/
  | fail (failure : Failure τ)
  deriving DecidableEq

/-- Reads an `α` from the front of a list of items. -/
def Reader (τ α : Type) : Type := List τ → Reply τ α

namespace Reader

variable {τ α β : Type}

/-- Fails where it stands, leaving room for alternatives. -/
def reject : Reader τ α := fun s => .fail ⟨s, false, []⟩

/-- Reads nothing and answers the input that is left. -/
def remaining : Reader τ (List τ) := fun s => .ok s s

/-- Succeeds at the end of the input only. -/
def finished : Reader τ Unit
  | [] => .ok () []
  | s => .fail ⟨s, false, []⟩

/-- Reads with `p`, then with the reader that `f` makes of its value. -/
protected def bind (p : Reader τ α) (f : α → Reader τ β) : Reader τ β := fun s =>
  match p s with
  | .ok a r => f a r
  | .fail e => .fail e

instance : Monad (Reader τ) where
  pure a := fun s => .ok a s
  bind := Reader.bind

/-- Reads with `p`, or with `q` from the same place unless `p` failed finally. If both fail, the
failure is that of `q`. -/
protected def orElse (p : Reader τ α) (q : Unit → Reader τ α) : Reader τ α := fun s =>
  match p s with
  | .ok a r => .ok a r
  | .fail e => if e.isFinal then .fail e else q () s

instance : OrElse (Reader τ α) where
  orElse := Reader.orElse

/-- What `p` reads, or nothing if `p` fails with room for alternatives. -/
def maybe (p : Reader τ α) : Reader τ (Option α) := fun s =>
  match p s with
  | .ok a r => .ok (some a) r
  | .fail e => if e.isFinal then .fail e else .ok none s

/-- Looks ahead with `p` and stays where it stands, also when `p` fails. -/
def peek (p : Reader τ α) : Reader τ α := fun s =>
  match p s with
  | .ok a _ => .ok a s
  | .fail e => .fail { e with place := s }

/-- Succeeds, reading nothing, where `p` cannot be read. -/
def absent (p : Reader τ α) : Reader τ Unit := fun s =>
  match p s with
  | .ok _ _ => .fail ⟨s, false, []⟩
  | .fail e => if e.isFinal then .fail { e with place := s } else .ok () s

/-- Reads with `p` and accepts only a value that passes `test`; a value that does not fails where
`p` started. -/
def satisfying (p : Reader τ α) (test : α → Bool) : Reader τ α := fun s =>
  match p s with
  | .ok a r => if test a then .ok a r else .fail ⟨s, false, []⟩
  | .fail e => .fail e

/-- Makes every failure of `p` final. -/
def commit (p : Reader τ α) : Reader τ α := fun s =>
  match p s with
  | .ok a r => .ok a r
  | .fail e => .fail { e with isFinal := true }

/-- Adds a hint to every failure of `p`. -/
def hinting (p : Reader τ α) (h : Hint) : Reader τ α := fun s =>
  match p s with
  | .ok a r => .ok a r
  | .fail e => .fail { e with hints := e.hints ++ [h] }

/-- Says of every failure of `p` which construct is malformed. -/
def within (p : Reader τ α) (construct : String) : Reader τ α := p.hinting (.invalid construct)

/-- Says of every failure of `p` what would have been accepted. -/
def expecting (p : Reader τ α) (description : String) : Reader τ α :=
  p.hinting (.expected description)

/-! ## What a combined reader reads -/

section Lemmas

variable {s r : List τ}

theorem bind_eq_ok {p : Reader τ α} {f : α → Reader τ β} {b : β} :
    (p >>= f) s = .ok b r ↔ ∃ a t, p s = .ok a t ∧ f a t = .ok b r := by
  show Reader.bind p f s = .ok b r ↔ _
  unfold Reader.bind
  cases p s with
  | ok a t => simp [and_assoc]
  | fail e => simp

@[simp] theorem pure_apply (a : α) : (pure a : Reader τ α) s = .ok a s := rfl

instance : LawfulMonad (Reader τ) := by
  refine LawfulMonad.mk' (Reader τ) ?_ (fun _ _ => rfl) ?_
  · intro α p
    funext s
    show Reader.bind p (fun a t => .ok a t) s = p s
    unfold Reader.bind
    cases p s <;> rfl
  · intro α β γ p f g
    funext s
    show Reader.bind (Reader.bind p f) g s = Reader.bind p (fun a => Reader.bind (f a) g) s
    unfold Reader.bind
    cases p s <;> rfl

theorem map_eq_ok {p : Reader τ α} {f : α → β} {b : β} :
    (f <$> p) s = .ok b r ↔ ∃ a, p s = .ok a r ∧ f a = b := by
  show (p >>= fun a => pure (f a)) s = .ok b r ↔ _
  rw [bind_eq_ok]
  constructor
  · rintro ⟨a, t, h, e⟩
    obtain ⟨rfl, rfl⟩ := Reply.ok.inj e
    exact ⟨a, h, rfl⟩
  · rintro ⟨a, h, rfl⟩
    exact ⟨a, r, h, rfl⟩

theorem orElse_eq_ok {p q : Reader τ α} {a : α} :
    (p <|> q) s = .ok a r ↔
      p s = .ok a r ∨ (∃ e, p s = .fail e ∧ e.isFinal = false) ∧ q s = .ok a r := by
  show Reader.orElse p (fun _ => q) s = .ok a r ↔ _
  unfold Reader.orElse
  cases h : p s with
  | ok b t => simp
  | fail e => cases he : e.isFinal <;> simp [he]

theorem maybe_eq_ok {p : Reader τ α} {o : Option α} :
    p.maybe s = .ok o r ↔
      (∃ a, o = some a ∧ p s = .ok a r) ∨
        o = none ∧ r = s ∧ ∃ e, p s = .fail e ∧ e.isFinal = false := by
  unfold maybe
  cases h : p s with
  | ok b t =>
    simp only [Reply.ok.injEq, reduceCtorEq, false_and, exists_false, and_false, or_false]
    constructor
    · rintro ⟨rfl, rfl⟩
      exact ⟨b, rfl, rfl, rfl⟩
    · rintro ⟨_, rfl, rfl, rfl⟩
      exact ⟨rfl, rfl⟩
  | fail e =>
    cases he : e.isFinal
    · simp only [he, Bool.false_eq_true, if_false, Reply.ok.injEq, reduceCtorEq, and_false,
        exists_false, Reply.fail.injEq, exists_eq_left', and_true, false_or]
      exact ⟨fun h => ⟨h.1.symm, h.2.symm⟩, fun h => ⟨h.1.symm, h.2.symm⟩⟩
    · simp [he]

theorem peek_eq_ok {p : Reader τ α} {a : α} : p.peek s = .ok a r ↔ r = s ∧ ∃ t, p s = .ok a t := by
  unfold peek
  cases p s <;> simp [eq_comm, and_comm]

theorem satisfying_eq_ok {p : Reader τ α} {test : α → Bool} {a : α} :
    p.satisfying test s = .ok a r ↔ p s = .ok a r ∧ test a = true := by
  unfold satisfying
  cases p s with
  | ok b t =>
    by_cases hb : test b = true
    · simp only [hb, if_true, Reply.ok.injEq, iff_self_and]
      rintro ⟨rfl, -⟩
      exact hb
    · simp only [hb]
      constructor
      · simp
      · rintro ⟨h, ha⟩
        exact absurd (by simpa [(Reply.ok.inj h).1] using ha) hb
  | fail e => simp

@[simp] theorem commit_eq_ok {p : Reader τ α} {a : α} : p.commit s = .ok a r ↔ p s = .ok a r := by
  unfold commit
  cases p s <;> simp

@[simp] theorem hinting_eq_ok {p : Reader τ α} {h : Hint} {a : α} :
    p.hinting h s = .ok a r ↔ p s = .ok a r := by
  unfold hinting
  cases p s <;> simp

@[simp] theorem within_eq_ok {p : Reader τ α} {c : String} {a : α} :
    p.within c s = .ok a r ↔ p s = .ok a r := hinting_eq_ok

@[simp] theorem expecting_eq_ok {p : Reader τ α} {d : String} {a : α} :
    p.expecting d s = .ok a r ↔ p s = .ok a r := hinting_eq_ok

end Lemmas

end Reader

end Interview
