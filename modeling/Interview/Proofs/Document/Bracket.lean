import Interview.Proofs.Block.Opening

/-!
# The brackets of conditionals

The directives `$IF` and `$ENDIF` are the brackets around a conditional, and `$ELSE` turns from one
branch to the other. `Paired ms` says, without any reader, that a list of such directives is
balanced and that each turn has a pair of its own directly around it.

* `Bracket.ofText?_eq_some`: which lines are brackets.
* `Bracket.Nested`: the lists that conditionals inside conditionals make.
* `Bracket.Encloses.unique`: at most one pair is directly around a place.
* `Bracket.Nested.paired`: nested conditionals make paired lists.
-/

namespace Interview

open Text

/-- A directive of a conditional. -/
inductive Bracket where
  /-- The directive `$IF`. -/
  | opens
  /-- The directive `$ELSE`. -/
  | turns
  /-- The directive `$ENDIF`. -/
  | closes
  deriving DecidableEq

namespace Bracket

/-- The word of a directive. -/
def word : Bracket → String
  | .opens => "$IF"
  | .turns => "$ELSE"
  | .closes => "$ENDIF"

/-- The directive that a line is, if it is one of the three. -/
def ofText? (s : List Char) : Option Bracket :=
  [opens, turns, closes].find? fun m => Directive.opensWith m.word s

/-- The directives among some lines, in order. -/
def ofLines (ls : List Line) : List Bracket := ls.filterMap fun l => ofText? l.text

/-- How many pairs are opened and not closed. -/
def rise : List Bracket → Int
  | [] => 0
  | .opens :: ms => rise ms + 1
  | .turns :: ms => rise ms
  | .closes :: ms => rise ms - 1

/-- The least `rise` of what the list starts with. -/
def low : List Bracket → Int
  | [] => 0
  | .opens :: ms => min 0 (low ms + 1)
  | .turns :: ms => low ms
  | .closes :: ms => min 0 (low ms - 1)

/-- All that is opened is closed, and nothing is closed before it is opened. -/
def Balanced (ms : List Bracket) : Prop := rise ms = 0 ∧ low ms = 0

instance (ms : List Bracket) : Decidable (Balanced ms) := inferInstanceAs (Decidable (_ ∧ _))

/-- The place between `u` and `w` lies directly inside the pair that has `x` before it and `y` after
it: what stands between the place and either bracket of the pair is balanced. -/
def Encloses (x y u w : List Bracket) : Prop :=
  ∃ v v', Balanced v ∧ Balanced v' ∧ u = x ++ opens :: v ∧ w = v' ++ closes :: y

/-- A balanced list in which each turn lies directly inside exactly one pair, and no two turns lie
directly inside the same pair. -/
structure Paired (ms : List Bracket) : Prop where
  balanced : Balanced ms
  turn : ∀ u w, ms = u ++ turns :: w → ∃! p : List Bracket × List Bracket, Encloses p.1 p.2 u w
  once : ∀ u w u' w', ms = u ++ turns :: w → ms = u' ++ turns :: w' →
    ∀ x y, Encloses x y u w → Encloses x y u' w' → u = u'

/-- What conditionals inside conditionals make, with and without a second branch. -/
inductive Nested : List Bracket → Prop
  | nil : Nested []
  | single {u w : List Bracket} : Nested u → Nested w → Nested (opens :: (u ++ closes :: w))
  | double {u v w : List Bracket} : Nested u → Nested v → Nested w →
      Nested (opens :: (u ++ turns :: (v ++ closes :: w)))

/-! ## Lines -/

variable {s : List Char} {m : Bracket} {l : Line} {ls ms : List Line}

theorem word_mem_all (m : Bracket) : m.word ∈ Directive.all := by
  cases m <;> simp [word, Directive.all]

theorem ofText?_eq_some : ofText? s = some m ↔ Directive.opensWith m.word s = true := by
  have hword : ∀ {k : Bracket}, ofText? s = some k → Directive.opensWith k.word s = true := by
    intro k hk
    exact List.find?_some (p := fun m : Bracket => Directive.opensWith m.word s) hk
  refine ⟨hword, fun hm => ?_⟩
  cases hk : ofText? s with
  | none =>
    have := List.find?_eq_none.mp hk m (by cases m <;> simp)
    exact absurd hm this
  | some k =>
    have hone := Directive.opensWith_unique (hword hk) hm
    cases k <;> cases m <;> first | rfl | exact absurd hone (by decide)

@[simp] theorem ofLines_append : ofLines (ls ++ ms) = ofLines ls ++ ofLines ms :=
  List.filterMap_append

theorem ofLines_cons (h : Directive.opensWith m.word l.text = true) :
    ofLines (l :: ls) = m :: ofLines ls :=
  List.filterMap_cons_some (ofText?_eq_some.mpr h)

theorem ofLines_eq_nil (h : ∀ l ∈ ls, Directive.isDirective l.text = false) : ofLines ls = [] := by
  refine List.filterMap_eq_nil_iff.mpr fun l hl => ?_
  cases hm : ofText? l.text with
  | none => rfl
  | some m =>
    have hd := Directive.isDirective_iff.mpr ⟨_, m.word_mem_all, ofText?_eq_some.mp hm⟩
    simp [h l hl] at hd

/-! ## Balance -/

variable {t u v w x y : List Bracket}

@[simp] theorem rise_append (u v : List Bracket) : rise (u ++ v) = rise u + rise v := by
  induction u with
  | nil => simp [rise]
  | cons m u ih => cases m <;> simp only [List.cons_append, rise, ih] <;> omega

theorem low_nonpos (u : List Bracket) : low u ≤ 0 := by
  induction u with
  | nil => simp [low]
  | cons m u ih => cases m <;> simp only [low] <;> omega

@[simp] theorem low_append (u v : List Bracket) :
    low (u ++ v) = min (low u) (rise u + low v) := by
  have hv := low_nonpos v
  induction u with
  | nil => simp only [List.nil_append, low, rise]; omega
  | cons m u ih => cases m <;> simp only [List.cons_append, low, rise, ih] <;> omega

theorem Nested.balanced (h : Nested u) : Balanced u := by
  unfold Balanced
  induction h with
  | nil => decide
  | single _ _ ihu ihw => simp only [rise, low, rise_append, low_append]; omega
  | double _ _ _ ihu ihv ihw => simp only [rise, low, rise_append, low_append]; omega

/-- Between a place and the bracket that opens a pair directly around it nothing is left open. -/
theorem Balanced.not_opens (h : Balanced (t ++ opens :: v)) : ¬ Balanced v := by
  unfold Balanced at *
  simp only [rise, low, rise_append, low_append] at h
  omega

theorem Balanced.not_closes (h : Balanced v) : ¬ Balanced (v ++ closes :: t) := by
  have := low_nonpos t
  unfold Balanced at *
  simp only [rise, low, rise_append, low_append]
  omega

/-! ## Pairs -/

/-- Two places of the same bracket in a list: the first of them comes first, they are one, or the
second comes first. -/
theorem append_cons_eq {a b : Bracket} (h : u ++ a :: v = x ++ b :: y) :
    (∃ t, u = x ++ b :: t ∧ y = t ++ a :: v) ∨ (u = x ∧ a = b ∧ v = y) ∨
      ∃ t, x = u ++ a :: t ∧ v = t ++ b :: y := by
  obtain ⟨t, hx, ht⟩ | ⟨t, hu, ht⟩ := List.append_eq_append_iff.mp h
  · cases t with
    | nil =>
      cases ht
      exact .inr (.inl ⟨by simpa using hx.symm, rfl, rfl⟩)
    | cons c t =>
      cases ht
      exact .inr (.inr ⟨t, hx, rfl⟩)
  · cases t with
    | nil =>
      cases ht
      exact .inr (.inl ⟨by simpa using hu, rfl, rfl⟩)
    | cons c t =>
      cases ht
      exact .inl ⟨t, hu, rfl⟩

/-- At most one pair lies directly around a place. -/
theorem Encloses.unique {x' y' : List Bracket} (h : Encloses x y u w) (h' : Encloses x' y' u w) :
    x = x' ∧ y = y' := by
  obtain ⟨v, z, hv, hz, rfl, rfl⟩ := h
  obtain ⟨v', z', hv', hz', hleft, hright⟩ := h'
  constructor
  · obtain ⟨t, -, rfl⟩ | ⟨hx, -, -⟩ | ⟨t, -, rfl⟩ := append_cons_eq hleft
    · exact absurd hv hv'.not_opens
    · exact hx
    · exact absurd hv' hv.not_opens
  · obtain ⟨t, rfl, -⟩ | ⟨-, -, hy⟩ | ⟨t, rfl, -⟩ := append_cons_eq hright
    · exact absurd hz hz'.not_closes
    · exact hy
    · exact absurd hz' hz.not_closes

/-- The place between `u` and `w` lies directly inside a pair of nested conditionals. -/
def Divides (u w : List Bracket) : Prop :=
  ∃ x y v v', Nested v ∧ Nested v' ∧ u = x ++ opens :: v ∧ w = v' ++ closes :: y

theorem Divides.within (h : Divides u w) (p q : List Bracket) : Divides (p ++ u) (w ++ q) := by
  obtain ⟨x, y, v, v', hv, hv', rfl, rfl⟩ := h
  exact ⟨p ++ x, y ++ q, v, v', hv, hv', by simp, by simp⟩

theorem Nested.divides {ms : List Bracket} (h : Nested ms) (hms : ms = u ++ turns :: w) :
    Divides u w := by
  -- A turn inside the first branch comes after the bracket that opens it.
  have hfirst : ∀ {a t u : List Bracket}, opens :: a = u ++ turns :: t →
      ∃ u', u = opens :: u' ∧ a = u' ++ turns :: t := by
    intro a t u h
    obtain ⟨-, hne⟩ | ⟨u', rfl, ha⟩ := List.cons_eq_append_iff.mp h
    · cases hne
    · exact ⟨u', rfl, ha⟩
  induction h generalizing u w with
  | nil => simp at hms
  | @single a b ha hb iha ihb =>
    have hms : (opens :: a) ++ closes :: b = u ++ turns :: w := hms
    obtain ⟨t, hin, rfl⟩ | ⟨-, hne, -⟩ | ⟨t, rfl, hin⟩ := append_cons_eq hms
    · obtain ⟨u', rfl, htail⟩ := hfirst hin
      exact (iha htail).within [opens] (closes :: b)
    · cases hne
    · simpa using (ihb hin).within (opens :: (a ++ [closes])) []
  | @double a b c ha hb hc iha ihb ihc =>
    have hms : (opens :: a) ++ turns :: (b ++ closes :: c) = u ++ turns :: w := hms
    obtain ⟨t, hin, rfl⟩ | ⟨rfl, -, rfl⟩ | ⟨t, rfl, hrest⟩ := append_cons_eq hms
    · obtain ⟨u', rfl, htail⟩ := hfirst hin
      exact (iha htail).within [opens] (turns :: (b ++ closes :: c))
    · exact ⟨[], c, a, b, ha, hb, rfl, rfl⟩
    · obtain ⟨z, hin, rfl⟩ | ⟨-, hne, -⟩ | ⟨z, rfl, hin⟩ := append_cons_eq hrest
      · simpa using (ihb hin).within (opens :: (a ++ [turns])) (closes :: c)
      · cases hne
      · simpa using (ihc hin).within (opens :: (a ++ turns :: (b ++ [closes]))) []

theorem Divides.encloses (h : Divides u w) : ∃ x y, Encloses x y u w := by
  obtain ⟨x, y, v, v', hv, hv', hu, hw⟩ := h
  exact ⟨x, y, v, v', hv.balanced, hv'.balanced, hu, hw⟩

/-- Where a turn stands some pair is open. -/
theorem Nested.rise_pos (h : Nested (u ++ turns :: w)) : 0 < rise u := by
  obtain ⟨x, y, v, v', hv, -, rfl, rfl⟩ := h.divides rfl
  obtain ⟨-, hlow⟩ := h.balanced
  obtain ⟨hlevel, -⟩ := hv.balanced
  simp only [rise, low, rise_append, low_append] at *
  omega

/-- No second turn follows in the same pair. -/
theorem Nested.not_turns (h : Nested v) (h' : Nested (v ++ turns :: t))
    (hafter : Nested (t ++ turns :: w)) : False := by
  have hrise := hafter.rise_pos
  obtain ⟨hlevel, -⟩ := h.balanced
  obtain ⟨hlevel', -⟩ := h'.balanced
  simp only [rise, rise_append] at hlevel'
  omega

theorem Nested.once {ms u' w' : List Bracket} (h : Nested ms) (hms : ms = u ++ turns :: w)
    (hms' : ms = u' ++ turns :: w') (henc : Encloses x y u w) (henc' : Encloses x y u' w') :
    u = u' := by
  obtain ⟨x₁, y₁, v, z, hv, hz, rfl, rfl⟩ := h.divides hms
  obtain ⟨x₂, y₂, v', z', hv', hz', rfl, rfl⟩ := h.divides hms'
  -- Both turns have the pair of which the two places speak.
  have hpair : Encloses x₁ y₁ (x₁ ++ opens :: v) (z ++ closes :: y₁) :=
    ⟨v, z, hv.balanced, hz.balanced, rfl, rfl⟩
  have hpair' : Encloses x₂ y₂ (x₂ ++ opens :: v') (z' ++ closes :: y₂) :=
    ⟨v', z', hv'.balanced, hz'.balanced, rfl, rfl⟩
  obtain ⟨rfl, rfl⟩ := hpair.unique henc
  obtain ⟨rfl, rfl⟩ := hpair'.unique henc'
  have hinside : v ++ turns :: z = v' ++ turns :: z' := by
    have hsame := hms.symm.trans hms'
    exact (List.append_left_inj (closes :: y₂)).mp (by simpa using hsame)
  obtain ⟨t, rfl, rfl⟩ | ⟨rfl, -, -⟩ | ⟨t, rfl, rfl⟩ := append_cons_eq hinside
  · exact (hv'.not_turns hv hz').elim
  · rfl
  · exact (hv.not_turns hv' hz).elim

/-- **Nested conditionals are paired.** -/
theorem Nested.paired {ms : List Bracket} (h : Nested ms) : Paired ms where
  balanced := h.balanced
  turn u w hms := by
    obtain ⟨x, y, hxy⟩ := (h.divides hms).encloses
    refine ⟨(x, y), hxy, fun p hp => ?_⟩
    obtain ⟨hx, hy⟩ := hp.unique hxy
    exact Prod.ext hx hy
  once u w u' w' hms hms' x y := h.once hms hms'

end Bracket

end Interview
