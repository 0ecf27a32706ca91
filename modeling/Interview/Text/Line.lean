/-!
# Lines of a text

A text is a list of lines, each with the break that ends it: a line feed, a carriage return and a
line feed, or nothing. A carriage return anywhere else is a character of its line. `split` takes
a text apart and `join` puts it together again.

* `join_split`: nothing is lost.
* `split_ending`: only the last line may have no break.
* `split_append`: a text that ends in a line feed splits apart from what follows it.
* `split_line`, `split_last`: a text is split line by line.
-/

namespace Interview

/-- How a line ends. -/
inductive LineBreak where
  /-- The text ends without a break. -/
  | none
  /-- A line feed. -/
  | lineFeed
  /-- A carriage return and a line feed. -/
  | returnFeed
  deriving DecidableEq

/-- The characters of a break. -/
def LineBreak.chars : LineBreak → List Char
  | .none => []
  | .lineFeed => ['\n']
  | .returnFeed => ['\r', '\n']

/-- A line and the break that ends it. -/
structure Line where
  /-- The characters before the break. -/
  text : List Char
  /-- The break. -/
  ending : LineBreak
  deriving DecidableEq

namespace Line

/-- The characters of a line, its break included. -/
def chars (l : Line) : List Char := l.text ++ l.ending.chars

/-- The text that consists of some lines. -/
def join (ls : List Line) : List Char := ls.flatMap chars

/-- The lines with one more character before them. -/
def push (c : Char) : List Line → List Line
  | [] => [⟨[c], .none⟩]
  | l :: ls => { l with text := c :: l.text } :: ls

/-- The lines of a text. -/
def split : List Char → List Line
  | [] => []
  | '\n' :: r => ⟨[], .lineFeed⟩ :: split r
  | '\r' :: '\n' :: r => ⟨[], .returnFeed⟩ :: split r
  | c :: r => push c (split r)

@[simp] theorem join_nil : join [] = [] := rfl

@[simp] theorem join_cons (l : Line) (ls : List Line) : join (l :: ls) = l.chars ++ join ls := rfl

@[simp] theorem join_append (ls ms : List Line) : join (ls ++ ms) = join ls ++ join ms := by
  simp [join]

@[simp] theorem join_push (c : Char) (ls : List Line) : join (push c ls) = c :: join ls := by
  cases ls <;> simp [push, chars, LineBreak.chars]

theorem join_split (s : List Char) : join (split s) = s := by
  fun_induction split s with
  | case1 => rfl
  | case2 r ih => simp [chars, LineBreak.chars, ih]
  | case3 r ih => simp [chars, LineBreak.chars, ih]
  | case4 c r _ _ ih => simp [ih]

/-- Only the last line of a text may have no break. -/
theorem split_ending {s : List Char} {u v : List Line} {l m : Line}
    (h : split s = u ++ l :: m :: v) : l.ending ≠ .none := by
  fun_induction split s generalizing u l m v with
  | case1 => simp at h
  | case2 r ih =>
    cases u with
    | nil => simp at h; simp [← h.1]
    | cons k u => exact ih (List.cons.inj h).2
  | case3 r ih =>
    cases u with
    | nil => simp at h; simp [← h.1]
    | cons k u => exact ih (List.cons.inj h).2
  | case4 c r _ _ ih =>
    cases hr : split r with
    | nil => rw [hr] at h; cases u <;> simp [push] at h
    | cons k ks =>
      rw [hr] at h ih
      cases u with
      | nil =>
        obtain ⟨rfl, rfl⟩ := List.cons.inj h
        exact ih (u := []) (l := k) rfl
      | cons k' u' =>
        obtain ⟨-, rfl⟩ := List.cons.inj h
        exact ih (u := k :: u') rfl

/-- No line of a text holds a line feed. -/
theorem split_text {s : List Char} {l : Line} (h : l ∈ split s) : '\n' ∉ l.text := by
  fun_induction split s generalizing l with
  | case1 => simp at h
  | case2 r ih =>
    rcases List.mem_cons.mp h with rfl | h
    · simp
    · exact ih h
  | case3 r ih =>
    rcases List.mem_cons.mp h with rfl | h
    · simp
    · exact ih h
  | case4 c r hc _ ih =>
    have hn : '\n' ≠ c := fun e => hc e.symm
    cases hr : split r with
    | nil =>
      rw [hr] at h
      obtain rfl := List.mem_singleton.mp h
      simpa using hn
    | cons k ks =>
      rw [hr] at h ih
      rcases List.mem_cons.mp h with rfl | h
      · simpa [hn] using ih List.mem_cons_self
      · exact ih (List.mem_cons_of_mem _ h)

theorem split_eq_nil {s : List Char} : split s = [] ↔ s = [] := by
  constructor
  · intro h
    simpa [h] using (join_split s).symm
  · rintro rfl
    rfl

theorem push_append {c : Char} {ls ms : List Line} (h : ls ≠ []) :
    push c (ls ++ ms) = push c ls ++ ms := by
  cases ls with
  | nil => exact absurd rfl h
  | cons l ls => rfl

/-- A character that does not start a break goes to the front of the first line. -/
theorem split_cons {c : Char} {s : List Char} (hc : c ≠ '\n') (hr : c = '\r' → s.head? ≠ some '\n') :
    split (c :: s) = push c (split s) := by
  rw [split]
  · exact hc
  · rintro r rfl rfl
    exact hr rfl rfl

/-- A text that is empty or ends in a line feed splits apart from what follows it. -/
theorem split_append {s t : List Char} (h : ∀ c, s.getLast? = some c → c = '\n') :
    split (s ++ t) = split s ++ split t := by
  fun_induction split s with
  | case1 => rfl
  | case2 r ih =>
    have := ih fun c hc => h c (by cases r <;> simp_all)
    simp [split, this]
  | case3 r ih =>
    have := ih fun c hc => h c (by cases r <;> simp_all)
    simp [split, this]
  | case4 c r hc hr ih =>
    cases r with
    | nil => exact absurd (h c rfl) hc
    | cons d r =>
      have ih := ih fun e he => h e (by simpa using he)
      have hne : split (d :: r) ≠ [] := by simp [split_eq_nil]
      rw [List.cons_append, split_cons hc, ih, push_append hne]
      rintro rfl hd
      obtain rfl : d = '\n' := by simpa using hd
      exact hr r rfl rfl

/-- A text starts with its first line, up to a break that ends it. -/
theorem split_line {x r : List Char} {b : LineBreak} (hx : '\n' ∉ x) (hb : b ≠ .none)
    (hr : b = .lineFeed → x.getLast? ≠ some '\r') :
    split (x ++ (b.chars ++ r)) = ⟨x, b⟩ :: split r := by
  induction x with
  | nil =>
    cases b with
    | none => exact absurd rfl hb
    | lineFeed => simp [LineBreak.chars, split]
    | returnFeed => simp [LineBreak.chars, split]
  | cons c x ih =>
    simp only [List.mem_cons, not_or] at hx
    have hrest : b = .lineFeed → x.getLast? ≠ some '\r' := by
      intro hfeed hlast
      exact hr hfeed (by simp [List.getLast?_cons, hlast])
    rw [List.cons_append, split_cons (Ne.symm hx.1), ih hx.2 hrest, push]
    rintro rfl hhead
    cases x with
    | nil =>
      cases b with
      | none => exact hb rfl
      | lineFeed => exact hr rfl rfl
      | returnFeed => simp [LineBreak.chars] at hhead
    | cons d x =>
      obtain rfl : d = '\n' := by simpa using hhead
      exact hx.2 List.mem_cons_self

/-- A text without a line feed is one line. -/
theorem split_last {x : List Char} (hx : '\n' ∉ x) (hne : x ≠ []) : split x = [⟨x, .none⟩] := by
  induction x with
  | nil => exact absurd rfl hne
  | cons c x ih =>
    simp only [List.mem_cons, not_or] at hx
    rw [split_cons (Ne.symm hx.1)]
    · cases x with
      | nil => rfl
      | cons d x => rw [ih hx.2 (by simp), push]
    · rintro rfl hhead
      exact hx.2 (List.mem_of_mem_head? hhead)

end Line

end Interview
