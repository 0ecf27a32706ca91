import Interview.Proofs.Document.Front
import Mathlib.Data.List.Chain

/-!
# Putting bodies together

A list of blocks is read the same at the end of a text, before other blocks and in a branch of a
conditional: nothing that may follow it changes what is read, once its last line has a break.

* `Line.split_feed`: the lines of a text with a line feed and more after it.
* `Block.Reads.extend`: a list of blocks is read the same before a vacant line and a directive.
* `Document.bodies_compose`: two bodies one after the other, and in the branches of a conditional.
-/

namespace Interview

open Reader Text Word

namespace Line

variable {l : Line} {ls ms : List Line} {s t : List Char}

/-- The line with a break at its end. -/
def broken (l : Line) : Line := if l.ending = .none then { l with ending := .lineFeed } else l

@[simp] theorem broken_text (l : Line) : l.broken.text = l.text := by
  unfold broken
  split <;> rfl

theorem broken_eq (h : l.ending ≠ .none) : l.broken = l := if_neg h

theorem broken_ending (l : Line) : l.broken.ending ≠ .none := by
  unfold broken
  split
  · nofun
  · assumption

@[simp] theorem broken_isVacant (l : Line) : l.broken.isVacant = l.isVacant := by
  simp [isVacant]

theorem like_broken (l : Line) : Like l l.broken where
  alike := by
    rw [broken_text]
    exact .refl l.text
  broken _ := l.broken_ending

theorem map_broken (h : ∀ l ∈ ls, l.ending ≠ .none) : ls.map broken = ls := by
  have hsame : ls.map broken = ls.map id := List.map_congr_left fun l hl => broken_eq (h l hl)
  rw [hsame, List.map_id]

/-- Lines of which only the last may have no break. -/
def Whole (ls : List Line) : Prop := ls.IsChain fun l _ => l.ending ≠ .none

theorem whole_split (s : List Char) : Whole (split s) := by
  refine (List.isChain_isInfix (split s)).imp fun l m hlm => ?_
  obtain ⟨u, v, h⟩ := hlm
  exact split_ending (u := u) (m := m) (v := v) (by simpa using h.symm)

/-! ## A line feed at the end of a text -/

/-- A text is whole lines and then a last line without a break, which may be empty. -/
theorem exists_last (t : List Char) :
    ∃ s x, t = s ++ x ∧ '\n' ∉ x ∧ ∀ c, s.getLast? = some c → c = '\n' := by
  induction t with
  | nil => exact ⟨[], [], rfl, by simp, nofun⟩
  | cons c t ih =>
    obtain ⟨s, x, rfl, hx, hs⟩ := ih
    cases s with
    | nil =>
      by_cases hc : c = '\n'
      · exact ⟨[c], x, rfl, hx, by simp [hc]⟩
      · exact ⟨[], c :: x, rfl, by simp [hx, Ne.symm hc], nofun⟩
    | cons d s => exact ⟨c :: d :: s, x, rfl, hx, fun e he => hs e (by simpa using he)⟩

theorem split_ending_of_feed (hs : ∀ c, s.getLast? = some c → c = '\n') :
    ∀ l ∈ split s, l.ending ≠ .none := by
  intro l hl
  obtain ⟨us, vs, hsplit⟩ := List.append_of_mem hl
  have happend : split (s ++ ['a']) = us ++ l :: (vs ++ [⟨['a'], .none⟩]) := by
    rw [split_append hs, hsplit]
    simp [split, push]
  obtain ⟨m, ks, hks⟩ :=
    List.exists_cons_of_ne_nil (show vs ++ [(⟨['a'], .none⟩ : Line)] ≠ [] by simp)
  rw [hks] at happend
  exact split_ending happend

/-- **A line feed at the end.** A text with a line feed and more after it consists of its own
lines, with a break after the last one, of one vacant line perhaps, and of the lines of the rest. -/
theorem split_feed (h : ∀ l ∈ (split t).getLast?, l.text.getLast? ≠ some '\r') (u : List Char) :
    ∃ ms, split (t ++ '\n' :: u) = (split t).map broken ++ (ms ++ split u) ∧
      ∀ m ∈ ms, m.isVacant = true := by
  obtain ⟨s, x, rfl, hx, hs⟩ := exists_last t
  have hbroken := map_broken (split_ending_of_feed hs)
  by_cases hnil : x = []
  · subst hnil
    refine ⟨[⟨[], .lineFeed⟩], ?_, by simp [isVacant]⟩
    rw [List.append_nil, split_append hs, hbroken]
    rfl
  · have hlast : split (s ++ x) = split s ++ [⟨x, .none⟩] := by
      rw [split_append hs, split_last hx hnil]
    have hreturn : x.getLast? ≠ some '\r' := h ⟨x, .none⟩ (by simp [hlast])
    have hline : split (x ++ '\n' :: u) = ⟨x, .lineFeed⟩ :: split u :=
      split_line (b := .lineFeed) hx (by simp) fun _ => hreturn
    refine ⟨[], ?_, by simp⟩
    rw [List.append_assoc, split_append hs, hline, hlast, List.map_append, hbroken]
    simp [broken]

end Line

namespace Block

variable {ls ms ks r rest : List Line} {b : Block} {bs cs : List Block}

/-- The break after the last line is no part of a block. -/
theorem told_map_broken (h : Line.Whole ms) (b : Block) :
    told (ms.map Line.broken) b = told ms b := by
  have htext : Line.text ∘ Line.broken = Line.text := by
    funext l
    simp
  have hjoined : Prose.joined ((ms.map Line.broken).map fun m => (trim m.text, m.ending)) =
      Prose.joined (ms.map fun m => (trim m.text, m.ending)) := by
    induction ms with
    | nil => rfl
    | cons l ms ih =>
      cases ms with
      | nil => simp
      | cons m ms =>
        obtain ⟨hl, hms⟩ := List.isChain_cons_cons.mp h
        have := ih hms
        simp only [List.map_cons, Prose.joined_cons_cons, Line.broken_eq hl] at this ⊢
        rw [this]
  cases b with
  | paragraph t => simp only [told, hjoined]
  | nextSteps t => simp only [told, ← List.map_tail, ← List.map_dropLast, List.map_map, htext]
  | heading _ | question _ | startButton _ | rules _ | conditional _ _ _ => rfl

theorem Spans.map_broken (h : Spans ms b) (hms : Line.Whole ms) : Spans (ms.map Line.broken) b := by
  have hlike : List.Forall₂ Line.Like ms (ms.map Line.broken) :=
    List.forall₂_map_right_iff.mpr (List.forall₂_same.mpr fun l _ => Line.like_broken l)
  have hspans := h.like hlike
  rwa [told_map_broken hms, h.told_eq] at hspans

theorem MayEnd.map_broken (h : MayEnd b ls) (hrest : Bullet.Ends rest) (hms : Spans ms b) :
    MayEnd b (ls.map Line.broken ++ rest) := by
  cases ls with
  | nil => exact mayEnd_of_ends b hrest
  | cons l ls =>
    have hnext : NextAlike (l :: ls) ((l :: ls).map Line.broken ++ rest) := by
      intro m hm
      obtain rfl : l.broken = m := by simpa using hm
      exact ⟨l, rfl, (Line.like_broken l).alike⟩
    have hend : MayEnd (told ms b) ((l :: ls).map Line.broken ++ rest) := h.like hnext
    rwa [hms.told_eq] at hend

/-- **What follows makes no difference.** The blocks that some lines start with are read from them
also if a vacant line or a directive stands at the end, and then reading goes on. -/
theorem Reads.extend (h : Reads ls bs r) (hls : Line.Whole ls) (hrest : Bullet.Ends rest)
    (hr : Reads (r.map Line.broken ++ rest) cs ks) :
    Reads (ls.map Line.broken ++ rest) (bs ++ cs) ks := by
  induction h generalizing cs ks with
  | stop _ => exact hr
  | @vacant l ls r bs hv _ ih =>
    exact .vacant (by rw [Line.broken_isVacant, hv]) (ih hls.tail hr)
  | @plain ms ls r b bs hms hend _ ih =>
    have hspans := hms.map_broken hls.left_of_append
    rw [List.map_append, List.append_assoc]
    exact .plain hspans (hend.map_broken hrest hms) (ih hls.right_of_append hr)
  | @conditional l e ls ms r c bs bs' hl hthen he _ ihthen ih =>
    have hinside : Line.Whole ls := hls.tail
    have hstop : atBranchEnd ((e :: ms).map Line.broken ++ rest) = true := by
      simpa [atBranchEnd] using hthen.stops
    have hthen' := ihthen hinside (.stop hstop)
    have hafter := ih (hinside.suffix hthen.suffix).tail hr
    rw [List.append_nil] at hthen'
    exact .conditional (by rwa [Line.broken_text]) hthen' (by rwa [Line.broken_text]) hafter
  | @conditionalElse l e d ls ms us r c bs es bs' hl hthen he helse hd _ ihthen ihelse ih =>
    have hinside : Line.Whole ls := hls.tail
    have hsecond : Line.Whole ms := (hinside.suffix hthen.suffix).tail
    have hstop : atBranchEnd ((e :: ms).map Line.broken ++ rest) = true := by
      simpa [atBranchEnd] using hthen.stops
    have hstop' : atBranchEnd ((d :: us).map Line.broken ++ rest) = true := by
      simpa [atBranchEnd] using helse.stops
    have hthen' := ihthen hinside (.stop hstop)
    have helse' := ihelse hsecond (.stop hstop')
    have hafter := ih (hsecond.suffix helse.suffix).tail hr
    rw [List.append_nil] at hthen' helse'
    exact .conditionalElse (by rwa [Line.broken_text]) hthen' (by rwa [Line.broken_text]) helse'
      (by rwa [Line.broken_text]) hafter

end Block

namespace Document

variable {ls ms r : List Line} {bs cs : List Block} {t u : List Char}

theorem reads_vacant (hms : ∀ m ∈ ms, m.isVacant = true) (h : Block.Reads ls bs r) :
    Block.Reads (ms ++ ls) bs r := by
  induction ms with
  | nil => exact h
  | cons m ms ih =>
    obtain ⟨hm, hms⟩ := List.forall_mem_cons.mp hms
    exact .vacant hm (ih hms)

theorem head_of_vacant {P : Line → Prop} (hms : ∀ m ∈ ms, P m) (h : ∀ l ∈ ls.head?, P l) :
    ∀ l ∈ (ms ++ ls).head?, P l := by
  cases ms with
  | nil => exact h
  | cons m ms =>
    intro l hl
    obtain rfl : m = l := by simpa using hl
    exact hms m List.mem_cons_self

/-- The lines of a body with a line feed and more after it. -/
theorem split_body_feed (h : Block.Reads (Line.split t) bs []) (u : List Char) :
    ∃ ms, Line.split (t ++ '\n' :: u) = (Line.split t).map Line.broken ++ (ms ++ Line.split u) ∧
      ∀ m ∈ ms, m.isVacant = true := by
  obtain ⟨ks, hks, hlast⟩ := h.last
  rw [List.append_nil] at hks
  subst hks
  exact Line.split_feed hlast u

/-- A body before a text that starts with a vacant line or a directive. -/
theorem reads_feed (h : Block.Reads (Line.split t) bs []) (hends : Bullet.Ends (Line.split u))
    (hu : Block.Reads (Line.split u) cs r) :
    Block.Reads (Line.split (t ++ '\n' :: u)) (bs ++ cs) r := by
  obtain ⟨ms, hsplit, hms⟩ := split_body_feed h u
  have hrest : Block.Reads (ms ++ Line.split u) cs r := reads_vacant hms hu
  have hends' : Bullet.Ends (ms ++ Line.split u) :=
    head_of_vacant (fun m hm => .inl (hms m hm)) hends
  rw [hsplit]
  exact h.extend (Line.whole_split t) hends' hrest

/-! ## No front matter -/

/-- Lines that start with no front matter. -/
structure Unheaded (ls : List Line) : Prop where
  unfenced : ∀ l ∈ ls.head?, ¬ Fence l.text
  not_bare : ∀ es r, ¬ Bare ls es r

theorem Unheaded.front (h : Unheaded ls) : Front ls [] ls :=
  .absent (fun l hl hfence => absurd hfence (h.unfenced l hl)) h.not_bare

/-- They are read without entries. -/
theorem Unheaded.front_iff (h : Unheaded ls) {es : List (String × String)} :
    Front ls es ms ↔ es = [] ∧ ms = ls := by
  constructor
  · intro hfront
    cases hfront with
    | fenced hl _ _ _ => exact absurd hl (h.unfenced _ rfl)
    | bare hbare => exact absurd hbare (h.not_bare _ _)
    | absent _ _ => exact ⟨rfl, rfl⟩
  · rintro ⟨rfl, rfl⟩
    exact h.front

theorem unheaded_nil : Unheaded [] where
  unfenced := nofun
  not_bare es r := by
    rintro ⟨hne, ms, hms, hes, -⟩
    obtain ⟨rfl, -⟩ := List.append_eq_nil_iff.mp hms.symm
    cases hes
    exact hne rfl

/-- A line that starts with neither a hyphen nor a name is no front matter. -/
theorem unheaded_of_first {l : Line} (h : ∀ c ∈ l.text.head?, isNameChar c = false) :
    Unheaded (l :: ls) where
  unfenced m hm hfence := by
    obtain rfl : l = m := by simpa using hm
    obtain ⟨p, -, htext⟩ := hfence
    exact absurd (h '-' (by simp [htext])) (by decide)
  not_bare es r := by
    rintro ⟨hne, ms, hms, hes, -⟩
    cases hes with
    | nil => exact hne rfl
    | @cons m e ms es hm _ =>
      obtain ⟨c, k, t, hc, htext⟩ := exists_key_of_entryText hm
      cases hms
      simp [h c (by simp [htext])] at hc

theorem entries_map_broken {es : List (String × String)} :
    Entries (ms.map Line.broken) es ↔ Entries ms es := by
  unfold Entries
  rw [List.forall₂_map_left_iff]
  simp only [Line.broken_text]

/-- Lines after a vacant one do not become front matter of what stands before it. -/
theorem Unheaded.append_vacant (h : Unheaded ls) (hne : ls ≠ []) {rest : List Line}
    (hrest : ∀ l ∈ rest.head?, l.isVacant = true) : Unheaded (ls.map Line.broken ++ rest) where
  unfenced m hm := by
    obtain ⟨l, ls, rfl⟩ := List.exists_cons_of_ne_nil hne
    obtain rfl : l.broken = m := by simpa using hm
    rw [Line.broken_text]
    exact h.unfenced l rfl
  not_bare es r := by
    rintro ⟨hes, ms, hms, hentries, hr⟩
    rcases List.append_eq_append_iff.mp hms with ⟨ks, rfl, rfl⟩ | ⟨ks, hks, rfl⟩
    · have hnil : ks = [] := by
        cases ks with
        | nil => rfl
        | cons k ks => exact absurd (hentries.colon k (by simp)) (not_mem_of_isVacant (hrest k rfl))
      subst hnil
      rw [List.append_nil, entries_map_broken] at hentries
      exact h.not_bare es [] ⟨hes, ls, by simp, hentries, nofun⟩
    · obtain ⟨us, vs, rfl, rfl, rfl⟩ := List.map_eq_append_iff.mp hks
      refine h.not_bare es vs ⟨hes, us, rfl, entries_map_broken.mp hentries, fun l hl => ?_⟩
      have hvacant := hr l.broken (by simp [Option.mem_def.mp hl])
      rwa [Line.broken_isVacant] at hvacant

/-- What comes after vacant lines has no front matter if neither part has. -/
theorem Unheaded.append (h : Unheaded (ls.dropWhile Line.isVacant)) {rest : List Line}
    (hrest : ∀ l ∈ rest.head?, l.isVacant = true)
    (hafter : Unheaded (rest.dropWhile Line.isVacant)) :
    Unheaded ((ls.map Line.broken ++ rest).dropWhile Line.isVacant) := by
  have hvacant : Line.isVacant ∘ Line.broken = Line.isVacant := by
    funext l
    simp
  have hdrop : (ls.map Line.broken).dropWhile Line.isVacant =
      (ls.dropWhile Line.isVacant).map Line.broken := by
    rw [List.dropWhile_map, hvacant]
  rw [List.dropWhile_append, hdrop]
  by_cases hnil : ls.dropWhile Line.isVacant = []
  · simpa [hnil] using hafter
  · rw [if_neg (by simpa using hnil)]
    exact h.append_vacant hnil hrest

/-! ## Bodies -/

/-- A text of the blocks `bs` only: it has no front matter and does not start with a fence. -/
structure BodyOnly (t : String) (bs : List Block) : Prop where
  read : ofText? t = .ok ⟨[], bs⟩
  unfenced : ∀ l ∈ ((Line.split t.toList).dropWhile Line.isVacant).head?, ¬ Fence l.text

theorem unheaded_of_front (h : Front ls [] ms) (hls : ∀ l ∈ ls.head?, ¬ Fence l.text) :
    ms = ls ∧ Unheaded ls := by
  cases h with
  | fenced hl _ _ _ => exact absurd hl (hls _ rfl)
  | bare hbare => exact absurd rfl hbare.1
  | absent _ hbare => exact ⟨rfl, hls, hbare⟩

/-- What a text of blocks only is, said of its lines. -/
theorem bodyOnly_iff {t : String} : BodyOnly t bs ↔
    Unheaded ((Line.split t.toList).dropWhile Line.isVacant) ∧
      Block.Reads (Line.split t.toList) bs [] := by
  constructor
  · rintro ⟨hread, hunfenced⟩
    obtain ⟨ms, hfront, hreads⟩ := ofText?_eq_ok.mp hread
    obtain ⟨rfl, hunheaded⟩ := unheaded_of_front hfront hunfenced
    exact ⟨hunheaded, Block.reads_dropWhile.mp hreads⟩
  · rintro ⟨hunheaded, hreads⟩
    have hdropped := Block.reads_dropWhile.mpr hreads
    exact ⟨ofText?_eq_ok.mpr ⟨_, hunheaded.front, hdropped⟩, hunheaded.unfenced⟩

/-- One body after another is a body. -/
theorem BodyOnly.append {t u : String} (ht : BodyOnly t bs) (hu : BodyOnly u cs) :
    BodyOnly (t ++ "\n\n" ++ u) (bs ++ cs) := by
  obtain ⟨htop, hreads⟩ := bodyOnly_iff.mp ht
  obtain ⟨hutop, hureads⟩ := bodyOnly_iff.mp hu
  have htext : (t ++ "\n\n" ++ u).toList = t.toList ++ '\n' :: '\n' :: u.toList := by simp
  have hsplit : Line.split ('\n' :: u.toList) = ⟨[], .lineFeed⟩ :: Line.split u.toList := rfl
  have hvacant : (⟨[], .lineFeed⟩ : Line).isVacant = true := rfl
  have hfirst : ∀ l ∈ (Line.split ('\n' :: u.toList)).head?, l.isVacant = true := by
    rw [hsplit]
    simp [hvacant]
  rw [bodyOnly_iff, htext]
  constructor
  · obtain ⟨ms, hlines, hms⟩ := split_body_feed hreads ('\n' :: u.toList)
    rw [hlines]
    apply htop.append (head_of_vacant hms hfirst)
    rw [List.dropWhile_append_of_pos hms, hsplit, List.dropWhile_cons_of_pos hvacant]
    exact hutop
  · exact reads_feed hreads (fun l hl => .inl (hfirst l hl)) (hsplit ▸ .vacant hvacant hureads)

/-- The text of a conditional with two texts in its branches. -/
def wrapped (q t u : String) : String :=
  "$IF " ++ q ++ "\n" ++ t ++ "\n$ELSE\n" ++ u ++ "\n$ENDIF"

theorem openingText_of_clause {q : List Char} {c : Clause} (h : Clause.clause q = .ok c []) :
    Block.openingText ("$IF ".toList ++ q) = .ok c [] := by
  have hstart : Stops isSpace (q ++ []) := (Clause.spells_iff.mpr h).stops
  have hsame : "$IF ".toList ++ q = [] ++ ("$IF".toList ++ ([' '] ++ q)) := rfl
  rw [List.append_nil] at hstart
  unfold Block.openingText Block.lastCondition
  simp only [bind_eq_ok, within_eq_ok, commit_eq_ok, spaces_iff, word_iff, spaces1_iff,
    finished_eq_ok, pure_apply, Reply.ok.injEq]
  refine ⟨(), _, ⟨[], spaces_nil, hsame, stops_cons.mpr (by decide)⟩, (), _, rfl, (), q,
    ⟨[' '], by simp, ?_, rfl, hstart⟩, c, [], h, (), [], ⟨[], spaces_nil, rfl, stops_nil⟩, (), [],
    ⟨rfl, rfl⟩, rfl, rfl⟩
  simp [Spaces, isSpace]

theorem directiveText_self {n : String} (hn : n ∈ Directive.all) :
    Directive.directiveText n n.toList = .ok () [] :=
  (Directive.directiveText_iff hn).mpr ⟨[], [], spaces_nil, spaces_nil, by simp⟩

/-- A body before the end of the conditional that it stands in. -/
theorem reads_before_end (h : Block.Reads (Line.split t) bs []) :
    Block.Reads (Line.split (t ++ '\n' :: "$ENDIF".toList)) bs [⟨"$ENDIF".toList, .none⟩] := by
  have hend : Line.split "$ENDIF".toList = [⟨"$ENDIF".toList, .none⟩] := rfl
  rw [← List.append_nil bs]
  apply reads_feed h <;> rw [hend]
  · exact fun l hl => .inr (by cases hl; decide)
  · exact .stop (by decide)

/-- A body before the other branch of the conditional that it stands in. -/
theorem reads_before_else (h : Block.Reads (Line.split t) bs []) (u : List Char) :
    Block.Reads (Line.split (t ++ '\n' :: ("$ELSE".toList ++ '\n' :: u))) bs
      (⟨"$ELSE".toList, .lineFeed⟩ :: Line.split u) := by
  have helse : Line.split ("$ELSE".toList ++ '\n' :: u) =
      ⟨"$ELSE".toList, .lineFeed⟩ :: Line.split u :=
    Line.split_line (b := .lineFeed) (by decide) nofun fun _ => by decide
  rw [← List.append_nil bs]
  apply reads_feed h <;> rw [helse]
  · exact fun l hl => .inr (by cases hl; decide)
  · exact .stop (show Directive.endsBranch "$ELSE".toList = true by decide)

/-- A text that opens with a condition has no front matter. -/
theorem bodyOnly_of_opening {t : String} {q v : List Char} {c : Clause}
    (htext : t.toList = ("$IF ".toList ++ q) ++ '\n' :: v) (hq : Clause.clause q = .ok c [])
    (hfeed : '\n' ∉ q)
    (h : Block.Reads (⟨"$IF ".toList ++ q, .lineFeed⟩ :: Line.split v) bs []) : BodyOnly t bs := by
  have hended := (Clause.ended_of_spells (Clause.spells_iff.mpr hq)).append "$IF ".toList
  have hopen : Line.split (("$IF ".toList ++ q) ++ '\n' :: v) =
      ⟨"$IF ".toList ++ q, .lineFeed⟩ :: Line.split v :=
    Line.split_line (b := .lineFeed) (by simpa using hfeed) nofun fun _ => hended.last
  rw [bodyOnly_iff, htext, hopen]
  refine ⟨?_, h⟩
  rw [List.dropWhile_cons_of_neg (by simp [Line.isVacant, isSpace])]
  exact unheaded_of_first (by simp [isNameChar])

/-- Two bodies in the branches of a conditional are a body. -/
theorem BodyOnly.wrapped {t u q : String} {c : Clause} (ht : BodyOnly t bs) (hu : BodyOnly u cs)
    (hq : Clause.clause q.toList = .ok c []) (hfeed : '\n' ∉ q.toList) :
    BodyOnly (wrapped q t u) [.conditional c bs cs] := by
  obtain ⟨-, hreads⟩ := bodyOnly_iff.mp ht
  obtain ⟨-, hureads⟩ := bodyOnly_iff.mp hu
  refine bodyOnly_of_opening (v := t.toList ++ '\n' :: ("$ELSE".toList ++
    '\n' :: (u.toList ++ '\n' :: "$ENDIF".toList))) (by simp [Document.wrapped]) hq hfeed ?_
  exact .conditionalElse (openingText_of_clause hq) (reads_before_else hreads _)
    (directiveText_self (by simp [Directive.all])) (reads_before_end hureads)
    (directiveText_self (by simp [Directive.all])) (.stop rfl)

/-- **Bodies compose.** Two bodies with a vacant line between them are read as the blocks of the
first and the blocks of the second, and a conditional may be put around them: what is read of a
body depends neither on what follows it nor on the branch it stands in. -/
theorem bodies_compose {t u : String} (ht : BodyOnly t bs) (hu : BodyOnly u cs) :
    ofText? (t ++ "\n\n" ++ u) = .ok ⟨[], bs ++ cs⟩ ∧
      ∀ {q : String} {c : Clause}, Clause.clause q.toList = .ok c [] → '\n' ∉ q.toList →
        ofText? (wrapped q t u) = .ok ⟨[], [.conditional c bs cs]⟩ :=
  ⟨(ht.append hu).read, fun hq hfeed => (ht.wrapped hu hq hfeed).read⟩

theorem bodies_compose_bullet_paragraph :
    BodyOnly "* a? => b" [.rules [.goTo (.named "a?") "b"]] ∧
      BodyOnly "---b\n# c" [.paragraph "---b\n# c"] ∧
      Clause.clause "x is 'y'".toList = .ok (.comparison "x" "is" "y") [] ∧
      '\n' ∉ "x is 'y'".toList ∧
      ofText? ("* a? => b" ++ "\n\n" ++ "---b\n# c") =
        .ok ⟨[], [.rules [.goTo (.named "a?") "b"]] ++ [.paragraph "---b\n# c"]⟩ ∧
      ofText? (wrapped "x is 'y'" "* a? => b" "---b\n# c") =
        .ok ⟨[], [.conditional (.comparison "x" "is" "y") [.rules [.goTo (.named "a?") "b"]]
          [.paragraph "---b\n# c"]]⟩ := by
  have ht : BodyOnly "* a? => b" [.rules [.goTo (.named "a?") "b"]] := by
    refine ⟨by with_unfolding_all rfl, ?_⟩
    rintro l hl ⟨p, -, htext⟩
    cases hl
    cases htext
  have hu : BodyOnly "---b\n# c" [.paragraph "---b\n# c"] := by
    have hline : ((Line.split "---b\n# c".toList).dropWhile Line.isVacant).head? =
        some ⟨"---b".toList, .lineFeed⟩ := by decide
    refine ⟨by with_unfolding_all rfl, ?_⟩
    rw [hline]
    rintro l hl ⟨p, hp, htext⟩
    cases hl
    have hpad : p = ['b'] := by simpa using htext.symm
    exact absurd (hp 'b' (by simp [hpad])) (by decide)
  have hq : Clause.clause "x is 'y'".toList = .ok (.comparison "x" "is" "y") [] := by
    with_unfolding_all rfl
  exact ⟨ht, hu, hq, by decide, (bodies_compose ht hu).1, (bodies_compose ht hu).2 hq (by decide)⟩

end Document

end Interview
