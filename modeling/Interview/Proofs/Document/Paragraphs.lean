import Interview.Proofs.Block.Commitment
import Interview.Proofs.Document.Composition
import Interview.Proofs.Document.Form

/-!
# Prose

A text of prose is read as its paragraphs, one for every run of lines between vacant ones. Neither
the front matter nor any other kind of block takes a line away from it.

* `Line.runs`, `Line.runs_spec`: the runs of lines that are not vacant.
* `Document.Plain`: what makes a text prose.
* `Document.paragraphs_of_plain`: what such a text is read as.
-/

namespace Interview

open Reader Text Word

/-! ## Runs of lines -/

namespace Line

variable {l : Line} {ls ms : List Line} {rs : List (List Line)}

/-- The runs of lines that are not vacant, in order. -/
def runs (ls : List Line) : List (List Line) := (ls.splitOnP isVacant).filter (· ≠ [])

/-- Lines with vacant ones before, between and after the runs `rs` of lines that are not. -/
inductive Runs : List Line → List (List Line) → Prop
  | nil : Runs [] []
  | vacant {l : Line} {ls : List Line} {rs : List (List Line)} : l.isVacant = true → Runs ls rs →
      Runs (l :: ls) rs
  | run {ms ls : List Line} {rs : List (List Line)} : ms ≠ [] → (∀ m ∈ ms, m.isVacant = false) →
      (∀ l ∈ ls.head?, l.isVacant = true) → Runs ls rs → Runs (ms ++ ls) (ms :: rs)

theorem runs_vacant (hl : l.isVacant = true) (ls : List Line) : runs (l :: ls) = runs ls := by
  rw [runs, List.splitOnP_cons_eq_if_modifyHead, if_pos hl]
  rfl

theorem runs_append (hne : ms ≠ []) (hms : ∀ m ∈ ms, m.isVacant = false)
    (hls : ∀ l ∈ ls.head?, l.isVacant = true) : runs (ms ++ ls) = ms :: runs ls := by
  cases ls with
  | nil =>
    rw [List.append_nil, runs, List.splitOnP_eq_singleton hms,
      List.filter_cons_of_pos (by simpa using hne)]
    rfl
  | cons l ls =>
    have hl := hls l rfl
    rw [runs_vacant hl, runs, List.splitOnP_append_cons_of_forall_mem hms l hl,
      List.filter_cons_of_pos (by simpa using hne)]
    rfl

theorem runs_spec (ls : List Line) : Runs ls (runs ls) := by
  induction hn : ls.length using Nat.strongRecOn generalizing ls with
  | ind n ih =>
    obtain ⟨ms, r, rfl, hms, hr⟩ := Construct.exists_longest (·.isVacant = false) ls
    simp only [Bool.not_eq_false] at hr
    cases ms with
    | nil =>
      cases r with
      | nil => exact .nil
      | cons l r =>
        rw [List.nil_append, runs_vacant (hr l rfl)]
        exact .vacant (hr l rfl) (ih _ (by simp [← hn]) r rfl)
    | cons m ms =>
      rw [runs_append (by simp) hms hr]
      have hlt : r.length < n := by
        rw [← hn, List.length_append, List.length_cons]
        omega
      exact .run (by simp) hms hr (ih _ hlt r rfl)

/-- The runs hold every line that is not vacant, once and in order. -/
theorem Runs.flatten (h : Runs ls rs) : rs.flatten = ls.filter (!·.isVacant) := by
  induction h with
  | nil => rfl
  | vacant hl _ ih => rw [ih, List.filter_cons_of_neg (by simp [hl])]
  | @run ms ls rs _ hms _ _ ih =>
    have hkeep : ∀ m ∈ ms, (!m.isVacant) = true := fun m hm => by simp [hms m hm]
    rw [List.flatten_cons, ih, List.filter_append, List.filter_eq_self.mpr hkeep]

theorem Runs.part (h : Runs ls rs) : ∀ r ∈ rs, r <:+: ls := by
  induction h with
  | nil => nofun
  | vacant _ _ ih => exact fun r hr => (ih r hr).trans (List.suffix_cons _ _).isInfix
  | run _ _ _ _ ih =>
    refine List.forall_mem_cons.mpr ⟨(List.prefix_append _ _).isInfix, fun r hr => ?_⟩
    exact (ih r hr).trans (List.suffix_append _ _).isInfix

/-- A text without carriage returns has none in its lines or at their ends. -/
theorem not_return_of_split {s : List Char} (h : '\r' ∉ s) :
    ∀ l ∈ split s, '\r' ∉ l.text ∧ l.ending ≠ .returnFeed := by
  intro l hl
  have hmem : ∀ c ∈ l.chars, c ∈ s := by
    intro c hc
    rw [← join_split s]
    exact List.mem_flatMap.mpr ⟨l, hl, hc⟩
  refine ⟨fun hc => h (hmem _ (List.mem_append_left _ hc)), fun he => h (hmem _ ?_)⟩
  rw [chars, he]
  exact List.mem_append_right _ List.mem_cons_self

/-- Its lines have line feeds between them. -/
theorem feeds_of_split {s : List Char} (h : '\r' ∉ s) :
    (split s).IsChain fun l _ => l.ending = .lineFeed := by
  refine (List.isChain_isInfix (split s)).imp fun l m hlm => ?_
  have hchain := List.IsChain.infix (whole_split s) hlm
  have hne := (List.isChain_cons_cons.mp hchain).1
  have hnot := (not_return_of_split h l (hlm.subset List.mem_cons_self)).2
  cases hl : l.ending with
  | none => exact absurd hl hne
  | lineFeed => rfl
  | returnFeed => exact absurd hl hnot

end Line

/-! ## Paragraphs -/

namespace Prose

/-- The paragraph of some lines: each trimmed, with line feeds between them. -/
def ofLines (ms : List Line) : String :=
  "\n".intercalate (ms.map fun m => String.ofList (trim m.text))

theorem joined_eq_intercalate {ps : List (List Char × LineBreak)}
    (h : ps.IsChain fun p _ => p.2 = .lineFeed) :
    joined ps = ['\n'].intercalate (ps.map Prod.fst) := by
  induction ps with
  | nil => rfl
  | cons p ps ih =>
    cases ps with
    | nil =>
      rw [List.map_singleton, List.intercalate_singleton]
      rfl
    | cons q qs =>
      obtain ⟨hp, hqs⟩ := List.isChain_cons_cons.mp h
      rw [joined_cons_cons, ih hqs, hp, List.map_cons (l := q :: qs),
        List.intercalate_cons_of_ne_nil (by simp)]
      rfl

theorem ofLines_eq {ms : List Line} (h : ms.IsChain fun m _ => m.ending = .lineFeed) :
    (ofLines ms).toList = joined (ms.map fun m => (trim m.text, m.ending)) := by
  have hchain : (ms.map fun m => (trim m.text, m.ending)).IsChain fun p _ => p.2 = .lineFeed := by
    rwa [List.isChain_map]
  rw [joined_eq_intercalate hchain, ofLines, String.toList_intercalate, List.map_map, List.map_map]
  congr 2
  funext m
  simp

/-- A paragraph has the lines that it was put together from, trimmed. -/
theorem split_ofLines {ms : List Line} (htext : ∀ m ∈ ms, '\n' ∉ m.text)
    (hprose : ∀ m ∈ ms, Block.Prosaic m.text) (h : ms.IsChain fun m _ => m.ending = .lineFeed) :
    (Line.split (ofLines ms).toList).map Line.text = ms.map fun m => trim m.text := by
  have hphrase : ∀ p ∈ ms.map fun m => (trim m.text, m.ending), Phrase p.1 :=
    List.forall_mem_map.mpr fun m hm => phrase_trim (htext m hm) (hprose m hm).1
      (Block.not_blank_of_prosaic (hprose m hm))
  have hbreak : (ms.map fun m => (trim m.text, m.ending)).IsChain fun p _ =>
      p.2 ≠ LineBreak.none := by
    rw [List.isChain_map]
    exact h.imp fun _ _ hm => by simp [hm]
  rw [ofLines_eq h, split_joined hphrase hbreak, List.map_map]
  rfl

end Prose

namespace Block

variable {ls : List Line} {rs : List (List Line)} {s : List Char}

/-- A line of prose that does not start with the sign of a construct starts a paragraph. -/
theorem unmarked_of_trim (hprose : Prosaic s)
    (h : ∀ c ∈ (trim s).head?, c ≠ '#' ∧ c ≠ '[' ∧ c ≠ '*' ∧ c ≠ '-') : Unmarked s := by
  refine (Construct.unmarked_iff hprose).mpr fun k hk => ?_
  rcases hk.sign with ⟨n, hn, -, hopens⟩ | ⟨c, hc, hi⟩
  · have := Directive.isDirective_iff.mpr ⟨n, hn, hopens⟩
    rw [not_isDirective_of_prosaic hprose] at this
    cases this
  · cases hc with
    | heading => exact (h '#' (head?_trim hi (by decide))).1 rfl
    | startButton | question => exact (h '[' (head?_trim hi (by decide))).2.1 rfl
    | bullet hm =>
      rcases hm with rfl | rfl
      · exact (h '*' (head?_trim hi (by decide))).2.2.1 rfl
      · exact (h '-' (head?_trim hi (by decide))).2.2.2 rfl

/-- Runs of lines of prose are paragraphs, and a vacant line separates them. -/
theorem reads_of_runs (h : Line.Runs ls rs)
    (hprose : ∀ l ∈ ls, l.isVacant = false → Prosaic l.text)
    (hmark : ∀ r ∈ rs, ∀ l ∈ r.head?, Unmarked l.text)
    (hfeeds : ∀ r ∈ rs, r.IsChain fun m _ => m.ending = .lineFeed) :
    Reads ls ((rs.map Prose.ofLines).map .paragraph) [] := by
  induction h with
  | nil => exact .stop rfl
  | vacant hl _ ih =>
    exact .vacant hl (ih (fun l hl => hprose l (List.mem_cons_of_mem _ hl)) hmark hfeeds)
  | @run ms ls rs hne hms hls _ ih =>
    obtain ⟨hfirst, hmarks⟩ := List.forall_mem_cons.mp hmark
    obtain ⟨hchain, hchains⟩ := List.forall_mem_cons.mp hfeeds
    obtain ⟨m, ms, rfl⟩ := List.exists_cons_of_ne_nil hne
    have hinside : ∀ k ∈ m :: ms, Prosaic k.text := fun k hk =>
      hprose k (List.mem_append_left _ hk) (hms k hk)
    have hend : ∀ l ∈ ls.head?, ¬ Prosaic l.text := fun l hl hl' => by
      have := (begins_of_prosaic hl').1
      simp [hls l hl] at this
    have hspans := Spans.paragraph (hfirst m rfl) hinside
    rw [← Prose.ofLines_eq hchain, String.ofList_toList] at hspans
    exact .plain hspans hend
      (ih (fun l hl => hprose l (List.mem_append_right _ hl)) hmarks hchains)

end Block

/-! ## Texts of prose -/

namespace Document

variable {ls ms : List Line} {rs : List (List Line)} {s : List Char} {t : String}

/-- A line that looks like an entry of front matter: a name at its very start, a colon, and a value
that is not blank. -/
def EntryLike (s : List Char) : Prop :=
  ∃ k v, k ≠ [] ∧ (∀ c ∈ k, isNameChar c = true) ∧ s = k ++ ':' :: v ∧ trim v ≠ []

theorem entryLike_of_entryText {e : String × String} (h : entryText s = .ok e []) :
    EntryLike s := by
  unfold entryText at h
  simp only [bind_eq_ok, takeWhile1_iff, mark_iff, spaces_iff, restTrimmed_eq_ok] at h
  obtain ⟨k, _, ⟨hne, rfl, hall, -⟩, _, _, rfl, _, u, ⟨g, -, rfl, -⟩, _, _, ⟨-, hu, -⟩, -⟩ := h
  refine ⟨k, g ++ u, hne, hall, rfl, fun hnil => hu ?_⟩
  exact trim_eq_nil_iff.mpr fun c hc => trim_eq_nil_iff.mp hnil c (List.mem_append_right g hc)

/-- Lines are no front matter if their first run neither starts with a hyphen nor consists of
entries. -/
theorem unheaded_of_runs (h : Line.Runs ls rs)
    (hfirst : ∀ r ∈ rs.head?, (∀ l ∈ r.head?, l.text.head? ≠ some '-') ∧
      ∃ l ∈ r, ¬ EntryLike l.text) : Unheaded (ls.dropWhile Line.isVacant) := by
  induction h with
  | nil => exact unheaded_nil
  | vacant hl _ ih =>
    rw [List.dropWhile_cons_of_pos hl]
    exact ih hfirst
  | @run ms ls rs hne hms hls _ _ =>
    obtain ⟨hdash, l, hl, hlike⟩ := hfirst ms rfl
    obtain ⟨m, ms, rfl⟩ := List.exists_cons_of_ne_nil hne
    rw [List.cons_append, List.dropWhile_cons_of_neg (by simp [hms m List.mem_cons_self]),
      ← List.cons_append]
    constructor
    · intro k hk hfence
      obtain rfl : m = k := by simpa using hk
      obtain ⟨p, -, htext⟩ := hfence
      exact hdash m rfl (by simp [htext])
    · rintro es r ⟨-, ks, hks, hes, hr⟩
      have hentry := forall_of_forall₂ (P := fun k : Line => EntryLike k.text) hes
        entryLike_of_entryText
      have hrun : m :: ms <+: ks := by
        rcases List.append_eq_append_iff.mp hks with ⟨us, rfl, -⟩ | ⟨us, hus, rfl⟩
        · exact List.prefix_append _ _
        · cases us with
          | nil => exact ⟨[], by rw [List.append_nil, hus, List.append_nil]⟩
          | cons u us =>
            have hvacant := hr u rfl
            rw [hms u (by simp [hus])] at hvacant
            cases hvacant
      exact hlike (hentry l (hrun.subset hl))

/-- A text of prose: its lines are vacant or hold more than blanks, and none is a directive. No run
starts with the sign of another kind of block, and the first is no front matter. -/
structure Plain (t : String) : Prop where
  not_return : '\r' ∉ t.toList
  blank : ∀ l ∈ Line.split t.toList, l.isVacant = true ∨ trim l.text ≠ []
  not_directive : ∀ l ∈ Line.split t.toList, Directive.isDirective l.text = false
  unmarked : ∀ r ∈ Line.runs (Line.split t.toList), ∀ l ∈ r.head?, ∀ c ∈ (trim l.text).head?,
    c ≠ '#' ∧ c ≠ '[' ∧ c ≠ '*' ∧ c ≠ '-'
  unheaded : ∀ r ∈ (Line.runs (Line.split t.toList)).head?, ∃ l ∈ r, ¬ EntryLike l.text

/-- The lines of a text of prose that are not vacant are lines of prose. -/
theorem Plain.prosaic (h : Plain t) : ∀ l ∈ Line.split t.toList, l.isVacant = false →
    Block.Prosaic l.text := by
  intro l hl hv
  have hne : trim l.text ≠ [] := (h.blank l hl).resolve_left (by simp [hv])
  refine ⟨(Line.not_return_of_split h.not_return l hl).1, ?_⟩
  simp [Prose.isProse, h.not_directive l hl, hne]

/-- The runs of a text of prose are made of its lines, and all of them are lines of prose. -/
theorem Plain.mem_run (h : Plain t) : ∀ r ∈ Line.runs (Line.split t.toList), ∀ m ∈ r,
    m ∈ Line.split t.toList ∧ Block.Prosaic m.text := by
  intro r hr m hm
  have hmem := List.mem_flatten_of_mem hr hm
  rw [(Line.runs_spec _).flatten, List.mem_filter, Bool.not_eq_true'] at hmem
  exact ⟨hmem.1, h.prosaic m hmem.1 hmem.2⟩

theorem Plain.feeds (h : Plain t) : ∀ r ∈ Line.runs (Line.split t.toList),
    r.IsChain fun m _ => m.ending = .lineFeed := fun r hr =>
  List.IsChain.infix (Line.feeds_of_split h.not_return) ((Line.runs_spec _).part r hr)

/-- A text of prose has no front matter: no fence stands before its first line, and its first run
has a line that is no entry. -/
theorem Plain.front (h : Plain t) : Front ((Line.split t.toList).dropWhile Line.isVacant) []
    ((Line.split t.toList).dropWhile Line.isVacant) := by
  have hdash : ∀ r ∈ Line.runs (Line.split t.toList), ∀ l ∈ r.head?, l.text.head? ≠ some '-' := by
    intro r hr l hl hhead
    obtain ⟨u, hu⟩ := List.head?_eq_some_iff.mp hhead
    have hinitial : initial l.text = some '-' :=
      initial_eq_some.mpr ⟨[], u, spaces_nil, by decide, hu⟩
    exact (h.unmarked r hr l hl _ (head?_trim hinitial (by decide))).2.2.2 rfl
  have htop := unheaded_of_runs (Line.runs_spec _) fun r hr =>
    ⟨hdash r (List.mem_of_mem_head? hr), h.unheaded r hr⟩
  exact htop.front

/-- The paragraphs that are read in a text of prose. -/
theorem Plain.reads (h : Plain t) : Block.Reads (Line.split t.toList)
    (((Line.runs (Line.split t.toList)).map Prose.ofLines).map .paragraph) [] :=
  Block.reads_of_runs (Line.runs_spec _) h.prosaic
    (fun r hr l hl => Block.unmarked_of_trim (h.mem_run r hr l (List.mem_of_mem_head? hl)).2
      (h.unmarked r hr l hl)) h.feeds

/-- **Prose is split at vacant lines and nothing else.** A text of prose is read without front
matter as one paragraph for each run of lines that are not vacant, the trimmed lines of the run
with line feeds between them. The lines of the paragraphs, one paragraph after the other, are the
lines of the text that are not vacant: none is lost, said twice or moved. -/
theorem paragraphs_of_plain (h : Plain t) : ∃ ps : List String,
    ofText? t = .ok ⟨[], ps.map .paragraph⟩ ∧
      ps = (Line.runs (Line.split t.toList)).map Prose.ofLines ∧
      (ps.flatMap fun p => (Line.split p.toList).map Line.text) =
        ((Line.split t.toList).filter (!·.isVacant)).map fun l => trim l.text := by
  refine ⟨_, ofText?_eq_ok.mpr ⟨_, h.front, Block.reads_dropWhile.mpr h.reads⟩, rfl, ?_⟩
  have hlines : ∀ r ∈ Line.runs (Line.split t.toList),
      (Line.split (Prose.ofLines r).toList).map Line.text = r.map fun l => trim l.text :=
    fun r hr => Prose.split_ofLines (fun m hm => Line.split_text (h.mem_run r hr m hm).1)
      (fun m hm => (h.mem_run r hr m hm).2) (h.feeds r hr)
  rw [List.flatMap_map, List.flatMap_congr hlines, ← (Line.runs_spec _).flatten, List.map_flatten,
    List.flatMap_def]

/-- A paragraph of two lines, of which the first looks like front matter, and one of a line that
looks almost like a directive. -/
def plainText : String := "a: b\n\tc \n\n \t\n$IFF\n"

theorem plain_plainText : Plain plainText := by
  have hlines : Line.split plainText.toList = [⟨"a: b".toList, .lineFeed⟩,
      ⟨"\tc ".toList, .lineFeed⟩, ⟨[], .lineFeed⟩, ⟨" \t".toList, .lineFeed⟩,
      ⟨"$IFF".toList, .lineFeed⟩] := by decide
  have hruns : Line.runs (Line.split plainText.toList) =
      [[⟨"a: b".toList, .lineFeed⟩, ⟨"\tc ".toList, .lineFeed⟩],
        [⟨"$IFF".toList, .lineFeed⟩]] := by
    rw [hlines]
    decide
  constructor
  · decide
  · rw [hlines]
    decide
  · rw [hlines]
    decide
  · rw [hruns]
    intro r hr l hl c hc
    rcases List.mem_pair.mp hr with rfl | rfl <;> cases hl <;> cases hc <;> decide
  · rw [hruns]
    rintro r hr
    cases hr
    refine ⟨⟨"\tc ".toList, .lineFeed⟩, by simp, ?_⟩
    rintro ⟨k, v, hne, hk, htext, -⟩
    obtain ⟨c, k, rfl⟩ := List.exists_cons_of_ne_nil hne
    have hfirst : some '\t' = some c := congrArg List.head? htext
    cases hfirst
    exact absurd (hk '\t' List.mem_cons_self) (by decide)

theorem paragraphs_of_plainText : Plain plainText ∧
    ofText? plainText = .ok ⟨[], [.paragraph "a: b\nc", .paragraph "$IFF"]⟩ := by
  obtain ⟨ps, hread, hps, -⟩ := paragraphs_of_plain plain_plainText
  have heval : ps = ["a: b\nc", "$IFF"] := by
    rw [hps]
    decide
  rw [heval] at hread
  exact ⟨plain_plainText, hread⟩

end Document

end Interview
