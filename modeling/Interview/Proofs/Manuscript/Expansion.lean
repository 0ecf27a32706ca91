import Interview.Manuscript.Snippet
import Interview.Proofs.Document.Composition
import Interview.Proofs.Except
import Interview.Proofs.Text.Lines

/-!
# Snippets are put in line by line

A line that is a snippet tag gives way to the text of its snippet, and every other line stays as it
is, to the last character. What a line stands for depends on that line alone, so a text that ends in
a line feed is expanded apart from what follows it, and the first tag without a snippet is the only
thing that can go wrong.

* `Snippet.Tag`: how a tag is written.
* `Snippet.tag?_eq_some`: the lines that are read as tags.
* `Snippet.Stands`, `Snippet.expandLines_eq_ok`: what lines stand for.
* `Snippet.Lacks`, `Snippet.expandLines_eq_error_iff`: what can go wrong.
* `Snippet.Tagless.flatten`: a text whose snippets are put in has no tags if they have none.
* `Snippet.expand_line_by_line`: all of this for whole texts.
-/

namespace Interview

namespace Snippet

open Reader Text Word

/-! ## Tags -/

/-- The spellings of a tag with this name: two braces, the word `snippet:`, the name, two braces,
with spaces between them and before the first. -/
inductive Tag : List Char → String → Prop
  | intro {g h k n p : List Char} : Spaces g → Spaces h → Spaces k → n ≠ [] →
      (∀ c ∈ n, isNameChar c = true) → Spaces p →
      Tag (g ++ ("\x7b\x7b".toList ++ (h ++ ("snippet:".toList ++ (k ++ (n ++ (p ++
        "\x7d\x7d".toList))))))) (String.ofList n)

/-- The line is a tag with this name, blanks at its end left out. -/
def Tags (l : Line) (name : String) : Prop := Tag (trimEnd l.chars) name

/-- The line is a tag with a name that no snippet has. -/
def Lacks (snippets : Table) (l : Line) (name : String) : Prop :=
  Tags l name ∧ snippets[name]? = none

/-- No line of the text is a tag. -/
def Tagless (s : List Char) : Prop := ∀ l ∈ Line.split s, ∀ name, ¬ Tags l name

variable {snippets : Table} {node name : String} {s t r : List Char} {l m : Line}
  {ls ms : List Line} {e : ManuscriptFault}

/-- The reader of tags reads a tag and spaces after it, to the end of the text. -/
theorem tag_iff : tag s = .ok name r ↔ r = [] ∧ ∃ w q, s = w ++ q ∧ Tag w name ∧ Spaces q := by
  unfold tag
  simp only [bind_eq_ok, spaces_iff, word_iff, takeWhile1_iff, finished_eq_ok, pure_apply,
    Reply.ok.injEq]
  constructor
  · rintro ⟨_, _, ⟨g, hg, rfl, -⟩, _, _, rfl, _, _, ⟨h, hh, rfl, -⟩, _, _, rfl, _, _, ⟨k, hk, rfl, -⟩,
      n, _, ⟨hne, rfl, hn, -⟩, _, _, ⟨p, hp, rfl, -⟩, _, _, rfl, _, _, ⟨q, hq, rfl, -⟩, _, _,
      ⟨rfl, rfl⟩, rfl, rfl⟩
    exact ⟨rfl, _, q, by simp only [List.append_assoc, List.append_nil],
      .intro hg hh hk hne hn hp, hq⟩
  · rintro ⟨rfl, _, q, rfl, ⟨hg, hh, hk, hne, hn, hp⟩, hq⟩
    rename_i g h k n p
    have hname : Stops isSpace (n ++ (p ++ ("\x7d\x7d".toList ++ q))) := by
      obtain ⟨c, n, rfl⟩ := List.exists_cons_of_ne_nil hne
      refine stops_cons.mpr (Bool.eq_false_iff.mpr fun hc => ?_)
      simpa [isNameChar_of_isSpace hc] using hn c List.mem_cons_self
    have hclosing : Stops isNameChar (p ++ ("\x7d\x7d".toList ++ q)) := by
      cases p with
      | nil => exact stops_cons.mpr (by decide)
      | cons c p => exact stops_cons.mpr (isNameChar_of_isSpace (hp c List.mem_cons_self))
    have hopen : ∀ t, Stops isSpace ("\x7b\x7b".toList ++ t) := fun _ => stops_cons.mpr (by decide)
    have hword : ∀ t, Stops isSpace ("snippet:".toList ++ t) := fun _ => stops_cons.mpr (by decide)
    have hclose : ∀ t, Stops isSpace ("\x7d\x7d".toList ++ t) := fun _ => stops_cons.mpr (by decide)
    refine ⟨(), _, ⟨g, hg, ?_, hopen _⟩, (), _, rfl, (), _, ⟨h, hh, rfl, hword _⟩, (), _, rfl,
      (), _, ⟨k, hk, rfl, hname⟩, n, _, ⟨hne, rfl, hn, hclosing⟩, (), _, ⟨p, hp, rfl, hclose _⟩,
      (), q, rfl, (), [], ⟨q, hq, ?_, stops_nil⟩, (), [], ⟨rfl, rfl⟩, rfl, rfl⟩
    · simp only [List.append_assoc]
    · rw [List.append_nil]

theorem isBlank_of_mem_chars (b : LineBreak) : ∀ c ∈ b.chars, isBlank c = true := by
  cases b <;> exact List.all_eq_true.mp rfl

theorem trimEnd_chars (l : Line) : trimEnd l.chars = trimEnd l.text :=
  trimEnd_append (isBlank_of_mem_chars l.ending)

/-- The lines that are read as tags. -/
theorem tag?_eq_some : tag? l.text = some name ↔ Tags l name := by
  have hread : tag? l.text = some name ↔ ∃ r, tag (trimEnd l.chars) = .ok name r := by
    unfold tag?
    rw [trimEnd_chars]
    cases tag (trimEnd l.text) <;> simp
  rw [hread]
  constructor
  · rintro ⟨r, h⟩
    obtain ⟨-, w, q, hw, htag, hq⟩ := tag_iff.mp h
    -- A trimmed text does not end in spaces.
    have hnil : q = [] := by
      rcases List.eq_nil_or_concat q with rfl | ⟨q, c, rfl⟩
      · rfl
      · have hlast : isBlank c = false := isBlank_getLast?_trimEnd (s := l.chars) (by simp [hw])
        simp [isBlank_of_isSpace (hq c (by simp))] at hlast
    rw [hnil, List.append_nil] at hw
    unfold Tags
    rwa [hw]
  · exact fun h => ⟨[], tag_iff.mpr ⟨rfl, _, [], by simp, h, spaces_nil⟩⟩

theorem tag?_eq_none : tag? l.text = none ↔ ∀ name, ¬ Tags l name := by
  simp only [← tag?_eq_some, Option.eq_none_iff_forall_ne_some, ne_eq]

/-- A line is one tag at most. -/
theorem Tags.unique {n : String} (h : Tags l name) (h' : Tags l n) : n = name := by
  rw [← tag?_eq_some] at h h'
  exact Option.some.inj (h'.symm.trans h)

/-! ## What lines stand for -/

/-- What a line stands for, where every tag has a snippet. -/
inductive Stands (snippets : Table) : Line → List Char → Prop
  /-- A line that is no tag stands for itself, its break included. -/
  | itself {l : Line} : (∀ name, ¬ Tags l name) → Stands snippets l l.chars
  /-- A tag stands for its snippet without the blanks at the end, and a line feed. -/
  | snippet {l : Line} {name text : String} : Tags l name → snippets[name]? = some text →
      Stands snippets l (trimEnd text.toList ++ ['\n'])

theorem expandLine_eq_ok : expandLine snippets node l = .ok s ↔ Stands snippets l s := by
  unfold expandLine
  constructor
  · intro h
    split at h
    · rename_i hnone
      cases h
      exact .itself (tag?_eq_none.mp hnone)
    · rename_i name hname
      split at h
      · rename_i text htext
        cases h
        exact .snippet (tag?_eq_some.mp hname) htext
      · cases h
  · intro h
    cases h with
    | itself hnone => simp only [tag?_eq_none.mpr hnone]
    | snippet hname htext => simp only [tag?_eq_some.mpr hname, htext]

theorem expandLine_eq_error_iff : expandLine snippets node l = .error e ↔
    ∃ name, Lacks snippets l name ∧ e = .unknownSnippet node name := by
  constructor
  · intro h
    unfold expandLine at h
    split at h
    · cases h
    · rename_i name hname
      split at h
      · cases h
      · rename_i hnone
        cases h
        exact ⟨name, ⟨tag?_eq_some.mp hname, hnone⟩, rfl⟩
  · rintro ⟨name, ⟨hname, hnone⟩, rfl⟩
    simp only [expandLine, tag?_eq_some.mpr hname, hnone]

theorem exists_expandLine (h : ∀ name, ¬ Lacks snippets l name) :
    ∃ t, expandLine snippets node l = .ok t := by
  cases hl : expandLine snippets node l with
  | ok t => exact ⟨t, rfl⟩
  | error e =>
    obtain ⟨name, hlacks, -⟩ := expandLine_eq_error_iff.mp hl
    exact absurd hlacks (h name)

/-- **Line by line.** Lines stand for what each of them stands for, put together in order. -/
theorem expandLines_eq_ok : expandLines snippets node ls = .ok s ↔
    ∃ pieces, List.Forall₂ (Stands snippets) ls pieces ∧ s = pieces.flatten := by
  induction ls generalizing s with
  | nil => simp [expandLines, eq_comm]
  | cons l ls ih =>
    simp only [expandLines, Except.bind_bind_pure_eq_ok, expandLine_eq_ok, ih]
    constructor
    · rintro ⟨first, rest, hfirst, ⟨pieces, hpieces, rfl⟩, rfl⟩
      exact ⟨first :: pieces, .cons hfirst hpieces, rfl⟩
    · rintro ⟨pieces, hpieces, rfl⟩
      cases hpieces with
      | @cons _ first _ pieces hfirst hpieces =>
        exact ⟨first, _, hfirst, ⟨pieces, hpieces, rfl⟩, rfl⟩

/-- What goes wrong is the first tag without a snippet. -/
theorem expandLines_eq_error_iff : expandLines snippets node ls = .error e ↔
    ∃ before l after name, ls = before ++ l :: after ∧ Lacks snippets l name ∧
      (∀ m ∈ before, ∀ n, ¬ Lacks snippets m n) ∧ e = .unknownSnippet node name := by
  induction ls with
  | nil => simp [expandLines]
  | cons l ls ih =>
    rw [expandLines]
    by_cases hl : ∃ name, Lacks snippets l name
    · obtain ⟨name, hname⟩ := hl
      rw [expandLine_eq_error_iff.mpr ⟨name, hname, rfl⟩]
      constructor
      · intro h
        cases h
        exact ⟨[], l, ls, name, rfl, hname, by simp, rfl⟩
      · rintro ⟨before, m, after, n, heq, hn, hbefore, rfl⟩
        cases before with
        | nil =>
          cases heq
          rw [hname.1.unique hn.1]
          rfl
        | cons k before =>
          cases heq
          exact absurd hname (hbefore l List.mem_cons_self name)
    · rw [not_exists] at hl
      obtain ⟨first, hfirst⟩ : ∃ t, expandLine snippets node l = .ok t := exists_expandLine hl
      rw [hfirst]
      refine Except.bind_pure_eq_error.trans (ih.trans ?_)
      constructor
      · rintro ⟨before, m, after, n, rfl, hn, hbefore, rfl⟩
        exact ⟨l :: before, m, after, n, rfl, hn, List.forall_mem_cons.mpr ⟨hl, hbefore⟩, rfl⟩
      · rintro ⟨before, m, after, n, heq, hn, hbefore, rfl⟩
        cases before with
        | nil =>
          cases heq
          exact absurd hn (hl n)
        | cons k before =>
          cases heq
          exact ⟨before, m, after, n, rfl, hn, (List.forall_mem_cons.mp hbefore).2, rfl⟩

/-! ## Texts without tags -/

theorem Tag.ne_nil (h : Tag s name) : s ≠ [] := by
  cases h
  exact fun hnil => absurd (List.append_eq_nil_iff.mp hnil).2 (List.cons_ne_nil _ _)

theorem tagless_append (hs : ∀ c, s.getLast? = some c → c = '\n') :
    Tagless (s ++ t) ↔ Tagless s ∧ Tagless t := by
  unfold Tagless
  rw [Line.split_append hs]
  exact List.forall_mem_append

/-- Blanks at the end of a line make no difference to whether it is a tag. -/
theorem tags_append_blanks (hl : l.chars = s ++ t) (ht : ∀ c ∈ t, isBlank c = true) :
    Tags l name ↔ Tag (trimEnd s) name := by
  rw [Tags, hl, trimEnd_append ht]

/-- A snippet without tags has none when it is put in. -/
theorem Tagless.trimEnd_feed (h : Tagless t) : Tagless (trimEnd t ++ ['\n']) := by
  obtain ⟨s, x, hsx, hx, hs⟩ := Line.exists_last (trimEnd t)
  have hblanks : ∀ c ∈ (t.reverse.takeWhile isBlank).reverse, isBlank c = true :=
    fun c hc => List.mem_takeWhile_imp (List.mem_reverse.mp hc)
  have ht := trimEnd_append_takeWhile t
  rw [hsx, List.append_assoc] at ht
  rw [← ht, tagless_append hs] at h
  rw [hsx, List.append_assoc, tagless_append hs]
  refine ⟨h.1, fun m hm name htag => ?_⟩
  by_cases hne : x = []
  · subst hne
    obtain rfl : m = ⟨[], .lineFeed⟩ := by simpa [Line.split] using hm
    exact htag.ne_nil (by decide)
  · have hlast : x.getLast? ≠ some '\r' := by
      intro hreturn
      have hend : (trimEnd t).getLast? = some '\r' := by simp [hsx, hreturn]
      exact absurd (isBlank_getLast?_trimEnd hend) (by decide)
    have hsplit : Line.split (x ++ ['\n']) = [⟨x, .lineFeed⟩] :=
      Line.split_line (b := .lineFeed) (r := []) hx (by simp) fun _ => hlast
    obtain rfl : m = ⟨x, .lineFeed⟩ := by simpa [hsplit] using hm
    -- The snippet has a line with the same characters, up to blanks at its end.
    obtain ⟨l, ls, u, hl, hchars, hu⟩ :=
      Line.exists_first hx hne (t.reverse.takeWhile isBlank).reverse
    refine h.2 l (by simp [hl]) name ?_
    rw [tags_append_blanks hchars fun c hc => hblanks c (hu.subset hc)]
    exact (tags_append_blanks (t := ['\n']) rfl (List.all_eq_true.mp rfl)).mp htag

/-- What a line with a break stands for ends in a line feed. -/
theorem Stands.getLast? (h : Stands snippets l s) (hl : l.ending ≠ .none) :
    s.getLast? = some '\n' := by
  cases h with
  | itself _ => exact Line.getLast?_chars hl
  | snippet _ _ => simp

/-- If the snippets have no tags, the text that they are put into has none. -/
theorem Tagless.flatten
    (hsnippets : ∀ n text : String, snippets[n]? = some text → Tagless text.toList)
    (hls : ls <:+: Line.split s) {pieces : List (List Char)}
    (h : List.Forall₂ (Stands snippets) ls pieces) : Tagless pieces.flatten := by
  induction h with
  | nil => nofun
  | @cons l piece ls pieces hl hrest ih =>
    have hpiece : Tagless piece := by
      cases hl with
      | itself hnone =>
        unfold Tagless
        rw [Line.split_chars (hls.subset List.mem_cons_self)]
        simpa using hnone
      | snippet _ htext => exact (hsnippets _ _ htext).trimEnd_feed
    have htail := ih ((List.suffix_cons l ls).isInfix.trans hls)
    cases hrest with
    | nil => simpa using hpiece
    | @cons m _ ls _ _ _ =>
      obtain ⟨u, v, huv⟩ := hls
      have hbreak : l.ending ≠ .none :=
        Line.split_ending (u := u) (m := m) (v := ls ++ v) (by simpa using huv.symm)
      have hfeed : ∀ c, piece.getLast? = some c → c = '\n' := by
        intro c hc
        rw [hl.getLast? hbreak] at hc
        exact (Option.some.inj hc).symm
      exact (tagless_append hfeed).mpr ⟨hpiece, htail⟩

/-- Lines without tags stand for themselves. -/
theorem stands_of_tagless (h : ∀ l ∈ ls, ∀ name, ¬ Tags l name) :
    List.Forall₂ (Stands snippets) ls (ls.map Line.chars) := by
  rw [List.forall₂_map_right_iff, List.forall₂_same]
  exact fun l hl => .itself (h l hl)

/-! ## Whole texts -/

variable {source : Source} {text : String}

theorem expand_eq_ok : expand snippets source = .ok text ↔
    expandLines snippets source.name (Line.split source.text.toList) = .ok text.toList := by
  rw [expand, Except.bind_pure_eq_ok]
  constructor
  · rintro ⟨s, hs, rfl⟩
    rwa [String.toList_ofList]
  · exact fun h => ⟨_, h, String.ofList_toList.symm⟩

theorem expand_eq_error_iff : expand snippets source = .error e ↔
    expandLines snippets source.name (Line.split source.text.toList) = .error e :=
  Except.bind_pure_eq_error

/-- A text that ends in a line feed is expanded apart from what follows it. -/
theorem expand_append {a b : String} (ha : a.toList.getLast? = some '\n') :
    expand snippets ⟨node, a ++ b⟩ = (do
      let first ← expand snippets ⟨node, a⟩
      let rest ← expand snippets ⟨node, b⟩
      return first ++ rest) := by
  have hfeed : ∀ c, a.toList.getLast? = some c → c = '\n' := by
    intro c hc
    rw [ha] at hc
    exact (Option.some.inj hc).symm
  simp only [expand, String.toList_append, Line.split_append hfeed, expandLines_append]
  cases expandLines snippets node (Line.split a.toList) with
  | error e => rfl
  | ok s =>
    cases expandLines snippets node (Line.split b.toList) with
    | error e => rfl
    | ok t => simp [bind, Except.bind, pure, Except.pure]

/-- A text without tags stays as it is. -/
theorem expand_of_tagless (h : Tagless source.text.toList) :
    expand snippets source = .ok source.text := by
  refine expand_eq_ok.mpr (expandLines_eq_ok.mpr ⟨_, stands_of_tagless h, ?_⟩)
  rw [← List.flatMap_def]
  exact (Line.join_split _).symm

/-- **Snippets are put in line by line.** It fails exactly if some line is a tag without a snippet,
and then on account of the first one. Otherwise the text is what its lines stand for, in order: a
line that is no tag stands for itself, with its own break, and a tag for the text of its snippet
without the blanks at the end, and a line feed. So a text that ends in a line feed is expanded apart
from what follows it, and a text without tags stays as it is. If no snippet has a tag in it,
expanding twice is expanding once. -/
theorem expand_line_by_line (snippets : Table) :
    (∀ source, (∃ e, expand snippets source = .error e) ↔
      ∃ l ∈ Line.split source.text.toList, ∃ name, Lacks snippets l name) ∧
    (∀ source e, expand snippets source = .error e ↔
      ∃ before l after name, Line.split source.text.toList = before ++ l :: after ∧
        Lacks snippets l name ∧ (∀ m ∈ before, ∀ n, ¬ Lacks snippets m n) ∧
        e = .unknownSnippet source.name name) ∧
    (∀ source text, expand snippets source = .ok text ↔
      ∃ pieces, List.Forall₂ (Stands snippets) (Line.split source.text.toList) pieces ∧
        text.toList = pieces.flatten) ∧
    (∀ (node a b : String), a.toList.getLast? = some '\n' →
      expand snippets ⟨node, a ++ b⟩ = (do
        let first ← expand snippets ⟨node, a⟩
        let rest ← expand snippets ⟨node, b⟩
        return first ++ rest)) ∧
    (∀ source, Tagless source.text.toList → expand snippets source = .ok source.text) ∧
    ((∀ n text : String, snippets[n]? = some text → Tagless text.toList) → ∀ source,
      (do
        let text ← expand snippets source
        expand snippets { source with text }) = expand snippets source) := by
  refine ⟨fun source => ?_, fun source e => expand_eq_error_iff.trans expandLines_eq_error_iff,
    fun source text => expand_eq_ok.trans expandLines_eq_ok, fun _ _ _ => expand_append,
    fun _ => expand_of_tagless, fun hsnippets source => ?_⟩
  · constructor
    · rintro ⟨e, he⟩
      obtain ⟨before, l, after, name, hsplit, hl, -⟩ :=
        expandLines_eq_error_iff.mp (expand_eq_error_iff.mp he)
      exact ⟨l, by simp [hsplit], name, hl⟩
    · rintro ⟨l, hl, name, hlacks⟩
      cases hexpand : expand snippets source with
      | error e => exact ⟨e, rfl⟩
      | ok text =>
        -- Where every line stands for something, no tag is without a snippet.
        obtain ⟨pieces, hpieces, -⟩ := expandLines_eq_ok.mp (expand_eq_ok.mp hexpand)
        have hstands := forall_of_forall₂ (P := fun l => ∃ t, Stands snippets l t) hpieces
          fun {_ t} h => ⟨t, h⟩
        obtain ⟨t, ht⟩ := hstands l hl
        have hok : expandLine _ source.name _ = .ok _ := expandLine_eq_ok.mpr ht
        rw [expandLine_eq_error_iff.mpr ⟨name, hlacks, rfl⟩] at hok
        cases hok
  · cases hexpand : expand snippets source with
    | error e => rfl
    | ok text =>
      obtain ⟨pieces, hpieces, htext⟩ := expandLines_eq_ok.mp (expand_eq_ok.mp hexpand)
      have htagless : Tagless text.toList := by
        rw [htext]
        exact Tagless.flatten hsnippets List.infix_rfl hpieces
      exact expand_of_tagless htagless

/-- One snippet. -/
def footnotes : Table := (∅ : Table).insert "foot" "Bye.\n"

/-- A tag with a space and a break of two characters after it. -/
def heading : String := "\x7b\x7bsnippet: foot\x7d\x7d \r\n"

/-- A line that only mentions a tag, and a tag without a break. -/
def body : String := "see \x7b\x7bsnippet: foot\x7d\x7d\r\n\t\x7b\x7b snippet:foot \x7d\x7d"

/-- The tag is put in apart from what follows it, expanding again changes nothing, and without the
snippet there is a fault. -/
theorem expand_line_by_line_footnotes :
    heading.toList.getLast? = some '\n' ∧
      (∀ n text : String, footnotes[n]? = some text → Tagless text.toList) ∧
      expand footnotes ⟨"cover", heading ++ body⟩ = (do
        let first ← expand footnotes ⟨"cover", heading⟩
        let rest ← expand footnotes ⟨"cover", body⟩
        return first ++ rest) ∧
      (do
        let text ← expand footnotes ⟨"cover", body⟩
        expand footnotes ⟨"cover", text⟩) = expand footnotes ⟨"cover", body⟩ ∧
      ∃ e, expand ∅ ⟨"cover", body⟩ = .error e := by
  have hfeed : heading.toList.getLast? = some '\n' := by decide +kernel
  have htagless : Tagless "Bye.\n".toList := by
    have hnone : ∀ l ∈ Line.split "Bye.\n".toList, tag? l.text = none := by decide +kernel
    exact fun l hl => tag?_eq_none.mp (hnone l hl)
  have hsnippets : ∀ n text : String, footnotes[n]? = some text → Tagless text.toList := by
    intro n text h
    simp only [footnotes, Std.ExtTreeMap.getElem?_insert, Std.ExtTreeMap.getElem?_empty] at h
    split at h
    · cases h
      exact htagless
    · cases h
  have hsplit : ∃ l ∈ Line.split body.toList, tag? l.text = some "foot" := by decide +kernel
  obtain ⟨l, hl, hname⟩ := hsplit
  have hlacks : Lacks ∅ l "foot" := ⟨tag?_eq_some.mp hname, Std.ExtTreeMap.getElem?_empty⟩
  obtain ⟨-, -, -, happend, -, htwice⟩ := expand_line_by_line footnotes
  exact ⟨hfeed, hsnippets, happend _ _ _ hfeed, htwice hsnippets _,
    ((expand_line_by_line ∅).1 _).mpr ⟨l, hl, "foot", hlacks⟩⟩

end Snippet

end Interview
