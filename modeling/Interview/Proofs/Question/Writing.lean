import Interview.Proofs.Block.Commitment
import Interview.Proofs.Document.Composition
import Interview.Proofs.Document.Form
import Interview.Proofs.Except
import Interview.Typing

/-!
# Writing questions

A question can be written with any spaces around the parts of its tag and of its bullets.
`Tag.Written` and `Tag.WrittenChoice` hold of all the ways; each is read as the question it was
written for, and the typed question has the last option of every key that its kind asks for.

* `Tag.tag_of_written`, `Tag.choice_of_written`: the tag and its bullets.
* `QuestionTag.option?_eq_iff`: which option of a key counts.
* `QuestionTag.reads_back`: what is read of a question, and what it becomes.
-/

namespace Interview

open Reader Text Word

namespace Tag

variable {a b c d e g r s w : List Char} {os : List (String × String)} {q : QuestionTag}

/-! ## Ways to write a question -/

/-- The ways to write some options one after the other, up to the bracket: a comma, a key, a colon
and a value each. -/
inductive WrittenOptions : List Char → List (String × String) → Prop
  | nil : WrittenOptions [] []
  | cons {b c d e w : List Char} {k v : String} {os : List (String × String)} : Spaces b →
      Spaces c → Spaces d → Spaces e → WrittenOptions w os →
      WrittenOptions (',' :: (b ++ (k.toList ++ (c ++ ':' :: (d ++ (v.toList ++ (e ++ w)))))))
        ((k, v) :: os)

/-- The ways to write the tag of a question on a line. -/
def Written (s : List Char) (q : QuestionTag) : Prop :=
  ∃ a b e w g, Spaces a ∧ Spaces b ∧ Spaces e ∧ Spaces g ∧ WrittenOptions w q.options ∧
    s = a ++ '[' :: (q.kind.keyword.toList ++ ':' :: (b ++ (q.name.toList ++
      (e ++ (w ++ ']' :: g)))))

/-- The ways to write a choice on a line. -/
def WrittenChoice (s : List Char) (x : String × String) : Prop :=
  ∃ a m b d e, Spaces a ∧ Bullet.Mark m ∧ Spaces b ∧ Spaces d ∧ Spaces e ∧
    s = a ++ m :: (b ++ (x.1.toList ++ ':' :: (d ++ (x.2.toList ++ e))))

/-- A value of an option as authors give it: not empty, with no blank at its ends. -/
def ValueTrimmed (o : String × String) : Prop := trim o.2.toList = o.2.toList ∧ o.2.toList ≠ []

/-! ## Reading the tag -/

/-- A text that is trimmed does not start with a space. -/
theorem stops_of_trimmed (h : trim s = s) (hne : s ≠ []) : Stops isSpace (s ++ r) := by
  obtain ⟨c, t, rfl⟩ := List.exists_cons_of_ne_nil hne
  have hblank : isBlank c = false := isBlank_head?_trim (by rw [h]; rfl)
  refine stops_cons.mpr (Bool.eq_false_iff.mpr fun hc => ?_)
  rw [isBlank_of_isSpace hc] at hblank
  cases hblank

/-- An identifier is read where spaces and a mark of a tag follow it. -/
theorem identifier_of_written {n : String} {m : Char} (hn : Identifier n.toList) (hc : Spaces c)
    (hm : extendsName m = false) : identifier (n.toList ++ (c ++ m :: r)) = .ok n (c ++ m :: r) := by
  have hstop : Stops extendsName (c ++ m :: r) :=
    stops_of_spaces (fun _ => extendsName_of_isSpace) hc (stops_cons.mpr hm)
  have := identifier_of_spelled hn (.inr hstop)
  rwa [String.ofList_toList] at this

/-- After the name of a tag, and after every option, stands a comma or the bracket. -/
theorem WrittenOptions.first (h : WrittenOptions w os) :
    ∃ m t, (m = ',' ∨ m = ']') ∧ w ++ ']' :: r = m :: t := by
  cases h with
  | nil => exact ⟨']', r, .inr rfl, rfl⟩
  | cons => exact ⟨',', _, .inl rfl, rfl⟩

/-- An option is read up to the comma or the bracket after it, the spaces before that included. -/
theorem option_of_written {k v : String} (ha : Spaces a) (hb : Spaces b) (hc : Spaces c)
    (hd : Spaces d) (he : Spaces e) (hk : OptionFormed (k, v)) (hv : ValueTrimmed (k, v))
    (hr : Stops isOptionChar r) :
    option (a ++ ',' :: (b ++ (k.toList ++ (c ++ ':' :: (d ++ (v.toList ++ (e ++ r))))))) =
      .ok (k, v) r := by
  have hchars : ∀ x ∈ v.toList ++ e, isOptionChar x = true := by
    intro x hx
    rcases List.mem_append.mp hx with hx | hx
    · have hnot : ∀ y ∈ [',', ']', '\n', '\r'], x ≠ y := fun y hy h => hk.value y hy (h ▸ hx)
      simpa [isOptionChar, and_assoc] using hnot
    · exact isOptionChar_of_isSpace (he x hx)
  unfold option
  simp only [bind_eq_ok, comma_iff, mark_iff, takeWhile1_iff, pure_apply, Reply.ok.injEq]
  refine ⟨(), _, ⟨a ++ ',' :: b, ⟨a, b, ha, hb, rfl⟩, by simp,
      hk.key.stops⟩,
    k, _, identifier_of_written hk.key hc (by decide), (), _,
    spaces_of_stops hc (stops_cons.mpr (by decide)), (), _, rfl, (), _,
    spaces_of_stops hd (stops_of_trimmed hv.1 hv.2), v.toList ++ e, r,
    ⟨by simp [hv.2], (List.append_assoc ..).symm, hchars, hr⟩, ?_, rfl⟩
  rw [trim_append_spaces he, hv.1, String.ofList_toList]

theorem option_fails_bracket (ha : Spaces a) : Fails option (a ++ ']' :: r) := by
  refine tentative_option.fails_iff.mpr fun o t h => ?_
  obtain ⟨_, u, hc, -⟩ := bind_eq_ok.mp h
  obtain ⟨_, ⟨x, y, hx, -, rfl⟩, heq, -⟩ := comma_iff.mp hc
  have hbracket : (a ++ ']' :: r).dropWhile isSpace = ']' :: r :=
    dropWhile_spaces ha (stops_cons.mpr (by decide))
  have hcomma : (x ++ (',' :: y ++ u)).dropWhile isSpace = ',' :: y ++ u :=
    dropWhile_spaces hx (stops_cons.mpr (by decide))
  rw [heq, List.append_assoc, hcomma] at hbracket
  cases hbracket

/-- All options of a tag are read; after the last one no spaces are left before the bracket. -/
theorem options_of_written (h : WrittenOptions w os) (hos : ∀ o ∈ os, OptionFormed o)
    (hvs : ∀ o ∈ os, ValueTrimmed o) (ha : Spaces a) :
    ∃ p, Spaces p ∧ many option (a ++ (w ++ ']' :: r)) = .ok os (p ++ ']' :: r) := by
  induction h generalizing a with
  | nil =>
    exact ⟨a, ha, (many_eq_ok consumes_option).mpr (.inl ⟨rfl, rfl, option_fails_bracket ha⟩)⟩
  | @cons b c d e w k v os hb hc hd he hw ih =>
    obtain ⟨ho, hos⟩ := List.forall_mem_cons.mp hos
    obtain ⟨hv, hvs⟩ := List.forall_mem_cons.mp hvs
    obtain ⟨p, hp, hrest⟩ := ih hos hvs spaces_nil
    have hstop : Stops isOptionChar (w ++ ']' :: r) := by
      obtain ⟨m, t, rfl | rfl, hm⟩ := hw.first (r := r) <;> rw [hm] <;>
        exact stops_cons.mpr (by decide)
    have hfirst := option_of_written ha hb hc hd he ho hv hstop
    refine ⟨p, hp, (many_eq_ok consumes_option).mpr (.inr ⟨(k, v), os, _, rfl, ?_, hrest⟩)⟩
    simpa using hfirst

/-- However a tag is written, it is read as the question without its choices. -/
theorem tag_of_written (h : Written s q) (hq : q.Formed) (hvs : ∀ o ∈ q.options, ValueTrimmed o) :
    tag s = .ok { q with choices := [] } [] := by
  obtain ⟨a, b, e, w, g, ha, hb, he, hg, hw, rfl⟩ := h
  obtain ⟨p, hp, hoptions⟩ := options_of_written (r := g) hw hq.options hvs he
  have hname : identifier (q.name.toList ++ (e ++ (w ++ ']' :: g))) =
      .ok q.name (e ++ (w ++ ']' :: g)) := by
    obtain ⟨m, t, rfl | rfl, hm⟩ := hw.first (r := g) <;> rw [hm] <;>
      exact identifier_of_written hq.name he (by decide)
  unfold tag content
  simp only [bind_eq_ok, within_eq_ok, commit_eq_ok, mark_iff, finished_eq_ok, pure_apply,
    Reply.ok.injEq]
  exact ⟨(), _, spaces_of_stops ha (stops_cons.mpr (by decide)), (), _, rfl, q.kind, _,
    Construct.kind_keyword q.kind, (), _, rfl, (q.name, q.options), [],
    ⟨(), _, spaces_of_stops hb hq.name.stops, q.name, _, hname, q.options, _, hoptions,
      (), _, spaces_of_stops hp (stops_cons.mpr (by decide)), (), g, rfl, (), [],
      spaces_iff.mpr ⟨g, hg, by simp, stops_nil⟩, (), [], ⟨rfl, rfl⟩, rfl, rfl⟩, rfl, rfl⟩

/-! ## Reading the choices -/

theorem choice_of_written {x : String × String} (h : WrittenChoice s x) (hx : ChoiceFormed x) :
    choice s = .ok x [] := by
  obtain ⟨a, m, b, d, e, ha, hm, hb, hd, he, rfl⟩ := h
  have hlabel := hx.label
  have hreturn : '\r' ∉ x.2.toList ++ e := by
    rw [List.mem_append, not_or]
    exact ⟨hlabel.not_return, not_mem_of_spaces he⟩
  unfold choice
  simp only [bind_eq_ok, Bullet.bulletMark_iff, mark_iff, restTrimmed_eq_ok, pure_apply,
    Reply.ok.injEq]
  refine ⟨(), _, spaces_of_stops ha (stops_cons.mpr hm.not_space), (), _, ⟨m, hm, rfl⟩, (), _,
    spaces_of_stops hb hx.value.stops, x.1, _,
    identifier_of_written hx.value spaces_nil (by decide), (), _, rfl, (), _,
    spaces_of_stops hd (stops_of_trimmed hlabel.trimmed hlabel.nonempty), x.2, [],
    ⟨hreturn, ?_, ?_, rfl⟩, rfl, rfl⟩ <;> rw [trim_append_spaces he, hlabel.trimmed]
  · exact hlabel.nonempty
  · rw [String.ofList_toList]

/-- A line without a bullet mark is no choice. -/
theorem misses_choice (h : ∀ m, Bullet.Mark m → initial s ≠ some m) : Misses choice s := by
  refine tentative_choice.misses_iff.mpr fun x hx => ?_
  obtain ⟨m, hm, hi⟩ := initial_of_choice hx
  exact h m hm hi

end Tag

namespace QuestionTag

variable {q : QuestionTag} {l : Line} {ms rest : List Line}

/-! ## The block -/

/-- The lines of a question, however they are written, spell it. -/
theorem spans_of_written (hq : q.Formed) (hvs : ∀ o ∈ q.options, Tag.ValueTrimmed o)
    (hl : Tag.Written l.text q)
    (hms : List.Forall₂ (fun m x => Tag.WrittenChoice m.text x) ms q.choices) :
    Block.Spans (l :: ms) (.question q) := by
  have htag := Tag.tag_of_written hl hq hvs
  by_cases hk : q.kind = .choice
  · have hread : List.Forall₂ (fun m x => Tag.choice m.text = .ok x []) ms q.choices :=
      ((List.forall₂_and_left _ _).mpr ⟨hq.choices, hms.flip⟩).flip.imp
        fun _ _ hm => Tag.choice_of_written hm.2 hm.1
    exact .choice (q := { q with choices := [] }) htag hk hread (hq.kind.mpr hk)
  · have hnone : q.choices = [] := not_not.mp fun h => hk (hq.kind.mp h)
    have hsame : { q with choices := [] } = q := by rw [← hnone]
    rw [hnone] at hms
    cases hms
    rw [hsame] at htag
    exact .question htag hk

theorem mayEnd_of_initial
    (hrest : q.kind = .choice → ∀ m ∈ rest.head?, ∀ c, Bullet.Mark c → initial m.text ≠ some c) :
    Block.MayEnd (.question q) rest :=
  fun hk m hm => Tag.misses_choice (hrest hk m hm)

/-- A line that starts with a tag starts no front matter. -/
theorem unheaded_of_written (hl : Tag.Written l.text q) : Document.Unheaded (l :: ms) := by
  obtain ⟨a, b, e, w, g, ha, -, -, -, -, htext⟩ := hl
  refine Document.unheaded_of_first fun c hc => ?_
  rw [htext] at hc
  cases a with
  | nil =>
    obtain rfl : '[' = c := by simpa using hc
    decide
  | cons d a =>
    obtain rfl : d = c := by simpa using hc
    exact isNameChar_of_isSpace (ha d List.mem_cons_self)

/-! ## The typed question -/

/-- The value `x` is the last of those that the options give a key, or there is none. -/
def LastOption (os : List (String × String)) (key : String) : Option String → Prop
  | some v => ∃ us vs, os = us ++ (key, v) :: vs ∧ ∀ o ∈ vs, o.1 ≠ key
  | none => ∀ o ∈ os, o.1 ≠ key

theorem option?_eq_iff {key : String} {x : Option String} :
    q.option? key = x ↔ LastOption q.options key x := by
  unfold option?
  cases x with
  | none => simp [LastOption]
  | some v =>
    simp only [LastOption, Option.map_eq_some_iff, List.find?_eq_some_iff_append, beq_iff_eq]
    constructor
    · rintro ⟨⟨k, v⟩, ⟨rfl, us, vs, hos, hus⟩, rfl⟩
      refine ⟨vs.reverse, us.reverse, ?_, by simpa using hus⟩
      rw [← List.reverse_reverse q.options, hos]
      simp
    · rintro ⟨us, vs, hos, hvs⟩
      refine ⟨(key, v), ⟨rfl, vs.reverse, us.reverse, ?_, by simpa using hvs⟩, rfl⟩
      rw [hos]
      simp

/-- The form of answer that a question asks for: the options that its kind needs are the last of
their keys, and the table of a country question is one of the host's. -/
inductive Asks (r : Registry) (q : QuestionTag) : AnswerForm → Prop
  | choice : q.kind = .choice → Asks r q (.choice q.choices)
  | text : q.kind = .text → Asks r q .text
  | salary : q.kind = .salary → Asks r q .salary
  | date {earliest latest : Option String} : q.kind = .date →
      LastOption q.options "from" earliest → LastOption q.options "to" latest →
      Asks r q (.date earliest latest)
  | country {table : String} {countries : CountryTable} : q.kind = .country →
      LastOption q.options "countries" (some table) → r.countryTables[table]? = some countries →
      Asks r q (.country countries)

theorem countries_eq_ok {node : String} {r : Registry} {cs : CountryTable} :
    q.countries node r = .ok cs ↔
      ∃ t, LastOption q.options "countries" (some t) ∧ r.countryTables[t]? = some cs := by
  simp only [← option?_eq_iff]
  unfold countries
  cases q.option? "countries" with
  | none => simp
  | some t => cases ht : r.countryTables[t]? <;> simp [ht]

theorem asks_iff {node : String} {r : Registry} {form : AnswerForm} :
    AnswerForm.ofTag node r q = .ok form ↔ Asks r q form := by
  unfold AnswerForm.ofTag
  constructor
  · intro h
    cases hk : q.kind <;> rw [hk] at h
    case country =>
      cases hcs : q.countries node r with
      | error d =>
        rw [hcs] at h
        cases h
      | ok cs =>
        rw [hcs] at h
        cases h
        obtain ⟨t, ht, hcs⟩ := countries_eq_ok.mp hcs
        exact .country hk ht hcs
    all_goals cases h
    · exact .choice hk
    · exact .text hk
    · exact .salary hk
    · exact .date hk (option?_eq_iff.mp rfl) (option?_eq_iff.mp rfl)
  · intro h
    cases h with
    | choice hk | text hk | salary hk => rw [hk]
    | date hk hfrom hto => rw [hk, option?_eq_iff.mpr hfrom, option?_eq_iff.mpr hto]
    | country hk ht hcs =>
      rw [hk]
      simp only [countries_eq_ok.mpr ⟨_, ht, hcs⟩]
      rfl

/-- What the block of a question becomes. -/
theorem ofBlock_iff {node : String} {r : Registry} {e : Element} :
    Element.ofBlock node r (.question q) = .ok e ↔ ∃ x form,
      e = .question ⟨q.name, x, form⟩ ∧ LastOption q.options "alias" x ∧ Asks r q form := by
  have hform := @asks_iff q node r
  simp only [← hform, ← option?_eq_iff]
  rw [Element.ofBlock, Except.bind_pure_eq_ok]
  simp only [Question.ofTag, Except.bind_pure_eq_ok]
  constructor
  · rintro ⟨_, ⟨form, h, rfl⟩, rfl⟩
    exact ⟨_, form, rfl, rfl, h⟩
  · rintro ⟨_, form, rfl, rfl, h⟩
    exact ⟨_, ⟨form, h, rfl⟩, rfl⟩

/-- **Questions read back.** However a question is written, with any spaces around the parts of its
tag and of its bullets, its lines are read as that one question: of its kind, with its name, and
with its options and choices in order. What follows is read as if it stood alone, unless a bullet
follows the choices. The typed question has the last option of every key that its kind uses. -/
theorem reads_back (hq : q.Formed) (hvs : ∀ o ∈ q.options, Tag.ValueTrimmed o)
    (hl : Tag.Written l.text q)
    (hms : List.Forall₂ (fun m x => Tag.WrittenChoice m.text x) ms q.choices)
    (hrest : q.kind = .choice → ∀ m ∈ rest.head?, ∀ c, Bullet.Mark c → initial m.text ≠ some c) :
    (∀ blocks, Block.single blocks (l :: (ms ++ rest)) = .ok (.question q) rest) ∧
      (∀ t d, Line.split t.toList = l :: (ms ++ rest) → (Document.ofText? t = .ok d ↔
        ∃ bs, d = ⟨[], .question q :: bs⟩ ∧ Block.list rest = .ok bs [])) ∧
      ∀ node r e, Element.ofBlock node r (.question q) = .ok e ↔ ∃ x form,
        e = .question ⟨q.name, x, form⟩ ∧ LastOption q.options "alias" x ∧ Asks r q form := by
  have hspans := spans_of_written hq hvs hl hms
  have hend := mayEnd_of_initial hrest
  refine ⟨fun blocks => Block.single_of_spans hspans hend, fun t d ht => ?_,
    fun _ _ _ => ofBlock_iff⟩
  have htop : Document.Unheaded (l :: (ms ++ rest)) := unheaded_of_written hl
  have hfirst : (l :: (ms ++ rest)).dropWhile Line.isVacant = l :: (ms ++ rest) := by
    obtain ⟨k, ks, hks, hk⟩ := hspans.first
    cases hks
    rw [List.dropWhile_cons_of_neg (by simp [hk.1])]
  have hblocks : ∀ {bs}, Block.Reads (l :: (ms ++ rest)) bs [] ↔
      ∃ cs, bs = .question q :: cs ∧ Block.Reads rest cs [] := Block.reads_plain_iff hspans hend
  rw [Document.ofText?_eq_ok, ht, hfirst]
  simp only [htop.front_iff, Block.list_iff]
  constructor
  · rintro ⟨_, ⟨hnone, rfl⟩, hbody⟩
    obtain ⟨cs, hcs, hrest⟩ := hblocks.mp hbody
    exact ⟨cs, by rw [← hnone, ← hcs], hrest⟩
  · rintro ⟨bs, rfl, hbs⟩
    exact ⟨_, ⟨rfl, rfl⟩, hblocks.mpr ⟨bs, rfl, hbs⟩⟩

/-- A choice with two options of one key. -/
def pathTag : QuestionTag :=
  ⟨.choice, "path?", [("alias", "x y"), ("alias", "z")], [("north", "Go: north")]⟩

theorem formed_pathTag : pathTag.Formed where
  name := ⟨"path".toList, ['?'], rfl, by simp, List.all_eq_true.mp (by decide), .inr rfl⟩
  options := by
    have hkey : Identifier "alias".toList :=
      ⟨"alias".toList, [], by simp, by simp, List.all_eq_true.mp (by decide), .inl rfl⟩
    intro o ho
    simp only [pathTag, List.mem_cons, List.not_mem_nil, or_false] at ho
    rcases ho with rfl | rfl
    · exact ⟨hkey, by simp⟩
    · exact ⟨hkey, by simp⟩
  kind := by simp [pathTag]
  choices := by
    intro x hx
    simp only [pathTag, List.mem_singleton] at hx
    subst hx
    exact ⟨⟨"north".toList, [], by simp, by simp, List.all_eq_true.mp (by decide), .inl rfl⟩,
      ⟨by decide, by simp, by simp [Prose.isBreakChar]⟩⟩

/-- The line of its tag, and of its bullet. -/
def pathLines : List Line :=
  [⟨" [choice: path? , alias: x y ,alias : z]\t".toList, .lineFeed⟩,
    ⟨"-north: Go: north".toList, .lineFeed⟩]

theorem written_pathTag : Tag.Written pathLines[0].text pathTag ∧
    List.Forall₂ (fun m x => Tag.WrittenChoice m.text x) [pathLines[1]] pathTag.choices := by
  have hspace : Spaces [' '] := by simp [Spaces, isSpace]
  have htab : Spaces ['\t'] := by simp [Spaces, isSpace]
  constructor
  · exact ⟨[' '], [' '], [' '], _, ['\t'], hspace, hspace, hspace, htab,
      .cons hspace spaces_nil hspace hspace
        (.cons spaces_nil hspace hspace spaces_nil .nil), by decide⟩
  · exact .cons ⟨[], '-', [], [' '], [], spaces_nil, .inr rfl, spaces_nil, hspace, spaces_nil,
      by decide⟩ .nil

theorem reads_back_path : pathTag.Formed ∧
    Line.split " [choice: path? , alias: x y ,alias : z]\t\n-north: Go: north\n\n# b".toList =
      pathLines ++ [⟨[], .lineFeed⟩, ⟨"# b".toList, .none⟩] ∧
    Document.ofText? " [choice: path? , alias: x y ,alias : z]\t\n-north: Go: north\n\n# b" =
      .ok ⟨[], [.question pathTag, .heading "b"]⟩ ∧
    Element.ofBlock "n" .empty (.question pathTag) =
      .ok (.question ⟨"path?", some "z", .choice [("north", "Go: north")]⟩) := by
  obtain ⟨htag, hchoices⟩ := written_pathTag
  have hvalues : ∀ o ∈ pathTag.options, Tag.ValueTrimmed o := by
    intro o ho
    simp only [pathTag, List.mem_cons, List.not_mem_nil, or_false] at ho
    rcases ho with rfl | rfl
    · exact ⟨by decide, by decide⟩
    · exact ⟨by decide, by decide⟩
  have hsplit : Line.split
      " [choice: path? , alias: x y ,alias : z]\t\n-north: Go: north\n\n# b".toList =
        pathLines ++ [⟨[], .lineFeed⟩, ⟨"# b".toList, .none⟩] := by decide
  have hrest : Block.list [⟨[], .lineFeed⟩, ⟨"# b".toList, .none⟩] = .ok [.heading "b"] [] := by
    with_unfolding_all rfl
  have hlast : LastOption pathTag.options "alias" (some "z") :=
    ⟨[("alias", "x y")], [], rfl, nofun⟩
  have hvacant : ∀ m ∈ [(⟨[], .lineFeed⟩ : Line), ⟨"# b".toList, .none⟩].head?, ∀ c,
      Bullet.Mark c → initial m.text ≠ some c := by
    rintro m hm c -
    cases hm
    nofun
  obtain ⟨-, hread, htyped⟩ := reads_back formed_pathTag hvalues htag hchoices fun _ => hvacant
  exact ⟨formed_pathTag, hsplit, (hread _ _ hsplit).mpr ⟨_, rfl, hrest⟩,
    (htyped _ _ _).mpr ⟨_, _, rfl, hlast, .choice rfl⟩⟩

end QuestionTag

end Interview
