import Interview.Proofs.Document.Front

/-!
# Line breaks and spaces at the ends of lines

Neither the kind of the line breaks nor spaces at the ends of lines make a difference to what is
read, apart from the breaks inside a paragraph and the lines of a box of next steps. Two readings
are compared line by line: `Similar ls ms` relates the lines of the two texts, of which one may have
a vacant line more at its end.

* `Block.blur`: a block without what depends on line breaks and on spaces at the ends of lines.
* `Block.Reads.similar`: similar lines are read as the same blocks, when these are blurred.
* `Document.blurred_varied`: the same of texts and documents.
-/

namespace Interview

open Reader Text Word

/-- Each line is like the other. -/
def Line.Twin (l m : Line) : Prop := l.Like m ∧ m.Like l

theorem Line.Twin.symm {l m : Line} (h : l.Twin m) : m.Twin l := ⟨h.2, h.1⟩

theorem Line.Twin.isVacant_eq {l m : Line} (h : l.Twin m) : l.isVacant = m.isVacant := by
  rw [Bool.eq_iff_iff, isVacant_iff, isVacant_iff]
  exact h.1.alike.spaces_iff

/-- Lines that are twins one by one, but one of the two texts may have a vacant line more at its
end. -/
inductive Similar : List Line → List Line → Prop
  | nil : Similar [] []
  | left {l : Line} : l.isVacant = true → Similar [l] []
  | right {l : Line} : l.isVacant = true → Similar [] [l]
  | cons {l m : Line} {ls ms : List Line} : l.Twin m → Similar ls ms → Similar (l :: ls) (m :: ms)

namespace Similar

variable {ls ms us r : List Line}

theorem symm (h : Similar ls ms) : Similar ms ls := by
  induction h with
  | nil => exact .nil
  | left hl => exact .right hl
  | right hl => exact .left hl
  | cons htwin _ ih => exact .cons htwin.symm ih

theorem dropWhile (h : Similar ls ms) :
    Similar (ls.dropWhile Line.isVacant) (ms.dropWhile Line.isVacant) := by
  induction h with
  | nil => exact .nil
  | left hl | right hl =>
    rw [List.dropWhile_cons_of_pos hl]
    exact .nil
  | @cons l m ls ms htwin hrest ih =>
    have hvacant := htwin.isVacant_eq
    cases hl : l.isVacant with
    | true =>
      rw [List.dropWhile_cons_of_pos hl, List.dropWhile_cons_of_pos (hvacant ▸ hl)]
      exact ih
    | false =>
      rw [List.dropWhile_cons_of_neg (by simp [hl]),
        List.dropWhile_cons_of_neg (by simp [← hvacant, hl])]
      exact .cons htwin hrest

/-- A line that is not vacant has a twin. -/
theorem exists_cons {l : Line} (h : Similar (l :: ls) ms) (hl : l.isVacant = false) :
    ∃ m ks, ms = m :: ks ∧ l.Twin m ∧ Similar ls ks := by
  cases h with
  | left hvacant => simp [hl] at hvacant
  | cons htwin hrest => exact ⟨_, _, rfl, htwin, hrest⟩

/-- Lines of which the last is not vacant have twins. -/
theorem exists_append (h : Similar (us ++ r) ms) (hus : ∀ l ∈ us.getLast?, l.isVacant = false) :
    ∃ vs ks, ms = vs ++ ks ∧ List.Forall₂ Line.Twin us vs ∧ Similar r ks := by
  induction us generalizing ms with
  | nil => exact ⟨[], ms, rfl, .nil, h⟩
  | cons u us ih =>
    have hrest : ∀ l ∈ us.getLast?, l.isVacant = false := by
      intro l hl
      exact hus l (by simp [List.getLast?_cons, Option.mem_def.mp hl])
    generalize hws : u :: us ++ r = ws at h
    cases h with
    | nil | right _ => cases hws
    | left hvacant =>
      obtain ⟨rfl, hnil⟩ := List.cons.inj hws
      obtain ⟨rfl, rfl⟩ := List.append_eq_nil_iff.mp hnil
      simp [hus u (by simp)] at hvacant
    | cons htwin hsimilar =>
      obtain ⟨rfl, rfl⟩ := List.cons.inj hws
      obtain ⟨vs, ks, rfl, hvs, hks⟩ := ih hsimilar hrest
      exact ⟨_ :: vs, ks, rfl, .cons htwin hvs, hks⟩

theorem head (h : Similar ls ms) : Block.NextAlike ls ms ∨ Bullet.Ends ms := by
  cases h with
  | nil | left _ => exact .inr nofun
  | right hm =>
    right
    intro l hl
    cases hl
    exact .inl hm
  | @cons l m _ _ htwin _ =>
    left
    intro k hk
    cases hk
    exact ⟨l, rfl, htwin.1.alike⟩

theorem vacant_head (h : Similar ls ms) (hls : ∀ l ∈ ls.head?, l.isVacant = true) :
    ∀ m ∈ ms.head?, m.isVacant = true := by
  intro m hm
  cases h with
  | nil | left _ => cases hm
  | right hvacant =>
    cases hm
    exact hvacant
  | @cons l _ _ _ htwin _ =>
    cases hm
    rw [← htwin.isVacant_eq]
    exact hls l rfl

end Similar

/-! ## Blocks -/

namespace Block

variable {ls ms ks r : List Line} {b : Block} {bs : List Block}

mutual

/-- The block without the carriage returns of paragraphs and without the text of next steps. -/
def blur : Block → Block
  | .paragraph t => .paragraph (String.ofList (t.toList.filter (· != '\r')))
  | .nextSteps _ => .nextSteps ""
  | .conditional c bs es => .conditional c (blurAll bs) (blurAll es)
  | .heading t => .heading t
  | .question q => .question q
  | .startButton t => .startButton t
  | .rules bs => .rules bs

/-- Blocks without what `blur` leaves out. -/
def blurAll : List Block → List Block
  | [] => []
  | b :: bs => blur b :: blurAll bs

end

theorem filter_chars_eq {l m : Line} (h : l.Twin m) :
    l.ending.chars.filter (· != '\r') = m.ending.chars.filter (· != '\r') := by
  have hl := h.1.broken
  have hm := h.2.broken
  cases hending : l.ending <;> cases hending' : m.ending <;>
    simp [hending, hending', LineBreak.chars] at hl hm ⊢

theorem filter_joined_eq (h : List.Forall₂ Line.Twin ms ks) :
    (Prose.joined (ms.map fun m => (trim m.text, m.ending))).filter (· != '\r') =
      (Prose.joined (ks.map fun k => (trim k.text, k.ending))).filter (· != '\r') := by
  induction h with
  | nil => rfl
  | @cons l m ls ms htwin hrest ih =>
    cases hrest with
    | nil => simp [htwin.1.alike.trim_eq]
    | cons _ _ =>
      simp only [List.map_cons, Prose.joined_cons_cons, List.filter_append,
        htwin.1.alike.trim_eq, filter_chars_eq htwin] at ih ⊢
      rw [ih]

/-- Twin lines give a block the same text, when it is blurred. -/
theorem blur_told (h : List.Forall₂ Line.Twin ms ks) (b : Block) :
    blur (told ms b) = blur (told ks b) := by
  cases b with
  | paragraph t => simp [told, blur, filter_joined_eq h]
  | nextSteps t => simp [told, blur]
  | heading _ | question _ | startButton _ | rules _ | conditional _ _ _ => rfl

theorem not_isVacant_of_ended {l : Line} (h : Ended l.text) : l.isVacant = false :=
  Bool.eq_false_iff.mpr fun hv => h.not_spaces (Line.isVacant_iff.mp hv)

theorem Spans.similar (h : Spans ms b) (hend : MayEnd b ls) (hs : Similar (ms ++ ls) ks) :
    ∃ us vs b', ks = us ++ vs ∧ Spans us b' ∧ MayEnd b' vs ∧ blur b = blur b' ∧ Similar ls vs := by
  have hlast : ∀ m ∈ ms.getLast?, m.isVacant = false := fun m hm =>
    not_isVacant_of_ended (h.last_ended m hm)
  obtain ⟨us, vs, rfl, htwins, hrest⟩ := hs.exists_append hlast
  have hspans : Spans us (told us b) := h.like (htwins.imp fun _ _ htwin => htwin.1)
  have hblur : blur b = blur (told us b) := by
    have := blur_told htwins b
    rwa [h.told_eq] at this
  have hafter : MayEnd (told us b) vs := by
    rcases hrest.head with hnext | hends
    · exact hend.like hnext
    · exact mayEnd_of_ends _ hends
  exact ⟨us, vs, told us b, rfl, hspans, hafter, hblur, hrest⟩

theorem isVacant_of_directive {n : String} {l : Line} {u : Unit} (hn : n ∈ Directive.all)
    (h : Directive.directiveText n l.text = .ok u []) : l.isVacant = false :=
  not_isVacant_of_ended (Directive.ended_of_directiveText hn h)

/-- **Similar lines.** They are read as the same blocks, when these are blurred. -/
theorem Reads.similar (h : Reads ls bs r) (hs : Similar ls ks) :
    ∃ cs t, Reads ks cs t ∧ blurAll bs = blurAll cs ∧ Similar r t := by
  have helseSettled : Settled (Directive.directiveText "$ELSE") :=
    Directive.settled_directive (by simp [Directive.all])
  have hendSettled : Settled (Directive.directiveText "$ENDIF") :=
    Directive.settled_directive (by simp [Directive.all])
  have hopens : ∀ {l : Line} {c}, openingText l.text = .ok c [] → l.isVacant = false := fun hl =>
    (begins_of_opensWith (opensWith_of_openingText hl) (.inl rfl)).1
  induction h generalizing ks with
  | stop hend =>
    cases hs with
    | nil => exact ⟨[], [], .stop rfl, rfl, .nil⟩
    | left hv => simp [not_isVacant_of_atBranchEnd hend] at hv
    | right hv => exact ⟨[], [], .vacant hv (.stop rfl), rfl, .nil⟩
    | cons htwin hrest =>
      have hsame := htwin.1.alike.congr Directive.endsBranch_append_spaces
      exact ⟨[], _, .stop (hsame.symm.trans hend), rfl, .cons htwin hrest⟩
  | vacant hv _ ih =>
    cases hs with
    | left _ => exact ih .nil
    | cons htwin hrest =>
      obtain ⟨cs, t, hcs, hblur, ht⟩ := ih hrest
      exact ⟨cs, t, .vacant (htwin.isVacant_eq ▸ hv) hcs, hblur, ht⟩
  | @plain ms ls r b bs hms hend _ ih =>
    obtain ⟨us, vs, b', rfl, hus, hend', hblur, hrest⟩ := hms.similar hend hs
    obtain ⟨cs, t, hcs, hblurs, ht⟩ := ih hrest
    exact ⟨b' :: cs, t, .plain hus hend' hcs, by simp only [blurAll, hblur, hblurs], ht⟩
  | @conditional l e ls ms r c bs cs hl _ he _ ihthen ih =>
    obtain ⟨l', ls', rfl, hltwin, hls⟩ := hs.exists_cons (hopens hl)
    obtain ⟨bs', t, hbs', hblur, ht⟩ := ihthen hls
    obtain ⟨e', ms', rfl, hetwin, hms⟩ :=
      ht.exists_cons (isVacant_of_directive (by simp [Directive.all]) he)
    obtain ⟨cs', t, hcs', hblur', ht⟩ := ih hms
    have hl' := (settled_openingText.alike hltwin.1.alike).mp hl
    have he' := (hendSettled.alike hetwin.1.alike).mp he
    exact ⟨_, t, .conditional hl' hbs' he' hcs', by simp only [blurAll, blur, hblur, hblur'], ht⟩
  | @conditionalElse l e d ls ms us r c bs es cs hl _ he _ hd _ ihthen ihelse ih =>
    obtain ⟨l', ls', rfl, hltwin, hls⟩ := hs.exists_cons (hopens hl)
    obtain ⟨bs', t, hbs', hblur, ht⟩ := ihthen hls
    obtain ⟨e', ms', rfl, hetwin, hms⟩ :=
      ht.exists_cons (isVacant_of_directive (by simp [Directive.all]) he)
    obtain ⟨es', t, hes', hblurElse, ht⟩ := ihelse hms
    obtain ⟨d', us', rfl, hdtwin, hus⟩ :=
      ht.exists_cons (isVacant_of_directive (by simp [Directive.all]) hd)
    obtain ⟨cs', t, hcs', hblur', ht⟩ := ih hus
    have hl' := (settled_openingText.alike hltwin.1.alike).mp hl
    have he' := (helseSettled.alike hetwin.1.alike).mp he
    have hd' := (hendSettled.alike hdtwin.1.alike).mp hd
    exact ⟨_, t, .conditionalElse hl' hbs' he' hes' hd' hcs',
      by simp only [blurAll, blur, hblur, hblurElse, hblur'], ht⟩

end Block

/-! ## Documents -/

namespace Document

variable {ls ms ks r : List Line} {es : List (String × String)}

theorem fence_alike {s t : List Char} (h : Alike s t) : Fence s ↔ Fence t := by
  simp only [← fence_iff (u := ())]
  exact settled_fence.alike h

theorem isVacant_of_fence {l : Line} (h : Fence l.text) : l.isVacant = false := by
  obtain ⟨p, -, htext⟩ := h
  simp [Line.isVacant, htext, isSpace]

theorem Bare.similar (h : Bare ls es r) (hs : Similar ls ks) : ∃ t, Bare ks es t ∧ Similar r t := by
  obtain ⟨hne, ms, rfl, hms, hr⟩ := h
  have hvacant : ∀ m ∈ ms, m.isVacant = false := by
    intro m hm
    exact Bool.eq_false_iff.mpr fun hv => not_mem_of_isVacant hv (hms.colon m hm)
  obtain ⟨us, t, rfl, hus, ht⟩ := hs.exists_append fun m hm => hvacant m (List.mem_of_getLast? hm)
  have hentries : Entries us es :=
    forall₂_like settled_entryText hms (hus.imp fun _ _ htwin => htwin.1)
  exact ⟨t, ⟨hne, us, rfl, hentries, ht.vacant_head hr⟩, ht⟩

/-- Similar lines have the same front matter. -/
theorem Front.similar (h : Front ls es r) (hs : Similar ls ks) :
    ∃ t, Front ks es t ∧ Similar r t := by
  cases h with
  | @fenced l e ms r es hl hb hms he =>
    obtain ⟨l', ls', rfl, hltwin, hls⟩ := hs.exists_cons (isVacant_of_fence hl)
    have hsplit : ms ++ e :: r = (ms ++ [e]) ++ r := by simp
    rw [hsplit] at hls
    obtain ⟨us, t, rfl, hus, ht⟩ := hls.exists_append (by simpa using isVacant_of_fence he)
    obtain ⟨vs, ws, rfl, hvs, hws⟩ := forall₂_append_inv hus
    cases hws with
    | @cons _ e' _ _ hetwin hnil =>
      cases hnil
      have hentries : Entries vs es := forall₂_like settled_entryText hms (hvs.imp fun _ _ h => h.1)
      have hl' := (fence_alike hltwin.1.alike).mp hl
      have he' := (fence_alike hetwin.1.alike).mp he
      have hfront : Front (l' :: (vs ++ e' :: t)) es t :=
        .fenced hl' (hltwin.1.broken hb) hentries he'
      exact ⟨t, by simpa using hfront, ht⟩
  | bare hbare =>
    obtain ⟨t, hbare', ht⟩ := hbare.similar hs
    exact ⟨t, .bare hbare', ht⟩
  | absent hfence hbare =>
    refine ⟨ks, .absent (fun k hk hkfence => ?_) fun es t hbare' => ?_, hs⟩
    · obtain ⟨ks, rfl⟩ := List.head?_eq_some_iff.mp hk
      obtain ⟨l, ls, rfl, htwin, -⟩ := hs.symm.exists_cons (isVacant_of_fence hkfence)
      have hunbroken := hfence l rfl ((fence_alike htwin.1.alike).mp hkfence)
      by_contra hbroken
      exact htwin.1.broken hbroken hunbroken
    · obtain ⟨r, hback, -⟩ := hbare'.similar hs.symm
      exact hbare es r hback

theorem similar_ofText? {t u : String} {d : Document} (h : ofText? t = .ok d)
    (hs : Similar (Line.split t.toList) (Line.split u.toList)) :
    ∃ d', ofText? u = .ok d' ∧ d'.frontMatter = d.frontMatter ∧
      Block.blurAll d'.body = Block.blurAll d.body := by
  obtain ⟨ms, hfront, hreads⟩ := ofText?_eq_ok.mp h
  obtain ⟨ks, hfront', hks⟩ := hfront.similar hs.dropWhile
  obtain ⟨bs, r, hreads', hblur, hr⟩ := hreads.similar hks
  have hend : r = [] := by
    cases hr with
    | nil => rfl
    | right hv => simp [Block.not_isVacant_of_atBranchEnd hreads'.stops] at hv
  subst hend
  exact ⟨⟨d.frontMatter, bs⟩, ofText?_eq_ok.mpr ⟨ks, hfront', hreads'⟩, rfl, hblur.symm⟩

/-- The second text is the first with spaces at the ends of its lines, and with other breaks. -/
inductive Varied : List Char → List Char → Prop
  | last {x p : List Char} : '\n' ∉ x → Spaces p → Varied x (x ++ p)
  | line {x p s t : List Char} {b : LineBreak} : '\n' ∉ x → Spaces p → b ≠ .none → Varied s t →
      Varied (x ++ '\n' :: s) (x ++ (p ++ (b.chars ++ t)))

theorem like_append_spaces {x p : List Char} {b c : LineBreak} (hp : Spaces p)
    (hb : b ≠ .none ↔ c ≠ .none) : Line.Twin ⟨x, b⟩ ⟨x ++ p, c⟩ :=
  ⟨⟨alike_append_spaces hp, hb.mp⟩, ⟨(alike_append_spaces hp).symm, hb.mpr⟩⟩

theorem Varied.similar {s t : List Char} (h : Varied s t) (hr : '\r' ∉ s) :
    Similar (Line.split s) (Line.split t) := by
  have hfeed : ∀ {x p : List Char}, '\n' ∉ x → Spaces p → '\n' ∉ x ++ p := by
    intro x p hx hp hmem
    rcases List.mem_append.mp hmem with hmem | hmem
    · exact hx hmem
    · exact absurd (hp _ hmem) (by decide)
  induction h with
  | @last x p hx hp =>
    by_cases hnil : x = []
    · subst hnil
      by_cases hpnil : p = []
      · subst hpnil
        exact .nil
      · have hlast : Line.split ([] ++ p) = [⟨p, .none⟩] :=
          Line.split_last (hfeed (x := []) hx hp) hpnil
        rw [hlast]
        exact .right (Line.isVacant_iff.mpr hp)
    · rw [Line.split_last hx hnil, Line.split_last (hfeed hx hp) (by simp [hnil])]
      exact .cons (like_append_spaces hp Iff.rfl) .nil
  | @line x p s t b hx hp hb _ ih =>
    have hxr : '\r' ∉ x := fun hmem => hr (by simp [hmem])
    have hsr : '\r' ∉ s := fun hmem => hr (by simp [hmem])
    have hsplit : Line.split (x ++ '\n' :: s) = ⟨x, .lineFeed⟩ :: Line.split s :=
      Line.split_line (b := .lineFeed) hx nofun fun _ hlast => hxr (List.mem_of_getLast? hlast)
    have hsplit' : Line.split (x ++ (p ++ (b.chars ++ t))) = ⟨x ++ p, b⟩ :: Line.split t := by
      rw [← List.append_assoc]
      refine Line.split_line (hfeed hx hp) hb fun _ hlast => ?_
      rcases List.mem_append.mp (List.mem_of_getLast? hlast) with hmem | hmem
      · exact hxr hmem
      · exact not_mem_of_spaces hp hmem
    rw [hsplit, hsplit']
    exact .cons (like_append_spaces hp (iff_of_true nofun hb)) (ih hsr)

/-- **Line breaks and trailing spaces do not matter.** A text without carriage returns can be read
if and only if it can be read with spaces at the ends of its lines and with other breaks, and then
the front matter is the same and so are the blocks, when these are blurred. -/
theorem blurred_varied {t u : String} (h : Varied t.toList u.toList) (hr : '\r' ∉ t.toList) :
    ((∃ d, ofText? t = .ok d) ↔ ∃ d, ofText? u = .ok d) ∧
      ∀ {d d'}, ofText? t = .ok d → ofText? u = .ok d' →
        d'.frontMatter = d.frontMatter ∧ Block.blurAll d'.body = Block.blurAll d.body := by
  have hs := h.similar hr
  constructor
  · constructor
    · rintro ⟨d, hd⟩
      obtain ⟨d', hd', -⟩ := similar_ofText? hd hs
      exact ⟨d', hd'⟩
    · rintro ⟨d, hd⟩
      obtain ⟨d', hd', -⟩ := similar_ofText? hd hs.symm
      exact ⟨d', hd'⟩
  · intro d d' hd hd'
    obtain ⟨d'', hd'', hsame⟩ := similar_ofText? hd hs
    rw [hd'] at hd''
    cases hd''
    exact hsame

theorem blurred_varied_paragraph :
    Varied "A: b\n\nx\ny".toList "A: b\t\r\n\nx \r\ny".toList ∧ '\r' ∉ "A: b\n\nx\ny".toList ∧
      ofText? "A: b\n\nx\ny" = .ok ⟨[("A", "b")], [.paragraph "x\ny"]⟩ ∧
      ofText? "A: b\t\r\n\nx \r\ny" = .ok ⟨[("A", "b")], [.paragraph "x\r\ny"]⟩ ∧
      Block.blurAll [.paragraph "x\r\ny"] = Block.blurAll [.paragraph "x\ny"] := by
  have hspaces : ∀ c, isSpace c = true → Spaces [c] := fun c hc d hd => by
    obtain rfl : d = c := by simpa using hd
    exact hc
  have hlast : Varied "y".toList ("y".toList ++ []) := .last (by decide) spaces_nil
  have hthird : Varied ("x".toList ++ '\n' :: "y".toList)
      ("x".toList ++ ([' '] ++ (LineBreak.returnFeed.chars ++ ("y".toList ++ [])))) :=
    .line (by decide) (hspaces ' ' (by decide)) nofun hlast
  have hsecond := Varied.line (x := []) (b := .lineFeed) (by decide) spaces_nil nofun hthird
  have hvaried : Varied "A: b\n\nx\ny".toList "A: b\t\r\n\nx \r\ny".toList :=
    .line (x := "A: b".toList) (b := .returnFeed) (by decide) (hspaces '\t' (by decide)) nofun hsecond
  have hr : '\r' ∉ "A: b\n\nx\ny".toList := by decide
  have ht : ofText? "A: b\n\nx\ny" = .ok ⟨[("A", "b")], [.paragraph "x\ny"]⟩ := by
    with_unfolding_all rfl
  have hu : ofText? "A: b\t\r\n\nx \r\ny" = .ok ⟨[("A", "b")], [.paragraph "x\r\ny"]⟩ := by
    with_unfolding_all rfl
  exact ⟨hvaried, hr, ht, hu, ((blurred_varied hvaried hr).2 ht hu).2⟩

end Document

end Interview
