import Interview.Proofs.Block.Ending

/-!
# Lines that are alike

Two lines are alike if their texts differ in the spaces at their ends only, and the second has a
break if the first does. Lines that are alike spell the same block, except that a paragraph holds
the breaks between its lines, and a box of next steps its lines as they are: `Block.told ms b` is
the block `b` with the text that the lines `ms` give it.

* `Settled.alike`, `Tentative.misses_alike`: readers of lines that are alike.
* `Block.Spans.like`: lines that are alike span the same kind of block.
* `Block.MayEnd.like`, `Block.mayEnd_of_ends`: what may follow a block.
-/

namespace Interview

open Reader Text Word

namespace Text

variable {s t x pad : List Char}

/-- Texts that differ in the spaces at their ends only. -/
def Alike (s t : List Char) : Prop := ∃ x p q, Spaces p ∧ Spaces q ∧ s = x ++ p ∧ t = x ++ q

theorem Alike.refl (s : List Char) : Alike s s :=
  ⟨s, [], [], spaces_nil, spaces_nil, by simp, by simp⟩

theorem Alike.symm (h : Alike s t) : Alike t s := by
  obtain ⟨x, p, q, hp, hq, rfl, rfl⟩ := h
  exact ⟨x, q, p, hq, hp, rfl, rfl⟩

theorem alike_append_spaces (h : Spaces pad) : Alike s (s ++ pad) :=
  ⟨s, [], pad, spaces_nil, h, by simp, rfl⟩

/-- What spaces at the end make no difference to is the same for texts that are alike. -/
theorem Alike.congr {α : Sort _} {f : List Char → α}
    (hf : ∀ {x pad}, Spaces pad → f (x ++ pad) = f x) (h : Alike s t) : f s = f t := by
  obtain ⟨x, p, q, hp, hq, rfl, rfl⟩ := h
  rw [hf hp, hf hq]

theorem Alike.spaces_iff (h : Alike s t) : Spaces s ↔ Spaces t := by
  refine iff_of_eq (h.congr fun hpad => ?_)
  rw [eq_iff_iff, spaces_append, and_iff_left hpad]

theorem Alike.mem_return_iff (h : Alike s t) : '\r' ∈ s ↔ '\r' ∈ t := by
  refine iff_of_eq (h.congr (f := ('\r' ∈ ·)) fun hpad => ?_)
  simp [not_mem_of_spaces hpad]

theorem Alike.trim_eq (h : Alike s t) : trim s = trim t := h.congr trim_append_spaces

theorem isPrefix_append_spaces (hpad : Spaces pad) (hx : x.getLast?.any isSpace = false) :
    x <+: s ++ pad ↔ x <+: s := by
  constructor
  · rintro ⟨t, ht⟩
    obtain ⟨r, -, rfl⟩ := exists_of_append_eq_append hpad ht.symm hx
    exact List.prefix_append x r
  · exact fun h => h.trans (List.prefix_append s pad)

end Text

namespace Reader

variable {α : Type} {p : Reader Char α} {a : α} {s t : List Char}

theorem Settled.alike (hp : Settled p) (h : Alike s t) : p s = .ok a [] ↔ p t = .ok a [] :=
  iff_of_eq (h.congr (f := fun s => p s = .ok a []) fun hpad => propext (hp hpad a))

theorem Tentative.misses_alike (ht : Tentative p) (hp : Settled p) (h : Alike s t) :
    Misses p s ↔ Misses p t := by
  simp only [ht.misses_iff, ne_eq, hp.alike h]

theorem Steady.fails_alike (hp : Steady p) (h : Alike s t) : Fails p s ↔ Fails p t :=
  iff_of_eq (h.congr fun hpad => propext (hp.firm.fails_iff hp.tentative hpad))

end Reader

theorem Directive.settled_directive {n : String} (hn : n ∈ all) : Settled (directiveText n) := by
  obtain ⟨x, hx⟩ := exists_name_dollar hn
  refine settled_directiveText (by simp [hx]) ?_
  refine (Option.any_eq_false ..).mpr fun c hc => Bool.eq_false_iff.mpr fun hspace => ?_
  simpa [last_not_blank hn c hc] using isBlank_of_isSpace hspace

namespace Bullet

variable {w : Nat} {s t : List Char}

theorem settled_ending : Settled ending := by
  intro s pad hpad o
  rw [ending_iff, ending_iff, spaces_append, and_iff_left hpad]
  refine or_congr Iff.rfl ⟨?_, ?_⟩
  · rintro ⟨a, b, cs, p, ha, hb, hcs, hp, rfl, heq⟩
    have hlast : (a ++ ("=>".toList ++ (b ++ cs))).getLast?.any isSpace = false := by
      rw [← List.append_assoc, ← List.append_assoc, List.getLast?_append_of_ne_nil _ hcs.1]
      refine (Option.any_eq_false ..).mpr fun c hc => Bool.eq_false_iff.mpr fun hspace => ?_
      simpa [hcs.2 c (List.mem_of_getLast? hc)] using isBlank_of_isSpace hspace
    obtain ⟨r, rfl, rfl⟩ := exists_of_append_eq_append (t := p) hpad (by simpa using heq) hlast
    exact ⟨a, b, cs, r, ha, hb, hcs, (spaces_append.mp hp).1, rfl, by simp⟩
  · rintro ⟨a, b, cs, p, ha, hb, hcs, hp, rfl, rfl⟩
    exact ⟨a, b, cs, p ++ pad, ha, hb, hcs, spaces_append.mpr ⟨hp, hpad⟩, rfl, by simp⟩

theorem settled_head (w : Nat) : Settled (head w) := by
  rw [head_eq]
  exact (steady_stem w).bind_settled fun _ => settled_ending.bind_pure _

theorem misses_head_alike (h : Alike s t) : Misses (head w) s ↔ Misses (head w) t := by
  refine iff_of_eq (h.congr fun {x pad} hpad => propext ?_)
  have hrest : ∀ r : List Char,
      ¬ Spaces (r ++ pad) ∧ ¬ "=>".toList <+: (r ++ pad).dropWhile isSpace ↔
      ¬ Spaces r ∧ ¬ "=>".toList <+: r.dropWhile isSpace := by
    intro r
    rw [spaces_append, and_iff_left hpad]
    refine and_congr_right fun hr => ?_
    rw [dropWhile_append_of_not_all hr, isPrefix_append_spaces hpad (by decide)]
  simp only [misses_head_iff, (steady_stem w).firm hpad]
  constructor
  · intro h c r hr
    exact (hrest r).mp (h c (r ++ pad) ⟨r, rfl, hr⟩)
  · rintro h c _ ⟨r, rfl, hr⟩
    exact (hrest r).mpr (h c r hr)

end Bullet

/-- The second line is like the first: its text is alike, and it has a break if the first does. -/
structure Line.Like (l m : Line) : Prop where
  alike : Alike l.text m.text
  broken : l.ending ≠ .none → m.ending ≠ .none

theorem forall₂_append_inv {α β : Type} {R : α → β → Prop} {us vs : List α} {ws : List β}
    (h : List.Forall₂ R (us ++ vs) ws) :
    ∃ xs ys, ws = xs ++ ys ∧ List.Forall₂ R us xs ∧ List.Forall₂ R vs ys := by
  induction us generalizing ws with
  | nil => exact ⟨[], ws, rfl, .nil, h⟩
  | cons u us ih =>
    cases h with
    | cons hu hrest =>
      obtain ⟨xs, ys, rfl, hxs, hys⟩ := ih hrest
      exact ⟨_ :: xs, ys, rfl, .cons hu hxs, hys⟩

theorem forall_like {P : Line → Prop} (hP : ∀ {l m}, Line.Like l m → P l → P m) {ms ks : List Line}
    (h : ∀ m ∈ ms, P m) (hl : List.Forall₂ Line.Like ms ks) : ∀ k ∈ ks, P k := by
  induction hl with
  | nil => nofun
  | cons hlike _ ih =>
    obtain ⟨hm, hms⟩ := List.forall_mem_cons.mp h
    exact List.forall_mem_cons.mpr ⟨hP hlike hm, ih hms⟩

/-- What is read from lines one by one is read from lines that are alike. -/
theorem forall₂_like {α : Type} {p : Reader Char α} (hp : Settled p) {ms ks : List Line}
    {as : List α} (h : List.Forall₂ (fun m a => p m.text = .ok a []) ms as) (hl : List.Forall₂ Line.Like ms ks) :
    List.Forall₂ (fun m a => p m.text = .ok a []) ks as := by
  induction hl generalizing as with
  | nil => exact h
  | cons hlike _ ih =>
    cases h with
    | cons ha h => exact .cons ((hp.alike hlike.alike).mp ha) (ih h)

theorem Bullet.Laid.like {w : Nat} {bs : List Bullet} {ms ks : List Line} (h : Laid Read w bs ms)
    (hl : List.Forall₂ Line.Like ms ks) : Laid Read w bs ks := by
  have hread : ∀ {w c o} {l m : Line}, Line.Like l m → Read w c o l.text → Read w c o m.text :=
    fun hlike hread => ((settled_head _).alike hlike.alike).mp hread
  induction h generalizing ks with
  | nil =>
    cases hl
    exact .nil
  | goTo hrow _ ih =>
    cases hl with
    | cons hlike hl => exact .goTo (hread hlike hrow) (ih hl)
  | group hrow hlt hne _ _ ihkids ih =>
    cases hl with
    | cons hlike hl =>
      obtain ⟨us, vs, rfl, hus, hvs⟩ := forall₂_append_inv hl
      exact .group (hread hlike hrow) hlt hne (ihkids hus) (ih hvs)

namespace Block

variable {l m : Line} {ls ms ks r : List Line} {b : Block} {s t : List Char}

/-- The block with the text that its lines give it. -/
def told (ms : List Line) : Block → Block
  | .paragraph _ =>
    .paragraph (String.ofList (Prose.joined (ms.map fun m => (trim m.text, m.ending))))
  | .nextSteps _ =>
    .nextSteps (String.ofList
      (Prose.trimBreaks (['\n'].intercalate (ms.tail.dropLast.map Line.text))))
  | b => b

theorem Spans.told_eq (h : Spans ms b) : told ms b = b := by
  cases h with
  | nextSteps _ _ _ _ => simp [told]
  | heading _ | startButton _ | question _ _ | choice _ _ _ _ | rules _ _ | paragraph _ _ => rfl

theorem Prosaic.alike (h : Prosaic s) (hs : Alike s t) : Prosaic t := by
  refine ⟨mt hs.mem_return_iff.mpr h.1, ?_⟩
  have hdirective := hs.congr Directive.isDirective_append_spaces
  unfold Prose.isProse
  rw [← hs.trim_eq, ← hdirective]
  exact h.2

theorem Unmarked.alike (h : Unmarked s) (hs : Alike s t) (hne : ¬ Spaces s) : Unmarked t where
  heading := (Prose.tentative_headingText.misses_alike Prose.settled_headingText hs).mp h.heading
  start := by
    rw [Tag.misses_startText_iff]
    exact (Tag.steady_startStart.fails_alike hs).mp (Tag.misses_startText_iff.mp h.start)
  tag := by
    rw [Tag.misses_tag_iff]
    exact (Tag.steady_tagStart.fails_alike hs).mp (Tag.misses_tag_iff.mp h.tag)
  bullet := by
    have hindent : s.takeWhile isSpace = t.takeWhile isSpace := by
      obtain ⟨x, p, q, hp, hq, rfl, rfl⟩ := hs
      have hx : ¬ Spaces x := fun hx => hne (spaces_append.mpr ⟨hx, hp⟩)
      rw [takeWhile_append_of_not_all hx, takeWhile_append_of_not_all hx]
    rw [← hindent]
    exact (Bullet.misses_head_alike hs).mp h.bullet

/-- **Lines that are alike.** They span the same kind of block, with the text that they give it. -/
theorem Spans.like (h : Spans ms b) (hl : List.Forall₂ Line.Like ms ks) : Spans ks (told ks b) := by
  cases h with
  | heading hm =>
    cases hl with
    | cons hlike hl =>
      cases hl
      exact .heading ((Prose.settled_headingText.alike hlike.alike).mp hm)
  | startButton hm =>
    cases hl with
    | cons hlike hl =>
      cases hl
      exact .startButton ((Tag.settled_startText.alike hlike.alike).mp hm)
  | question hm hk =>
    cases hl with
    | cons hlike hl =>
      cases hl
      exact .question ((Tag.settled_tag.alike hlike.alike).mp hm) hk
  | choice hm hk hcs hne =>
    cases hl with
    | cons hlike hl =>
      exact .choice ((Tag.settled_tag.alike hlike.alike).mp hm) hk
        (forall₂_like Tag.settled_choice hcs hl) hne
  | @nextSteps l e ms hl' hb hms he =>
    have hopen : Settled (Directive.directiveText "$NEXTSTEPS") :=
      Directive.settled_directive (by simp [Directive.all])
    have hclose : Settled (Directive.directiveText "$ENDNEXTSTEPS") :=
      Directive.settled_directive (by simp [Directive.all])
    cases hl with
    | @cons _ k _ ks hlike hl =>
      obtain ⟨us, vs, rfl, hus, hvs⟩ := forall₂_append_inv hl
      cases hvs with
      | cons hlast hvs =>
        cases hvs
        have htold : ∀ e, told (k :: (us ++ [e])) (.nextSteps (String.ofList (Prose.trimBreaks
            (['\n'].intercalate (ms.map Line.text))))) = .nextSteps (String.ofList
              (Prose.trimBreaks (['\n'].intercalate (us.map Line.text)))) := by
          simp [told]
        rw [htold]
        have hinside := forall_like (P := fun m =>
          Misses (Directive.directiveText "$ENDNEXTSTEPS") m.text ∧ '\r' ∉ m.text ∧
            m.ending ≠ .none) ?_ hms hus
        · exact .nextSteps ((hopen.alike hlike.alike).mp hl') (hlike.broken hb) hinside
            ((hclose.alike hlast.alike).mp he)
        · rintro l m hlm ⟨hmisses, hr, hbroken⟩
          exact ⟨((Directive.tentative_directiveText _).misses_alike hclose hlm.alike).mp hmisses,
            mt hlm.alike.mem_return_iff.mpr hr, hlm.broken hbroken⟩
  | rules hne hlaid => exact .rules hne (hlaid.like hl)
  | @paragraph l ms hmark hms =>
    have hprose := forall_like (fun hlm hl => Prosaic.alike hl hlm.alike) hms hl
    cases hl with
    | cons hlike hl =>
      have hfirst := not_spaces_of_prosaic (hms l List.mem_cons_self)
      exact .paragraph (hmark.alike hlike.alike hfirst) hprose

/-! ## What may follow a block -/

/-- The next line has the text of a line that comes next in `r`, up to the spaces at its end. -/
def NextAlike (r ls : List Line) : Prop := ∀ l ∈ ls.head?, ∃ m ∈ r.head?, Alike m.text l.text

/-- Neither a vacant line nor a directive line starts with a bullet mark. -/
theorem initial_ne_of_ends (h : Bullet.Ends ls) (hl : l ∈ ls.head?) {c : Char}
    (hc : Bullet.Mark c) : initial l.text ≠ some c := by
  intro hinitial
  rcases h l hl with hvacant | ⟨-, hdirective⟩
  · exact not_spaces_of_initial hinitial (Line.isVacant_iff.mp hvacant)
  · have hblank : isBlank c = false := by rcases hc with rfl | rfl <;> decide
    have := Directive.not_isDirective_of_initial hinitial hblank (hc.ne (by simp [Bullet.Mark]))
    simp [hdirective] at this

theorem not_prosaic_of_ends (h : Bullet.Ends ls) (hl : l ∈ ls.head?) : ¬ Prosaic l.text := by
  intro hprose
  rcases h l hl with hvacant | ⟨-, hdirective⟩
  · exact not_spaces_of_prosaic hprose (Line.isVacant_iff.mp hvacant)
  · simp [not_isDirective_of_prosaic hprose] at hdirective

theorem ends_of_nextAlike (h : Bullet.Ends r) (hnext : NextAlike r ls) : Bullet.Ends ls := by
  intro l hl
  obtain ⟨m, hm, hlike⟩ := hnext l hl
  have hdirective := hlike.congr Directive.isDirective_append_spaces
  rcases h m hm with hvacant | ⟨hr, hd⟩
  · left
    rw [Line.isVacant_iff] at hvacant ⊢
    exact hlike.spaces_iff.mp hvacant
  · exact .inr ⟨mt hlike.mem_return_iff.mpr hr, hdirective ▸ hd⟩

/-- A block of any kind may end before a vacant line, a directive or the end of the input. -/
theorem mayEnd_of_ends (b : Block) (h : Bullet.Ends ls) : MayEnd b ls := by
  cases b with
  | question q =>
    intro _ l hl
    refine (Tag.tentative_choice).misses_iff.mpr fun c hc => ?_
    obtain ⟨m, hm, hi⟩ := Tag.initial_of_choice hc
    exact initial_ne_of_ends h hl hm hi
  | rules bs => exact h
  | paragraph t => exact fun l hl => not_prosaic_of_ends h hl
  | heading _ | startButton _ | nextSteps _ | conditional _ _ _ => trivial

/-- **What may follow.** Where a block may end before some line it may end before one that is
alike. -/
theorem MayEnd.like (h : MayEnd b r) (hnext : NextAlike r ls) : MayEnd (told ms b) ls := by
  cases b with
  | question q =>
    intro hchoice l hl
    obtain ⟨m, hm, hlike⟩ := hnext l hl
    exact (Tag.tentative_choice.misses_alike Tag.settled_choice hlike).mp (h hchoice m hm)
  | rules bs => exact ends_of_nextAlike h hnext
  | paragraph t =>
    intro l hl hprose
    obtain ⟨m, hm, hlike⟩ := hnext l hl
    exact h m hm (hprose.alike hlike.symm)
  | heading _ | startButton _ | nextSteps _ | conditional _ _ _ => trivial

end Block

end Interview
