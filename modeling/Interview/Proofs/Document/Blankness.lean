import Interview.Proofs.Document.Composition

/-!
# Blank lines

There are two notions of a blank line. Blocks are separated by lines of spaces and tabs, but a
paragraph ends at every line that is blank when it is trimmed. On a text that can be read the two
agree: outside boxes of next steps it has no blank line that holds anything but spaces and tabs.
Those lines may be emptied without a difference; a text with another blank line cannot be read,
whatever it becomes when the line is emptied.

* `Line.Emptied`: some lines of a text are emptied, outside boxes of next steps.
* `Document.tidy_of_ofText?`: the blank lines of a text that can be read.
* `Block.Reads.swapped`, `Document.Front.swapped`: vacant lines may be swapped for others.
* `Document.read_emptied_iff`: when the emptied text is read like the text itself.
-/

namespace Interview

open Reader Text Word

namespace Line

variable {l m e : Line} {ls ms us r : List Line} {b c d : Bool} {n : String}

/-! ## Boxes -/

/-- The line holds the word `n` and nothing else but spaces. -/
def Holds (n : String) (l : Line) : Prop :=
  ∃ g p, Spaces g ∧ Spaces p ∧ l.text = g ++ (n.toList ++ p)

/-- If `b` says whether the line stands in a box of next steps, `c` says it of the line after. -/
inductive Leads : Bool → Line → Bool → Prop
  | outside {l : Line} : ¬ l.Holds "$NEXTSTEPS" → Leads false l false
  | opens {l : Line} : l.Holds "$NEXTSTEPS" → Leads false l true
  | inside {l : Line} : ¬ l.Holds "$ENDNEXTSTEPS" → Leads true l true
  | closes {l : Line} : l.Holds "$ENDNEXTSTEPS" → Leads true l false

theorem Leads.unique (h : Leads b l c) (h' : Leads b l d) : c = d := by
  cases h <;> cases h' <;> first | rfl | contradiction

/-- A line that is empty when it is trimmed. -/
def Blank (l : Line) : Prop := trim l.text = []

/-- What is left of a line that is emptied up to its break: nothing, if it has none. -/
def emptied (l : Line) : List Line := if l.ending = .none then [] else [⟨[], l.ending⟩]

/-- The second text is the first with some of the lines emptied of which `P` holds. None of them
stands in a box of next steps. -/
inductive Emptied (P : Line → Prop) : Bool → List Line → List Line → Prop
  | nil {b : Bool} : Emptied P b [] []
  | keep {b c : Bool} {l : Line} {ls ms : List Line} : Leads b l c → Emptied P c ls ms →
      Emptied P b (l :: ls) (l :: ms)
  | clear {l : Line} {ls ms : List Line} : P l → Emptied P false ls ms →
      Emptied P false (l :: ls) (l.emptied ++ ms)

/-! ## Lines that are kept -/

/-- A line that is not blank and does not open a box. -/
structure Solid (l : Line) : Prop where
  not_blank : ¬ l.Blank
  not_opens : ¬ l.Holds "$NEXTSTEPS"

theorem holds_iff (hn : n ∈ Directive.all) :
    l.Holds n ↔ Directive.directiveText n l.text = .ok () [] :=
  (Directive.directiveText_iff hn).symm

theorem opensWith_of_holds (hn : n ∈ Directive.all) (h : l.Holds n) :
    Directive.opensWith n l.text = true :=
  Directive.opensWith_of_directiveText hn ((holds_iff hn).mp h)

theorem isDirective_of_holds (hn : n ∈ Directive.all) (h : l.Holds n) :
    Directive.isDirective l.text = true :=
  Directive.isDirective_iff.mpr ⟨n, hn, opensWith_of_holds hn h⟩

theorem not_holds_of_not_isDirective (hn : n ∈ Directive.all)
    (h : Directive.isDirective l.text = false) : ¬ l.Holds n := fun hl => by
  rw [isDirective_of_holds hn hl] at h
  cases h

theorem isBlank_of_isVacant (h : l.isVacant = true) : l.Blank :=
  trim_eq_nil_iff.mpr fun c hc => isBlank_of_isSpace (isVacant_iff.mp h c hc)

theorem Solid.not_isVacant (h : Solid l) : l.isVacant = false :=
  Bool.eq_false_iff.mpr fun hv => h.not_blank (isBlank_of_isVacant hv)

theorem leads_of_isVacant (h : l.isVacant = true) : Leads false l false :=
  .outside (not_holds_of_not_isDirective (by simp [Directive.all]) (not_isDirective_of_isVacant h))

theorem solid_of_initial {x : Char} (h : initial l.text = some x) (hx : isBlank x = false)
    (hne : x ≠ '$') : Solid l where
  not_blank hblank := by
    have hhead := head?_trim h hx
    rw [hblank] at hhead
    cases hhead
  not_opens := not_holds_of_not_isDirective (by simp [Directive.all])
    (Directive.not_isDirective_of_initial h hx hne)

theorem solid_of_prosaic (h : Block.Prosaic l.text) : Solid l where
  not_blank := Block.not_blank_of_prosaic h
  not_opens := not_holds_of_not_isDirective (by simp [Directive.all])
    (Block.not_isDirective_of_prosaic h)

theorem not_blank_of_isDirective (h : Directive.isDirective l.text = true) : ¬ l.Blank := by
  intro hblank
  obtain ⟨t, ht⟩ := Directive.exists_dollar h
  have hmem : '$' ∈ trimStart l.text := by simp [ht]
  have := trim_eq_nil_iff.mp hblank '$' ((List.dropWhile_suffix isBlank).subset hmem)
  cases this

/-- The lines of a conditional, `$IF`, `$ELSE` and `$ENDIF`, open no box. -/
theorem solid_of_opensWith (hn : n ∈ ["$IF", "$ELSE", "$ENDIF"])
    (h : Directive.opensWith n l.text = true) : Solid l := by
  have hall : n ∈ Directive.all := by
    simp only [List.mem_cons, List.not_mem_nil, or_false] at hn
    rcases hn with rfl | rfl | rfl <;> simp [Directive.all]
  refine ⟨not_blank_of_isDirective (Directive.isDirective_iff.mpr ⟨n, hall, h⟩), fun hl => ?_⟩
  have hone := Directive.opensWith_unique h (opensWith_of_holds (by simp [Directive.all]) hl)
  simp only [List.mem_cons, List.not_mem_nil, or_false] at hn
  rcases hn with rfl | rfl | rfl <;> exact absurd hone (by decide)

theorem solid_of_directiveText (hn : n ∈ ["$ELSE", "$ENDIF"])
    (h : Directive.directiveText n l.text = .ok () []) : Solid l := by
  have hall : n ∈ Directive.all := by
    simp only [List.mem_cons, List.not_mem_nil, or_false] at hn
    rcases hn with rfl | rfl <;> simp [Directive.all]
  exact solid_of_opensWith (List.mem_cons_of_mem _ hn) (Directive.opensWith_of_directiveText hall h)

theorem solid_of_openingText {q : Clause} (h : Block.openingText l.text = .ok q []) : Solid l :=
  solid_of_opensWith (by simp) (Block.opensWith_of_openingText h)

/-! ## Tidy lines -/

/-- Lines of which, outside boxes of next steps, the blank ones hold only spaces and tabs. -/
inductive Tidy : Bool → List Line → Prop
  | nil {b : Bool} : Tidy b []
  | cons {b c : Bool} {l : Line} {ls : List Line} : Leads b l c →
      (b = false → l.Blank → l.isVacant = true) → Tidy c ls → Tidy b (l :: ls)

theorem Tidy.vacant (hl : l.isVacant = true) (h : Tidy false ls) : Tidy false (l :: ls) :=
  .cons (leads_of_isVacant hl) (fun _ _ => hl) h

theorem Tidy.solid (hl : Solid l) (h : Tidy false ls) : Tidy false (l :: ls) :=
  .cons (.outside hl.not_opens) (fun _ hb => absurd hb hl.not_blank) h

theorem Tidy.append (hms : ∀ m ∈ ms, m.isVacant = true ∨ Solid m) (h : Tidy false ls) :
    Tidy false (ms ++ ls) := by
  induction ms with
  | nil => exact h
  | cons m ms ih =>
    obtain ⟨hm, hms⟩ := List.forall_mem_cons.mp hms
    rcases hm with hvacant | hsolid
    · exact .vacant hvacant (ih hms)
    · exact .solid hsolid (ih hms)

theorem Tidy.box (hl : l.Holds "$NEXTSTEPS") (hms : ∀ m ∈ ms, ¬ m.Holds "$ENDNEXTSTEPS")
    (he : e.Holds "$ENDNEXTSTEPS") (h : Tidy false ls) : Tidy false (l :: (ms ++ e :: ls)) := by
  have hinside : Tidy true (ms ++ e :: ls) := by
    induction ms with
    | nil => exact .cons (.closes he) nofun h
    | cons m ms ih =>
      obtain ⟨hm, hms⟩ := List.forall_mem_cons.mp hms
      exact .cons (.inside hm) nofun (ih hms)
  have hblank : ¬ l.Blank :=
    not_blank_of_isDirective (isDirective_of_holds (by simp [Directive.all]) hl)
  exact .cons (.opens hl) (fun _ hb => absurd hb hblank) hinside

/-- Of tidy lines only vacant ones are emptied when blank ones are. -/
theorem Emptied.vacant_of_tidy (h : Emptied Blank b ls ms) (hls : Tidy b ls) :
    Emptied (·.isVacant = true) b ls ms := by
  induction h with
  | nil => exact .nil
  | keep hl _ ih =>
    cases hls with
    | cons hl' _ hls =>
      cases hl.unique hl'
      exact .keep hl (ih hls)
  | clear hl _ ih =>
    cases hls with
    | cons hl' hvacant hls =>
      have hv := hvacant rfl hl
      cases hl'.unique (leads_of_isVacant hv)
      exact .clear hv (ih hls)

/-! ## Other vacant lines -/

/-- The second text is the first with other vacant lines in the places of its vacant lines outside
boxes of next steps. One of the two may have a vacant line more at its end. -/
inductive Swapped : Bool → List Line → List Line → Prop
  | nil {b : Bool} : Swapped b [] []
  | left {l : Line} : l.isVacant = true → Swapped false [l] []
  | right {l : Line} : l.isVacant = true → Swapped false [] [l]
  | keep {b c : Bool} {l : Line} {ls ms : List Line} : Leads b l c → Swapped c ls ms →
      Swapped b (l :: ls) (l :: ms)
  | swap {l m : Line} {ls ms : List Line} : l.isVacant = true → m.isVacant = true →
      Swapped false ls ms → Swapped false (l :: ls) (m :: ms)

theorem Swapped.symm (h : Swapped b ls ms) : Swapped b ms ls := by
  induction h with
  | nil => exact .nil
  | left hl => exact .right hl
  | right hl => exact .left hl
  | keep hl _ ih => exact .keep hl ih
  | swap hl hm _ ih => exact .swap hm hl ih

/-- Only the last line of a text has no break, so that emptying it leaves no line. -/
theorem Emptied.swapped (h : Emptied (·.isVacant = true) b ls ms) (hls : Whole ls) :
    Swapped b ls ms := by
  induction h with
  | nil => exact .nil
  | keep hl _ ih => exact .keep hl (ih hls.tail)
  | @clear l ls ms hl hrest ih =>
    unfold emptied
    split
    · rename_i hending
      cases ls with
      | nil =>
        cases hrest
        exact .left hl
      | cons k ls => exact absurd hending (List.isChain_cons_cons.mp hls).1
    · exact .swap hl rfl (ih hls.tail)

theorem Swapped.dropWhile (h : Swapped false ls ms) :
    Swapped false (ls.dropWhile isVacant) (ms.dropWhile isVacant) := by
  generalize hb : false = b at h
  induction h with
  | nil => exact .nil
  | left hl | right hl =>
    rw [List.dropWhile_cons_of_pos hl]
    exact .nil
  | @keep b c l ls ms hl hrest ih =>
    subst hb
    cases hv : l.isVacant with
    | true =>
      have hc := hl.unique (leads_of_isVacant hv)
      subst hc
      rw [List.dropWhile_cons_of_pos hv, List.dropWhile_cons_of_pos hv]
      exact ih rfl
    | false =>
      rw [List.dropWhile_cons_of_neg (by simp [hv]), List.dropWhile_cons_of_neg (by simp [hv])]
      exact .keep hl hrest
  | swap hl hm _ ih =>
    rw [List.dropWhile_cons_of_pos hl, List.dropWhile_cons_of_pos hm]
    exact ih rfl

/-- A line that is not vacant stays where it is. -/
theorem Swapped.exists_cons (h : Swapped false (l :: ls) ms) (hl : l.isVacant = false) :
    ∃ c ks, ms = l :: ks ∧ Leads false l c ∧ Swapped c ls ks := by
  cases h with
  | left hv | swap hv _ _ => simp [hl] at hv
  | keep hleads hrest => exact ⟨_, _, rfl, hleads, hrest⟩

theorem Swapped.exists_solid (h : Swapped false (l :: ls) ms) (hl : Solid l) :
    ∃ ks, ms = l :: ks ∧ Swapped false ls ks := by
  obtain ⟨c, ks, rfl, hleads, hrest⟩ := h.exists_cons hl.not_isVacant
  cases hleads.unique (.outside hl.not_opens)
  exact ⟨ks, rfl, hrest⟩

theorem Swapped.exists_append (h : Swapped false (us ++ ls) ms) (hus : ∀ u ∈ us, Solid u) :
    ∃ ks, ms = us ++ ks ∧ Swapped false ls ks := by
  induction us generalizing ms with
  | nil => exact ⟨ms, rfl, h⟩
  | cons u us ih =>
    obtain ⟨hu, hus⟩ := List.forall_mem_cons.mp hus
    obtain ⟨ks, rfl, hrest⟩ := h.exists_solid hu
    obtain ⟨vs, rfl, hvs⟩ := ih hrest hus
    exact ⟨vs, rfl, hvs⟩

/-- A box stays as it is. -/
theorem Swapped.exists_box (h : Swapped true (us ++ e :: ls) ms)
    (hus : ∀ u ∈ us, ¬ u.Holds "$ENDNEXTSTEPS") (he : e.Holds "$ENDNEXTSTEPS") :
    ∃ ks, ms = us ++ e :: ks ∧ Swapped false ls ks := by
  induction us generalizing ms with
  | nil =>
    cases h with
    | keep hleads hrest =>
      cases hleads.unique (.closes he)
      exact ⟨_, rfl, hrest⟩
  | cons u us ih =>
    obtain ⟨hu, hus⟩ := List.forall_mem_cons.mp hus
    cases h with
    | keep hleads hrest =>
      cases hleads.unique (.inside hu)
      obtain ⟨ks, rfl, hks⟩ := ih hrest hus
      exact ⟨ks, rfl, hks⟩

/-- What comes first is the same or it is vacant. -/
theorem Swapped.head (h : Swapped b ls ms) :
    ms.head? = ls.head? ∨ ∀ m ∈ ms.head?, m.isVacant = true := by
  cases h with
  | nil | keep _ _ => exact .inl rfl
  | left _ => exact .inr nofun
  | right hm | swap _ hm _ => exact .inr (by simpa using hm)

theorem Swapped.vacant_head (h : Swapped b ls ms) (hls : ∀ l ∈ ls.head?, l.isVacant = true) :
    ∀ m ∈ ms.head?, m.isVacant = true := by
  rcases h.head with heq | hv
  · rwa [heq]
  · exact hv

end Line

/-! ## Blocks -/

namespace Block

open Line

variable {ls ms ks r : List Line} {b : Block} {bs : List Block}

/-- The lines of a block are solid, or they are a box of next steps. -/
theorem Spans.solid_or_box (h : Spans ms b) : (∀ m ∈ ms, Solid m) ∨
    ∃ l us e, ms = l :: (us ++ [e]) ∧ l.Holds "$NEXTSTEPS" ∧
      (∀ u ∈ us, ¬ u.Holds "$ENDNEXTSTEPS") ∧ e.Holds "$ENDNEXTSTEPS" := by
  have hend : "$ENDNEXTSTEPS" ∈ Directive.all := by simp [Directive.all]
  by_cases hb : ∀ t, b ≠ .nextSteps t
  · refine .inl fun m hm => ?_
    rcases h.prosaic_or_initial hb m hm with hprose | ⟨c, hi, hc, hne⟩
    · exact solid_of_prosaic hprose
    · exact solid_of_initial hi hc hne
  · cases h with
    | @nextSteps l e us hl _ hus he =>
      have hopens : l.Holds "$NEXTSTEPS" := (holds_iff (by simp [Directive.all])).mpr hl
      refine .inr ⟨l, us, e, rfl, hopens, fun u hu hclose => ?_, (holds_iff hend).mpr he⟩
      exact (hus u hu).1.not_ok ((holds_iff hend).mp hclose)
    | heading | startButton | question | choice | rules | paragraph => exact absurd (by simp) hb

theorem Spans.tidy (h : Spans ms b) (hls : Tidy false ls) : Tidy false (ms ++ ls) := by
  rcases h.solid_or_box with hsolid | ⟨l, us, e, rfl, hl, hus, he⟩
  · exact hls.append fun m hm => .inr (hsolid m hm)
  · simpa using hls.box hl hus he

/-- Lines that some blocks are read from are tidy, if those are with which they go on. -/
theorem Reads.tidy (h : Reads ls bs r) (hr : Tidy false r) : Tidy false ls := by
  induction h with
  | stop _ => exact hr
  | vacant hl _ ih => exact .vacant hl (ih hr)
  | plain hms _ _ ih => exact hms.tidy (ih hr)
  | conditional hl _ he _ ihthen ih =>
    exact .solid (solid_of_openingText hl)
      (ihthen (.solid (solid_of_directiveText (by simp) he) (ih hr)))
  | conditionalElse hl _ he _ hd _ ihthen ihelse ih =>
    exact .solid (solid_of_openingText hl) (ihthen (.solid (solid_of_directiveText (by simp) he)
      (ihelse (.solid (solid_of_directiveText (by simp) hd) (ih hr)))))

theorem MayEnd.of_head? (h : MayEnd b ls) (heq : ks.head? = ls.head?) : MayEnd b ks := by
  cases b with
  | question q => exact fun hk m hm => h hk m (heq ▸ hm)
  | rules _ | paragraph _ => exact fun m hm => h m (heq ▸ hm)
  | heading _ | startButton _ | nextSteps _ | conditional _ _ _ => trivial

theorem Spans.swapped (h : Spans ms b) (hend : MayEnd b ls) (hs : Swapped false (ms ++ ls) ks) :
    ∃ t, ks = ms ++ t ∧ MayEnd b t ∧ Swapped false ls t := by
  have hkept : ∃ t, ks = ms ++ t ∧ Swapped false ls t := by
    rcases h.solid_or_box with hsolid | ⟨l, us, e, rfl, hl, hus, he⟩
    · exact hs.exists_append hsolid
    · have hopens : l.isVacant = false :=
        not_isVacant_of_isDirective (isDirective_of_holds (by simp [Directive.all]) hl)
      have hs : Swapped false (l :: (us ++ e :: ls)) ks := by simpa using hs
      obtain ⟨c, vs, rfl, hleads, hrest⟩ := hs.exists_cons hopens
      cases hleads.unique (.opens hl)
      obtain ⟨t, rfl, ht⟩ := hrest.exists_box hus he
      exact ⟨t, by simp, ht⟩
  obtain ⟨t, rfl, ht⟩ := hkept
  refine ⟨t, rfl, ?_, ht⟩
  rcases ht.head with heq | hv
  · exact hend.of_head? heq
  · exact mayEnd_of_ends b fun m hm => .inl (hv m hm)

/-- **Other vacant lines.** The same blocks are read with other vacant lines outside boxes. -/
theorem Reads.swapped (h : Reads ls bs r) (hs : Swapped false ls ks) :
    ∃ t, Reads ks bs t ∧ Swapped false r t := by
  induction h generalizing ks with
  | stop hend =>
    cases hs with
    | nil => exact ⟨[], .stop rfl, .nil⟩
    | left hv | swap hv _ _ => simp [not_isVacant_of_atBranchEnd hend] at hv
    | right hv => exact ⟨[], .vacant hv (.stop rfl), .nil⟩
    | keep hleads hrest => exact ⟨_, .stop hend, .keep hleads hrest⟩
  | vacant hl _ ih =>
    cases hs with
    | left _ => exact ih .nil
    | keep hleads hrest =>
      cases hleads.unique (leads_of_isVacant hl)
      obtain ⟨t, ht, hrt⟩ := ih hrest
      exact ⟨t, .vacant hl ht, hrt⟩
    | swap _ hm hrest =>
      obtain ⟨t, ht, hrt⟩ := ih hrest
      exact ⟨t, .vacant hm ht, hrt⟩
  | plain hms hend _ ih =>
    obtain ⟨t, rfl, hend', ht⟩ := hms.swapped hend hs
    obtain ⟨u, hu, hru⟩ := ih ht
    exact ⟨u, .plain hms hend' hu, hru⟩
  | conditional hl _ he _ ihthen ih =>
    obtain ⟨vs, rfl, hvs⟩ := hs.exists_solid (solid_of_openingText hl)
    obtain ⟨t, ht, hafter⟩ := ihthen hvs
    obtain ⟨ws, rfl, hws⟩ := hafter.exists_solid (solid_of_directiveText (by simp) he)
    obtain ⟨u, hu, hru⟩ := ih hws
    exact ⟨u, .conditional hl ht he hu, hru⟩
  | conditionalElse hl _ he _ hd _ ihthen ihelse ih =>
    obtain ⟨vs, rfl, hvs⟩ := hs.exists_solid (solid_of_openingText hl)
    obtain ⟨t, ht, hafter⟩ := ihthen hvs
    obtain ⟨ws, rfl, hws⟩ := hafter.exists_solid (solid_of_directiveText (by simp) he)
    obtain ⟨t', ht', hafter'⟩ := ihelse hws
    obtain ⟨xs, rfl, hxs⟩ := hafter'.exists_solid (solid_of_directiveText (by simp) hd)
    obtain ⟨u, hu, hru⟩ := ih hxs
    exact ⟨u, .conditionalElse hl ht he ht' hd hu, hru⟩

end Block

/-! ## Documents -/

namespace Document

open Line

variable {ls ks ms r : List Line} {es : List (String × String)}

theorem solid_of_front {l : Line} (h : Fence l.text ∨ ∃ e, entryText l.text = .ok e []) :
    Solid l := by
  obtain ⟨c, hi, hc, hne⟩ := exists_initial_of_front h
  exact solid_of_initial hi hc hne

theorem Entries.solid (h : Entries ms es) : ∀ m ∈ ms, Solid m :=
  forall_of_forall₂ h fun he => solid_of_front (.inr ⟨_, he⟩)

theorem Bare.swapped (h : Bare ls es r) (hs : Swapped false ls ks) :
    ∃ t, Bare ks es t ∧ Swapped false r t := by
  obtain ⟨hne, ms, rfl, hms, hr⟩ := h
  obtain ⟨t, rfl, ht⟩ := hs.exists_append hms.solid
  exact ⟨t, ⟨hne, ms, rfl, hms, ht.vacant_head hr⟩, ht⟩

/-- The same front matter is read with other vacant lines. -/
theorem Front.swapped (h : Front ls es r) (hs : Swapped false ls ks) :
    ∃ t, Front ks es t ∧ Swapped false r t := by
  cases h with
  | fenced hl hb hms he =>
    obtain ⟨us, rfl, hus⟩ := hs.exists_solid (solid_of_front (.inl hl))
    obtain ⟨vs, rfl, hvs⟩ := hus.exists_append hms.solid
    obtain ⟨t, rfl, ht⟩ := hvs.exists_solid (solid_of_front (.inl he))
    exact ⟨t, .fenced hl hb hms he, ht⟩
  | bare hbare =>
    obtain ⟨t, hbare', ht⟩ := hbare.swapped hs
    exact ⟨t, .bare hbare', ht⟩
  | absent hfence hbare =>
    refine ⟨ks, .absent (fun k hk hkfence => ?_) fun es t hbare' => ?_, hs⟩
    · obtain ⟨vs, rfl⟩ := List.head?_eq_some_iff.mp hk
      obtain ⟨us, rfl, -⟩ := hs.symm.exists_solid (solid_of_front (.inl hkfence))
      exact hfence k rfl hkfence
    · obtain ⟨r, hback, -⟩ := hbare'.swapped hs.symm
      exact hbare es r hback

theorem swapped_ofText? {t u : String} {d : Document} (h : ofText? t = .ok d)
    (hs : Swapped false (Line.split t.toList) (Line.split u.toList)) : ofText? u = .ok d := by
  obtain ⟨ms, hfront, hreads⟩ := ofText?_eq_ok.mp h
  obtain ⟨ks, hfront', hks⟩ := hfront.swapped hs.dropWhile
  obtain ⟨r, hreads', hr⟩ := hreads.swapped hks
  have hend : r = [] := by
    cases hr with
    | nil => rfl
    | right hv => simp [Block.not_isVacant_of_atBranchEnd hreads'.stops] at hv
  subst hend
  exact ofText?_eq_ok.mpr ⟨ks, hfront', hreads'⟩

/-- A text that can be read is tidy. -/
theorem tidy_of_ofText? {t : String} {d : Document} (h : ofText? t = .ok d) :
    Tidy false (Line.split t.toList) := by
  obtain ⟨ms, hfront, hreads⟩ := ofText?_eq_ok.mp h
  obtain ⟨fs, hlines, hfs⟩ := hfront.exists_lines
  have hbody : Tidy false (fs ++ ms) :=
    (hreads.tidy .nil).append fun l hl => .inr (solid_of_front (hfs l hl))
  have hsplit := List.takeWhile_append_dropWhile (p := isVacant) (l := Line.split t.toList)
  rw [← hsplit, hlines]
  exact hbody.append fun l hl => .inl (List.mem_takeWhile_imp hl)

/-- **Blank lines that can be emptied.** A text of which some blank lines are emptied, outside boxes
of next steps, is read like the text itself if these lines hold spaces and tabs only. If one of them
holds another blank, the text itself cannot be read. -/
theorem read_emptied_iff {t u : String} {d : Document}
    (h : Emptied Blank false (Line.split t.toList) (Line.split u.toList)) :
    ofText? t = .ok d ↔
      Emptied (·.isVacant = true) false (Line.split t.toList) (Line.split u.toList) ∧
        ofText? u = .ok d := by
  have hwhole := Line.whole_split t.toList
  constructor
  · intro hread
    have hvacant := h.vacant_of_tidy (tidy_of_ofText? hread)
    exact ⟨hvacant, swapped_ofText? hread (hvacant.swapped hwhole)⟩
  · rintro ⟨hvacant, hread⟩
    exact swapped_ofText? hread (hvacant.swapped hwhole).symm

/-- A paragraph and a box of next steps, with a blank line between them, in the box and at the
end. -/
def airyText : String := "a\n \t\n$NEXTSTEPS\n \n$ENDNEXTSTEPS\n "

theorem emptied_airyText : Emptied Blank false (Line.split airyText.toList)
    (Line.split "a\n\n$NEXTSTEPS\n \n$ENDNEXTSTEPS\n".toList) := by
  have hlines : Line.split airyText.toList = [⟨"a".toList, .lineFeed⟩, ⟨" \t".toList, .lineFeed⟩,
      ⟨"$NEXTSTEPS".toList, .lineFeed⟩, ⟨" ".toList, .lineFeed⟩,
      ⟨"$ENDNEXTSTEPS".toList, .lineFeed⟩, ⟨" ".toList, .none⟩] := by decide
  have hmine : ∀ {n : String} {e : LineBreak}, Holds n ⟨n.toList, e⟩ :=
    ⟨[], [], spaces_nil, spaces_nil, by simp⟩
  have hvacant : ¬ Holds "$ENDNEXTSTEPS" ⟨" ".toList, .lineFeed⟩ :=
    not_holds_of_not_isDirective (by simp [Directive.all]) (by decide)
  have hfirst : Solid ⟨"a".toList, .lineFeed⟩ :=
    solid_of_initial (x := 'a') rfl (by decide) (by decide)
  rw [hlines]
  exact .keep (.outside hfirst.not_opens) <| .clear (isBlank_of_isVacant rfl) <|
    .keep (.opens hmine) <| .keep (.inside hvacant) <| .keep (.closes hmine) <|
      .clear (isBlank_of_isVacant rfl) .nil

theorem read_emptied_airyText :
    ofText? airyText = .ok ⟨[], [.paragraph "a", .nextSteps " "]⟩ ∧
      Emptied Blank false (Line.split airyText.toList)
        (Line.split "a\n\n$NEXTSTEPS\n \n$ENDNEXTSTEPS\n".toList) ∧
      ofText? "a\n\n$NEXTSTEPS\n \n$ENDNEXTSTEPS\n" =
        .ok ⟨[], [.paragraph "a", .nextSteps " "]⟩ := by
  have hread : ofText? airyText = .ok ⟨[], [.paragraph "a", .nextSteps " "]⟩ := by
    with_unfolding_all rfl
  exact ⟨hread, emptied_airyText, ((read_emptied_iff emptied_airyText).mp hread).2⟩

/-- A line with a no-break space ends a paragraph and cannot be skipped: emptied it separates two
paragraphs, as it is it makes its text unreadable. -/
theorem unread_no_break_space :
    Emptied Blank false (Line.split "a\n\u00a0\nb".toList) (Line.split "a\n\nb".toList) ∧
      ofText? "a\n\nb" = .ok ⟨[], [.paragraph "a", .paragraph "b"]⟩ ∧
      ∀ d, ofText? "a\n\u00a0\nb" ≠ .ok d := by
  have hlines : Line.split "a\n\u00a0\nb".toList = [⟨"a".toList, .lineFeed⟩,
      ⟨"\u00a0".toList, .lineFeed⟩, ⟨"b".toList, .none⟩] := by decide
  have hfirst : Solid ⟨"a".toList, .lineFeed⟩ :=
    solid_of_initial (x := 'a') rfl (by decide) (by decide)
  have hlast : Solid ⟨"b".toList, .none⟩ := solid_of_initial (x := 'b') rfl (by decide) (by decide)
  have hblank : Blank ⟨"\u00a0".toList, .lineFeed⟩ := by
    unfold Blank
    decide
  refine ⟨?_, by with_unfolding_all rfl, fun d hd => ?_⟩
  · rw [hlines]
    exact .keep (.outside hfirst.not_opens) <| .clear hblank <|
      .keep (.outside hlast.not_opens) .nil
  · have htidy := tidy_of_ofText? hd
    rw [hlines] at htidy
    cases htidy with
    | cons hleads _ hrest =>
      cases hleads.unique (.outside hfirst.not_opens)
      cases hrest with
      | cons _ hvacant _ => exact absurd (hvacant rfl hblank) (by decide)

end Document

end Interview
