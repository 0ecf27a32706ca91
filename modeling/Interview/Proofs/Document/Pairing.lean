import Interview.Proofs.Document.Bracket
import Interview.Proofs.Document.Form

/-!
# Conditionals and the directives of a text

A text without boxes of next steps shows its conditionals in its directives: they are the brackets
met on a walk through the blocks that it spells.

* `Block.allBrackets`: the walk.
* `Block.Spans.not_isDirective`: no other block holds a directive line.
* `Block.Reads.bracketed`: what the lines of a list of blocks show.
* `Document.brackets_of_ofText?`: the same for a whole text.
-/

namespace Interview

open Reader Text Word

namespace Block

mutual

/-- The brackets of a block: one pair around the branches of a conditional. -/
def brackets : Block → List Bracket
  | .conditional _ thenBlocks elseBlocks =>
    .opens :: (allBrackets thenBlocks ++ (allBrackets elseBlocks ++ [.closes]))
  | .heading _ | .paragraph _ | .question _ | .startButton _ | .nextSteps _ | .rules _ => []

/-- The brackets of some blocks, in order. -/
def allBrackets : List Block → List Bracket
  | [] => []
  | b :: bs => brackets b ++ allBrackets bs

end

mutual

/-- The paragraphs of a block, those in the branches of a conditional included. -/
def paragraphs : Block → List String
  | .paragraph text => [text]
  | .conditional _ thenBlocks elseBlocks => allParagraphs thenBlocks ++ allParagraphs elseBlocks
  | .heading _ | .question _ | .startButton _ | .nextSteps _ | .rules _ => []

/-- The paragraphs of some blocks, in order. -/
def allParagraphs : List Block → List String
  | [] => []
  | b :: bs => paragraphs b ++ allParagraphs bs

end

variable {l : Line} {ls ms r : List Line} {b : Block} {bs : List Block}

theorem allParagraphs_eq_flatMap (bs : List Block) : allParagraphs bs = bs.flatMap paragraphs := by
  induction bs with
  | nil => rfl
  | cons b bs ih => rw [allParagraphs, ih, List.flatMap_cons]

/-- No paragraph of a formed block holds a directive line. -/
theorem Formed.not_isDirective (h : b.Formed) : ∀ t ∈ b.paragraphs, ∀ l ∈ Line.split t.toList,
    Directive.isDirective l.text = false := by
  induction h with
  | @paragraph t _ hlines =>
    intro u hu
    obtain rfl : u = t := by simpa [paragraphs] using hu
    exact fun l hl => (hlines l hl).2
  | conditional _ _ _ ihthen ihelse =>
    intro t ht
    simp only [paragraphs, allParagraphs_eq_flatMap, List.mem_append, List.mem_flatMap] at ht
    obtain ⟨b, hb, ht⟩ | ⟨b, hb, ht⟩ := ht
    · exact ihthen b hb t ht
    · exact ihelse b hb t ht
  | heading _ | question _ | startButton _ | nextSteps _ _ | rules _ _ =>
    intro t ht
    simp [paragraphs] at ht

/-! ## Lines that are no directives -/

theorem Spans.not_isDirective (h : Spans ms b)
    (hbox : ∀ l ∈ ms, Directive.opensWith "$NEXTSTEPS" l.text = false) :
    ∀ l ∈ ms, Directive.isDirective l.text = false := by
  have hb : ∀ t, b ≠ .nextSteps t := by
    rintro t rfl
    cases h with
    | nextSteps h _ _ _ =>
      have hopens := Directive.opensWith_of_directiveText (by simp [Directive.all]) h
      rw [hbox _ List.mem_cons_self] at hopens
      cases hopens
  intro l hl
  rcases h.prosaic_or_initial hb l hl with hprose | ⟨c, hi, hc, hne⟩
  · exact not_isDirective_of_prosaic hprose
  · exact Directive.not_isDirective_of_initial hi hc hne

/-! ## Lists of blocks -/

/-- What the lines of some blocks show: nested conditionals, those of the blocks, and no directive
line besides. -/
structure Bracketed (ls : List Line) (bs : List Block) : Prop where
  nested : Bracket.Nested (Bracket.ofLines ls)
  walk : (Bracket.ofLines ls).filter (· ≠ .turns) = allBrackets bs
  known : ∀ l ∈ ls, Directive.isDirective l.text = true → ∃ m, Bracket.ofText? l.text = some m

theorem bracketed_nil : Bracketed [] [] := ⟨.nil, rfl, nofun⟩

theorem Bracketed.skip (h : Bracketed ls bs) (hms : ∀ l ∈ ms, Directive.isDirective l.text = false) :
    Bracketed (ms ++ ls) bs := by
  have hnone : Bracket.ofLines (ms ++ ls) = Bracket.ofLines ls := by
    rw [Bracket.ofLines_append, Bracket.ofLines_eq_nil hms, List.nil_append]
  refine ⟨hnone ▸ h.nested, hnone ▸ h.walk, fun l hl hd => ?_⟩
  obtain hl | hl := List.mem_append.mp hl
  · rw [hms l hl] at hd
    cases hd
  · exact h.known l hl hd

theorem known_of_opensWith {m : Bracket} (h : Directive.opensWith m.word l.text = true) :
    Directive.isDirective l.text = true → ∃ m, Bracket.ofText? l.text = some m :=
  fun _ => ⟨m, Bracket.ofText?_eq_some.mpr h⟩

section Conditional

variable {e d : Line} {us vs ws : List Line} {c : Clause} {cs es : List Block}
  (hl : Directive.opensWith "$IF" l.text = true)

include hl

theorem Bracketed.single (he : Directive.opensWith "$ENDIF" e.text = true) (hthen : Bracketed us bs)
    (hrest : Bracketed ws cs) : Bracketed (l :: (us ++ e :: ws)) (.conditional c bs [] :: cs) := by
  have hlist : Bracket.ofLines (l :: (us ++ e :: ws)) =
      .opens :: (Bracket.ofLines us ++ .closes :: Bracket.ofLines ws) := by
    rw [Bracket.ofLines_cons (m := .opens) hl, Bracket.ofLines_append,
      Bracket.ofLines_cons (m := .closes) he]
  constructor
  · rw [hlist]
    exact .single hthen.nested hrest.nested
  · rw [hlist]
    simp [allBrackets, brackets, ← hthen.walk, ← hrest.walk]
  · simp only [List.forall_mem_cons, List.forall_mem_append]
    exact ⟨known_of_opensWith (m := .opens) hl, hthen.known,
      known_of_opensWith (m := .closes) he, hrest.known⟩

theorem Bracketed.double (he : Directive.opensWith "$ELSE" e.text = true)
    (hd : Directive.opensWith "$ENDIF" d.text = true) (hthen : Bracketed us bs)
    (helse : Bracketed vs es) (hrest : Bracketed ws cs) :
    Bracketed (l :: (us ++ e :: (vs ++ d :: ws))) (.conditional c bs es :: cs) := by
  have hlist : Bracket.ofLines (l :: (us ++ e :: (vs ++ d :: ws))) = .opens ::
      (Bracket.ofLines us ++ .turns :: (Bracket.ofLines vs ++ .closes :: Bracket.ofLines ws)) := by
    rw [Bracket.ofLines_cons (m := .opens) hl, Bracket.ofLines_append,
      Bracket.ofLines_cons (m := .turns) he, Bracket.ofLines_append,
      Bracket.ofLines_cons (m := .closes) hd]
  constructor
  · rw [hlist]
    exact .double hthen.nested helse.nested hrest.nested
  · rw [hlist]
    simp [allBrackets, brackets, ← hthen.walk, ← helse.walk, ← hrest.walk]
  · simp only [List.forall_mem_cons, List.forall_mem_append]
    exact ⟨known_of_opensWith (m := .opens) hl, hthen.known, known_of_opensWith (m := .turns) he,
      helse.known, known_of_opensWith (m := .closes) hd, hrest.known⟩

end Conditional

/-- The lines up to where a list of blocks ends show the conditionals of the blocks. -/
theorem Reads.bracketed (h : Reads ls bs r)
    (hbox : ∀ l ∈ ls, Directive.opensWith "$NEXTSTEPS" l.text = false) :
    ∃ us, ls = us ++ r ∧ Bracketed us bs := by
  induction h with
  | stop _ => exact ⟨[], rfl, bracketed_nil⟩
  | @vacant l ls r bs hv _ ih =>
    obtain ⟨us, rfl, hus⟩ := ih (List.forall_mem_cons.mp hbox).2
    exact ⟨l :: us, rfl,
      hus.skip (List.forall_mem_singleton.mpr (Line.not_isDirective_of_isVacant hv))⟩
  | @plain ms ls r b bs hb _ _ ih =>
    obtain ⟨hms, hls⟩ := List.forall_mem_append.mp hbox
    obtain ⟨us, rfl, hus⟩ := ih hls
    refine ⟨ms ++ us, by simp, ?_⟩
    have hnone : allBrackets (b :: bs) = allBrackets bs := by cases hb <;> rfl
    obtain ⟨hnested, hwalk, hknown⟩ := hus.skip (hb.not_isDirective hms)
    exact ⟨hnested, hwalk.trans hnone.symm, hknown⟩
  | conditional hl _ he _ ihthen ih =>
    obtain ⟨us, rfl, hus⟩ := ihthen (List.forall_mem_cons.mp hbox).2
    obtain ⟨ws, rfl, hws⟩ := ih fun m hm => hbox m (by simp [hm])
    have hends := Directive.opensWith_of_directiveText (Bracket.word_mem_all .closes) he
    exact ⟨_, by simp, .single (opensWith_of_openingText hl) hends hus hws⟩
  | conditionalElse hl _ he _ hd _ ihthen ihelse ih =>
    obtain ⟨us, rfl, hus⟩ := ihthen (List.forall_mem_cons.mp hbox).2
    obtain ⟨vs, rfl, hvs⟩ := ihelse fun m hm => hbox m (by simp [hm])
    obtain ⟨ws, rfl, hws⟩ := ih fun m hm => hbox m (by simp [hm])
    have hturns := Directive.opensWith_of_directiveText (Bracket.word_mem_all .turns) he
    have hends := Directive.opensWith_of_directiveText (Bracket.word_mem_all .closes) hd
    exact ⟨_, by simp, .double (opensWith_of_openingText hl) hturns hends hus hvs hws⟩

end Block

/-! ## Documents -/

namespace Document

/-- A line of front matter is no directive line. -/
theorem not_isDirective_of_front {s : List Char}
    (h : Fence s ∨ ∃ e, entryText s = .ok e []) : Directive.isDirective s = false := by
  obtain ⟨c, hi, hc, hne⟩ := exists_initial_of_front h
  exact Directive.not_isDirective_of_initial hi hc hne

/-- **Conditionals are the brackets of a text.** In a text without boxes of next steps the `$IF` and
`$ENDIF` lines are, in order, the brackets met on a walk through its blocks; they are balanced, each
`$ELSE` line lies directly inside one pair of its own, there is no other directive line, and no
directive line is part of a paragraph. -/
theorem brackets_of_ofText? {t : String} {d : Document} (h : ofText? t = .ok d)
    (hbox : ∀ l ∈ Line.split t.toList, Directive.opensWith "$NEXTSTEPS" l.text = false) :
    (Bracket.ofLines (Line.split t.toList)).filter (· ≠ .turns) = Block.allBrackets d.body ∧
      Bracket.Paired (Bracket.ofLines (Line.split t.toList)) ∧
      (∀ l ∈ Line.split t.toList, Directive.isDirective l.text = true →
        ∃ m, Bracket.ofText? l.text = some m) ∧
      ∀ p ∈ Block.allParagraphs d.body, ∀ l ∈ Line.split p.toList,
        Directive.isDirective l.text = false := by
  obtain ⟨ms, hfront, hbody⟩ := ofText?_eq_ok.mp h
  obtain ⟨fs, hlines, hfs⟩ := hfront.exists_lines
  have hsplit : (Line.split t.toList).takeWhile Line.isVacant ++ (fs ++ ms) = Line.split t.toList := by
    rw [← hlines, List.takeWhile_append_dropWhile]
  have hvacant : ∀ l ∈ (Line.split t.toList).takeWhile Line.isVacant,
      Directive.isDirective l.text = false :=
    fun l hl => Line.not_isDirective_of_isVacant (List.mem_takeWhile_imp hl)
  rw [← hsplit] at hbox ⊢
  obtain ⟨us, hus, hbracketed⟩ := hbody.bracketed fun l hl => hbox l (by simp [hl])
  obtain rfl : ms = us := by simpa using hus
  obtain ⟨hnested, hwalk, hknown⟩ := (hbracketed.skip fun l hl =>
    not_isDirective_of_front (hfs l hl)).skip hvacant
  refine ⟨hwalk, hnested.paired, hknown, fun p hp => ?_⟩
  rw [Block.allParagraphs_eq_flatMap] at hp
  obtain ⟨b, hb, hp⟩ := List.mem_flatMap.mp hp
  exact ((formed_of_ofText? h).body b hb).not_isDirective p hp

theorem brackets_of_ofText?_sample : ofText? sampleText = .ok sample ∧
    (∀ l ∈ Line.split sampleText.toList, Directive.opensWith "$NEXTSTEPS" l.text = false) ∧
    (Bracket.ofLines (Line.split sampleText.toList)).filter (· ≠ .turns) =
      [.opens, .opens, .closes, .closes] ∧
    Bracket.Paired (Bracket.ofLines (Line.split sampleText.toList)) ∧
    ∀ l ∈ Line.split "q".toList, Directive.isDirective l.text = false := by
  have hbox : ∀ l ∈ Line.split sampleText.toList,
      Directive.opensWith "$NEXTSTEPS" l.text = false := by decide +kernel
  obtain ⟨hwalk, hpaired, -, hprose⟩ := brackets_of_ofText? ofText?_sampleText hbox
  exact ⟨ofText?_sampleText, hbox, hwalk, hpaired, hprose "q" List.mem_cons_self⟩

end Document

end Interview
