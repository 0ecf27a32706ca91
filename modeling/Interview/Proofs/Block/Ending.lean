import Interview.Proofs.Block.Grammar

/-!
# How the lines that close blocks end

A line may hold carriage returns, but the last line of a block does not end in one: after a word,
a bracket or a trimmed text come spaces only. So a line feed put after such a line is its break,
and does not make a carriage return part of it.

* `Closes.bind`, `closes_restTrimmed` and so on: readers of lines that end so.
* `Clause.ended_of_spells`: conditions end so too.
* `Block.Spans.last_ended`, `Block.Reads.last`: the last line of a block, and of a list of blocks.
-/

namespace Interview

open Reader Text Word

namespace Text

variable {s t : List Char} {c : Char}

/-- A text that is not all spaces, and whose last character is no carriage return. -/
structure Ended (s : List Char) : Prop where
  not_spaces : ¬ Spaces s
  last : s.getLast? ≠ some '\r'

theorem ended_of_not_mem (hr : '\r' ∉ s) (h : ¬ Spaces s) : Ended s :=
  ⟨h, fun hlast => hr (List.mem_of_getLast? hlast)⟩

theorem ended_singleton (h : isSpace c = false) (hr : c ≠ '\r') : Ended [c] := by
  refine ended_of_not_mem (by simpa [eq_comm] using hr) fun hs => ?_
  simp [hs c (by simp)] at h

theorem Ended.append (s : List Char) (h : Ended t) : Ended (s ++ t) := by
  refine ⟨fun hs => h.not_spaces (spaces_append.mp hs).2, ?_⟩
  have hne : t ≠ [] := by
    rintro rfl
    exact h.not_spaces spaces_nil
  rw [List.getLast?_append_of_ne_nil _ hne]
  exact h.last

theorem Ended.append_spaces {p : List Char} (h : Ended s) (hp : Spaces p) : Ended (s ++ p) := by
  refine ⟨fun hs => h.not_spaces (spaces_append.mp hs).1, fun hlast => ?_⟩
  cases hnil : p.getLast? with
  | none =>
    obtain rfl := List.getLast?_eq_none_iff.mp hnil
    exact h.last (by simpa using hlast)
  | some c =>
    rw [List.getLast?_append, hnil] at hlast
    cases hlast
    exact not_mem_of_spaces hp (List.mem_of_getLast? hnil)

end Text

namespace Reader

variable {α β : Type} {p : Reader Char α} {f : α → Reader Char β}

/-- A text that `p` reads to its end is not all spaces and does not end in a carriage return. -/
def Closes (p : Reader Char α) : Prop := ∀ ⦃s a⦄, p s = .ok a [] → Ended s

theorem Closes.bind (hp : Keeps p) (hf : ∀ a, Closes (f a)) : Closes (p >>= f) := by
  intro s b h
  obtain ⟨a, t, ha, hb⟩ := bind_eq_ok.mp h
  obtain ⟨u, rfl⟩ := hp ha
  exact (hf a hb).append u

theorem Closes.bind_pure (hp : Closes p) (g : α → β) :
    Closes (p >>= fun a => (pure (g a) : Reader Char β)) := by
  intro s b h
  obtain ⟨a, t, ha, hb⟩ := bind_eq_ok.mp h
  cases hb
  exact hp ha

theorem Closes.within_commit (hp : Closes p) (c : String) : Closes (p.commit.within c) := by
  intro s a h
  rw [within_eq_ok, commit_eq_ok] at h
  exact hp h

theorem closes_restTrimmed : Closes restTrimmed := by
  intro s a h
  obtain ⟨hr, htrim, -⟩ := restTrimmed_eq_ok.mp h
  refine ended_of_not_mem hr fun hs => htrim ?_
  have hnil : trim ([] ++ s) = [] := trim_append_spaces hs
  exact hnil

/-- A mark, and spaces to the end of the line. -/
theorem closes_mark {c : Char} (h : isSpace c = false) (hr : c ≠ '\r') (a : α) :
    Closes (mark c >>= fun _ => spaces >>= fun _ => finished >>= fun _ =>
      (pure a : Reader Char α)) := by
  intro s b hs
  simp only [bind_eq_ok, mark_iff, spaces_iff, finished_eq_ok] at hs
  obtain ⟨_, t, rfl, _, _, ⟨g, hg, rfl, -⟩, _, _, ⟨rfl, -⟩, -⟩ := hs
  rw [List.append_nil]
  exact (ended_singleton h hr).append_spaces hg

end Reader

namespace Word

theorem SpellsValue.ended {w : List Char} {v : String} (h : SpellsValue w v) : Ended w := by
  cases h with
  | @quoted q cs hq _ =>
    have hmark : Ended [q] := by
      rcases hq with rfl | rfl <;> exact ended_singleton (by decide) (by decide)
    exact hmark.append (q :: cs)
  | @bare cs hne hall =>
    refine ended_of_not_mem (fun hr => absurd (hall _ hr) (by decide)) fun hs => ?_
    obtain ⟨c, cs, rfl⟩ := List.exists_cons_of_ne_nil hne
    have := isBareChar_of_isSpace (hs c List.mem_cons_self)
    simp [hall c List.mem_cons_self] at this

theorem ended_of_bracketed {left right : Char} {gap : List Char → Prop} {w : List Char}
    {vs : List String} (hright : Ended [right]) (h : Bracketed left right gap w vs) : Ended w := by
  obtain ⟨a, l, b, -, -, -, rfl⟩ := h
  exact (((hright.append b).append l).append a).append [left]

end Word

namespace Clause

variable {w : List Char} {c : Clause}

theorem ended_of_spellsSingle (h : SpellsSingle w c) : Ended w := by
  have hparenthesis : Ended [')'] := ended_singleton (by decide) (by decide)
  cases h with
  | otherwise =>
    exact ended_of_not_mem (by decide) fun hs => absurd (hs 'o' (by decide)) (by decide)
  | @emptyCall n a _ _ => exact ((hparenthesis.append a).append ['(']).append n
  | @call n l vs _ hl => exact (ended_of_bracketed hparenthesis hl).append n
  | @membership n g h l vs _ _ _ _ hl =>
    have hlist : Ended l := hl.elim (ended_of_bracketed hparenthesis)
      (ended_of_bracketed (ended_singleton (by decide) (by decide)))
    exact (((hlist.append h).append _).append g).append n
  | @equality n g h w v _ _ _ _ _ hw => exact (((hw.ended.append h).append _).append g).append n
  | @order n g o h w v _ _ _ _ _ _ _ _ hw =>
    exact (((hw.ended.append h).append o).append g).append n
  | @named n _ hlast =>
    obtain ⟨m, rfl⟩ := List.getLast?_eq_some_iff.mp hlast
    exact (ended_singleton (by decide) (by decide)).append m

theorem ended_of_listed {gap : List Char → Prop} {cs : List Clause}
    (h : Listed SpellsSingle gap w cs) : Ended w := by
  induction h with
  | one h => exact ended_of_spellsSingle h
  | more _ _ _ ih => exact (ih.append _).append _

/-- A spelling of a condition does not end in a space or a carriage return. -/
theorem ended_of_spells (h : Spells w c) : Ended w := by
  cases h with
  | single h => exact ended_of_spellsSingle h
  | conjunction h => exact ended_of_listed h

end Clause

/-! ## Lines -/

namespace Directive

theorem ended_of_directiveText {n : String} (h : n ∈ all) {s : List Char} {u : Unit}
    (hs : directiveText n s = .ok u []) : Ended s := by
  obtain ⟨x, hx⟩ := exists_name_dollar h
  obtain ⟨g, p, -, hp, rfl⟩ := (directiveText_iff h).mp hs
  refine (Ended.append_spaces ⟨fun hn => ?_, fun hlast => ?_⟩ hp).append g
  · exact absurd (hn '$' (by simp [hx])) (by decide)
  · exact absurd (last_not_blank h _ hlast) (by decide)

end Directive

namespace Prose

theorem closes_headingText : Closes headingText :=
  .bind loose_spaces.keeps fun _ => .bind (steady_mark (by decide)).keeps fun _ =>
    .bind loose_spaces1.keeps fun _ => closes_restTrimmed

end Prose

namespace Tag

theorem closes_startText : Closes startText := by
  rw [startText_eq]
  refine .bind steady_startStart.keeps fun _ => Closes.within_commit ?_ _
  exact .bind loose_spaces.keeps fun _ => .bind steady_identifier.keeps fun name =>
    .bind loose_spaces.keeps fun _ => closes_mark (by decide) (by decide) name

theorem closes_tag : Closes tag := by
  rw [tag_eq]
  refine .bind steady_tagStart.keeps fun _ => (Closes.within_commit ?_ _).bind_pure _
  exact .bind loose_spaces.keeps fun _ => .bind steady_identifier.keeps fun name =>
    .bind loose_options.keeps fun options => .bind loose_spaces.keeps fun _ =>
      closes_mark (by decide) (by decide) (name, options)

theorem closes_choice : Closes choice :=
  .bind loose_spaces.keeps fun _ => .bind steady_bulletMark.keeps fun _ =>
    .bind loose_spaces.keeps fun _ => .bind steady_identifier.keeps fun value =>
      .bind (steady_mark (by decide)).keeps fun _ => .bind loose_spaces.keeps fun _ =>
        closes_restTrimmed.bind_pure fun label => (value, label)

end Tag

namespace Bullet

variable {w : Nat} {c : Clause} {o : Option String} {s : List Char}

theorem ended_of_read (h : Read w c o s) : Ended s := by
  obtain ⟨t, hstem, hending⟩ := head_iff.mp h
  obtain ⟨g, m, k, u, -, -, -, -, -, rfl, hc⟩ := stem_iff.mp hstem
  obtain ⟨q, rfl, hq⟩ := Clause.spells_of_clause hc
  refine ((Ended.append k ?_).append [m]).append g
  rcases ending_iff.mp hending with ⟨-, ht⟩ | ⟨a, b, n, p, -, -, ⟨hne, hn⟩, hp, -, rfl⟩
  · exact (Clause.ended_of_spells hq).append_spaces ht
  · obtain ⟨d, n, rfl⟩ := List.exists_cons_of_ne_nil hne
    have hname : Ended (d :: n) := by
      refine ended_of_not_mem (fun hr => absurd (hn _ hr) (by decide)) fun hs => ?_
      have := isBlank_of_isSpace (hs d List.mem_cons_self)
      simp [hn d List.mem_cons_self] at this
    exact ((((hname.append_spaces hp).append b).append _).append a).append q

theorem Laid.ended {bs : List Bullet} {ls : List Line} (h : Laid Read w bs ls) :
    ∀ l ∈ ls, Ended l.text := h.forall Ended ended_of_read

end Bullet

namespace Block

variable {l : Line} {ls ms r : List Line} {b : Block} {bs : List Block}

theorem not_spaces_of_prosaic {s : List Char} (h : Prosaic s) : ¬ Spaces s := fun hs => by
  have hnil : trim ([] ++ s) = [] := trim_append_spaces hs
  exact not_blank_of_prosaic h hnil

/-- The last line of a block is not vacant and does not end in a carriage return. -/
theorem Spans.last_ended (h : Spans ms b) : ∀ m ∈ ms.getLast?, Ended m.text := by
  intro m hm
  cases h with
  | heading hl =>
    obtain rfl : _ = m := by simpa using hm
    exact Prose.closes_headingText hl
  | startButton hl =>
    obtain rfl : _ = m := by simpa using hm
    exact Tag.closes_startText hl
  | question hl _ =>
    obtain rfl : _ = m := by simpa using hm
    exact Tag.closes_tag hl
  | @choice l q ks cs _ _ hks hne =>
    have hall : ∀ k ∈ ks, Ended k.text := forall_of_forall₂ hks fun hk => Tag.closes_choice hk
    cases hks with
    | nil => exact absurd rfl hne
    | @cons k _ ks _ _ _ => exact hall m (List.mem_of_getLast? (by simpa using hm))
  | @nextSteps l e ks _ _ _ he =>
    obtain rfl : e = m := by
      rw [← List.cons_append, List.getLast?_append] at hm
      simpa using hm
    exact Directive.ended_of_directiveText (by simp [Directive.all]) he
  | rules _ hlaid => exact hlaid.ended m (List.mem_of_getLast? hm)
  | paragraph _ hks =>
    have hp := hks m (List.mem_of_getLast? hm)
    exact ended_of_not_mem hp.1 (not_spaces_of_prosaic hp)

/-- The last of the lines, if there are any, does not end in a carriage return. -/
def Unreturned (ls : List Line) : Prop := ∀ l ∈ ls.getLast?, l.text.getLast? ≠ some '\r'

theorem unreturned_singleton (h : l.text.getLast? ≠ some '\r') : Unreturned [l] := by
  intro m hm
  obtain rfl : l = m := by simpa using hm
  exact h

theorem Unreturned.append (hms : Unreturned ms) (hls : Unreturned ls) : Unreturned (ms ++ ls) := by
  intro l hl
  rw [List.getLast?_append] at hl
  rcases Option.or_eq_some_iff.mp hl with hl | ⟨-, hl⟩
  · exact hls l hl
  · exact hms l hl

/-- Lines before one that ends so make no difference. -/
theorem Unreturned.append_left (ls : List Line) (h : Unreturned (l :: ms)) :
    Unreturned (ls ++ l :: ms) := by
  intro m hm
  rw [List.getLast?_append_of_ne_nil _ (by simp)] at hm
  exact h m hm

/-- The last of the lines of a list of blocks does not end in a carriage return. -/
theorem Reads.last (h : Reads ls bs r) : ∃ ks, ls = ks ++ r ∧ Unreturned ks := by
  have hend : ∀ {e : Line} {n u}, n ∈ Directive.all → Directive.directiveText n e.text = .ok u [] →
      Unreturned [e] :=
    fun hn he => unreturned_singleton (Directive.ended_of_directiveText hn he).last
  induction h with
  | stop _ => exact ⟨[], rfl, nofun⟩
  | @vacant l ls r bs hv _ ih =>
    obtain ⟨ks, rfl, hks⟩ := ih
    have hl : Unreturned [l] := unreturned_singleton fun hlast =>
      not_mem_of_spaces (Line.isVacant_iff.mp hv) (List.mem_of_getLast? hlast)
    exact ⟨[l] ++ ks, rfl, hl.append hks⟩
  | @plain ms ls r b bs hms _ _ ih =>
    obtain ⟨ks, rfl, hks⟩ := ih
    have hlast : Unreturned ms := fun m hm => (hms.last_ended m hm).last
    exact ⟨ms ++ ks, by simp, hlast.append hks⟩
  | @conditional l e ls ms r c bs cs _ _ he _ ihthen ih =>
    obtain ⟨ks, rfl, -⟩ := ihthen
    obtain ⟨us, rfl, hus⟩ := ih
    have he := hend (by simp [Directive.all]) he
    exact ⟨(l :: ks ++ [e]) ++ us, by simp, (he.append_left _).append hus⟩
  | @conditionalElse l e d ls ms ks r c bs es cs _ _ _ _ hd _ ihthen ihelse ih =>
    obtain ⟨us, rfl, -⟩ := ihthen
    obtain ⟨vs, rfl, -⟩ := ihelse
    obtain ⟨ws, rfl, hws⟩ := ih
    have hd := hend (by simp [Directive.all]) hd
    exact ⟨(l :: us ++ e :: vs ++ [d]) ++ ws, by simp, (hd.append_left _).append hws⟩

end Block

end Interview
