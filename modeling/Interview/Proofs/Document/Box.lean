import Interview.Proofs.Document.Composition
import Interview.Proofs.Document.Form

/-!
# Boxes of next steps

The lines between `$NEXTSTEPS` and `$ENDNEXTSTEPS` are kept as they are: no directive, tag,
heading or bullet among them is read as one, at the top of a text and in every branch.

* `Document.Encloses`: the texts in which a text stands, at any depth, and what they are read as.
* `Line.split_intercalate`: lines put together with line feeds are taken apart again.
* `Document.box_verbatim`: what is read of a box.
-/

namespace Interview

open Reader Text Word

namespace Document

variable {bs cs ds : List Block} {t u v q : String} {c : Clause}

/-! ## Texts inside others -/

/-- The text of a conditional with a text in its only branch. -/
def branched (q t : String) : String := "$IF " ++ q ++ "\n" ++ t ++ "\n$ENDIF"

/-- A body in the only branch of a conditional is a body. -/
theorem BodyOnly.branched (ht : BodyOnly t bs) (hq : Clause.clause q.toList = .ok c [])
    (hfeed : '\n' ∉ q.toList) : BodyOnly (branched q t) [.conditional c bs []] := by
  obtain ⟨-, hreads⟩ := bodyOnly_iff.mp ht
  refine bodyOnly_of_opening (v := t.toList ++ '\n' :: "$ENDIF".toList)
    (by simp [Document.branched]) hq hfeed ?_
  exact .conditional (openingText_of_clause hq) (reads_before_end hreads)
    (directiveText_self (by simp [Directive.all])) (.stop rfl)

/-- A line feed at the end of a body makes no difference. -/
theorem BodyOnly.feed (ht : BodyOnly t bs) : BodyOnly (t ++ "\n") bs := by
  obtain ⟨htop, hreads⟩ := bodyOnly_iff.mp ht
  have htext : (t ++ "\n").toList = t.toList ++ '\n' :: [] := by simp
  rw [bodyOnly_iff, htext]
  constructor
  · obtain ⟨ms, hlines, hms⟩ := split_body_feed hreads []
    rw [hlines]
    have hnone : ∀ l ∈ (Line.split []).head?, l.isVacant = true := by simp [Line.split]
    apply htop.append (head_of_vacant hms hnone)
    rw [List.dropWhile_append_of_pos hms]
    exact unheaded_nil
  · have hends : Bullet.Ends (Line.split []) := by simp [Bullet.Ends, Line.split]
    have hrest := reads_feed hreads hends (.stop rfl)
    rwa [List.append_nil] at hrest

/-- The texts with the blocks in which a text `t` with the blocks `bs` stands: before and after
other bodies, and in the branches of conditionals, at any depth. -/
inductive Encloses (t : String) (bs : List Block) : String → List Block → Prop
  | itself : Encloses t bs t bs
  | feed {u : String} {cs : List Block} : Encloses t bs u cs → Encloses t bs (u ++ "\n") cs
  | before {u v : String} {cs ds : List Block} : Encloses t bs u cs → BodyOnly v ds →
      Encloses t bs (u ++ "\n\n" ++ v) (cs ++ ds)
  | after {u v : String} {cs ds : List Block} : BodyOnly v ds → Encloses t bs u cs →
      Encloses t bs (v ++ "\n\n" ++ u) (ds ++ cs)
  | onlyBranch {u q : String} {c : Clause} {cs : List Block} :
      Clause.clause q.toList = .ok c [] → '\n' ∉ q.toList → Encloses t bs u cs →
      Encloses t bs (branched q u) [.conditional c cs []]
  | thenBranch {u v q : String} {c : Clause} {cs ds : List Block} :
      Clause.clause q.toList = .ok c [] → '\n' ∉ q.toList → Encloses t bs u cs → BodyOnly v ds →
      Encloses t bs (wrapped q u v) [.conditional c cs ds]
  | elseBranch {u v q : String} {c : Clause} {cs ds : List Block} :
      Clause.clause q.toList = .ok c [] → '\n' ∉ q.toList → BodyOnly v ds → Encloses t bs u cs →
      Encloses t bs (wrapped q v u) [.conditional c ds cs]

/-- What a body is read as inside other texts. -/
theorem Encloses.body (h : Encloses t bs u cs) (ht : BodyOnly t bs) : BodyOnly u cs := by
  induction h with
  | itself => exact ht
  | feed _ ih => exact ih.feed
  | before _ hv ih => exact ih.append hv
  | after hv _ ih => exact hv.append ih
  | onlyBranch hq hfeed _ ih => exact ih.branched hq hfeed
  | thenBranch hq hfeed _ hv ih => exact ih.wrapped hv hq hfeed
  | elseBranch hq hfeed hv _ ih => exact hv.wrapped ih hq hfeed

end Document

/-! ## Lines put together -/

theorem not_mem_intercalate {α : Type} {a : α} {g : List α} {xs : List (List α)} (hg : a ∉ g)
    (h : ∀ x ∈ xs, a ∉ x) : a ∉ g.intercalate xs := by
  induction xs with
  | nil => simp
  | cons x xs ih =>
    obtain ⟨hx, hxs⟩ := List.forall_mem_cons.mp h
    cases xs with
    | nil => simpa using hx
    | cons y xs =>
      rw [List.intercalate_cons_cons]
      simp only [List.mem_append, not_or]
      exact ⟨⟨hx, hg⟩, ih hxs⟩

namespace Line

/-- Lines put together with line feeds are taken apart again. -/
theorem split_intercalate {xs : List (List Char)} {x : List Char}
    (hxs : ∀ y ∈ xs, '\n' ∉ y ∧ '\r' ∉ y) (hx : '\n' ∉ x) (hne : x ≠ []) :
    split (['\n'].intercalate (xs ++ [x])) = xs.map (⟨·, .lineFeed⟩) ++ [⟨x, .none⟩] := by
  induction xs with
  | nil => simpa using split_last hx hne
  | cons y xs ih =>
    obtain ⟨⟨hfeed, hreturn⟩, hxs⟩ := List.forall_mem_cons.mp hxs
    have hline := split_line (b := .lineFeed) (r := ['\n'].intercalate (xs ++ [x])) hfeed nofun
      fun _ h => hreturn (List.mem_of_getLast? h)
    rw [List.cons_append, List.intercalate_cons_of_ne_nil (by simp), List.append_assoc]
    rw [ih hxs] at hline
    exact hline

end Line

namespace Prose

variable {s : List Char}

theorem eq_replicate_of_breaks (h : '\r' ∉ s) (hs : ∀ c ∈ s, isBreakChar c = true) :
    s = List.replicate s.length '\n' := by
  refine List.eq_replicate_of_mem fun c hc => ?_
  have hbreak := hs c hc
  simp only [isBreakChar, Bool.or_eq_true, beq_iff_eq] at hbreak
  exact hbreak.resolve_right fun hr => h (hr ▸ hc)

/-- Nothing but breaks is taken away at the two ends. -/
theorem exists_breaks_trimBreaks (s : List Char) : ∃ u v, s = u ++ (trimBreaks s ++ v) ∧
    (∀ c ∈ u, isBreakChar c = true) ∧ ∀ c ∈ v, isBreakChar c = true := by
  refine ⟨s.takeWhile isBreakChar,
    ((s.dropWhile isBreakChar).reverse.takeWhile isBreakChar).reverse, ?_,
    fun c hc => List.mem_takeWhile_imp hc,
    fun c hc => List.mem_takeWhile_imp (List.mem_reverse.mp hc)⟩
  rw [trimBreaks, ← List.reverse_append, List.takeWhile_append_dropWhile, List.reverse_reverse,
    List.takeWhile_append_dropWhile]

theorem exists_feeds_trimBreaks (h : '\r' ∉ s) :
    ∃ m n, s = List.replicate m '\n' ++ (trimBreaks s ++ List.replicate n '\n') := by
  obtain ⟨u, v, hs, hu, hv⟩ := exists_breaks_trimBreaks s
  have hreturn : '\r' ∉ u ∧ '\r' ∉ v := by
    rw [hs] at h
    simp only [List.mem_append, not_or] at h
    exact ⟨h.1, h.2.2⟩
  refine ⟨u.length, v.length, ?_⟩
  rw [← eq_replicate_of_breaks hreturn.1 hu, ← eq_replicate_of_breaks hreturn.2 hv]
  exact hs

end Prose

/-! ## Boxes -/

namespace Document

/-- A line that can stand in a box: no break is in it, and it does not end the box. -/
structure Boxed (l : List Char) : Prop where
  not_feed : '\n' ∉ l
  not_return : '\r' ∉ l
  not_end : ∀ g p, Spaces g → Spaces p → l ≠ g ++ ("$ENDNEXTSTEPS".toList ++ p)

/-- The text of a box of next steps with some lines. -/
def box (lines : List String) : String :=
  "\n".intercalate ("$NEXTSTEPS" :: (lines ++ ["$ENDNEXTSTEPS"]))

/-- The lines of a box, with the break `e` after the last. -/
def boxLines (lines : List String) (e : LineBreak) : List Line :=
  ("$NEXTSTEPS" :: lines).map (fun l => ⟨l.toList, .lineFeed⟩) ++ [⟨"$ENDNEXTSTEPS".toList, e⟩]

variable {lines : List String}

theorem split_box (h : ∀ l ∈ lines, Boxed l.toList) :
    Line.split (box lines).toList = boxLines lines .none := by
  have hsame : (box lines).toList = ['\n'].intercalate
      (("$NEXTSTEPS" :: lines).map String.toList ++ ["$ENDNEXTSTEPS".toList]) := by
    rw [box, String.toList_intercalate]
    simp
  have hall : ∀ y ∈ ("$NEXTSTEPS" :: lines).map String.toList, '\n' ∉ y ∧ '\r' ∉ y := by
    simpa using fun l hl => ⟨(h l hl).not_feed, (h l hl).not_return⟩
  rw [hsame, Line.split_intercalate hall (by decide) (by decide), boxLines, List.map_map]
  rfl

/-- The lines of a box spell one block. -/
theorem spans_box (h : ∀ l ∈ lines, Boxed l.toList) (e : LineBreak) :
    Block.Spans (boxLines lines e) (.nextSteps
      (String.ofList (Prose.trimBreaks ("\n".intercalate lines).toList))) := by
  have hinside : ∀ m ∈ lines.map fun l => (⟨l.toList, .lineFeed⟩ : Line),
      Misses (Directive.directiveText "$ENDNEXTSTEPS") m.text ∧ '\r' ∉ m.text ∧
        m.ending ≠ .none := by
    intro m hm
    obtain ⟨l, hl, rfl⟩ := List.mem_map.mp hm
    refine ⟨(Directive.tentative_directiveText _).misses_iff.mpr fun u hu => ?_,
      (h l hl).not_return, by simp⟩
    obtain ⟨g, p, hg, hp, htext⟩ := (Directive.directiveText_iff (by simp [Directive.all])).mp hu
    exact (h l hl).not_end g p hg hp htext
  have hspans := Block.Spans.nextSteps (l := ⟨"$NEXTSTEPS".toList, .lineFeed⟩)
    (e := ⟨"$ENDNEXTSTEPS".toList, e⟩) (directiveText_self (by simp [Directive.all])) (by simp)
    hinside (directiveText_self (by simp [Directive.all]))
  rw [List.map_map] at hspans
  rw [String.toList_intercalate]
  exact hspans

theorem bodyOnly_box (h : ∀ l ∈ lines, Boxed l.toList) : BodyOnly (box lines) [.nextSteps
    (String.ofList (Prose.trimBreaks ("\n".intercalate lines).toList))] := by
  rw [bodyOnly_iff, split_box h]
  constructor
  · rw [boxLines, List.map_cons, List.cons_append,
      List.dropWhile_cons_of_neg (by simp [Line.isVacant, isSpace])]
    exact unheaded_of_first (by simp [isNameChar])
  · rw [← List.append_nil (boxLines lines _)]
    exact .plain (spans_box h .none) trivial (.stop rfl)

/-- **Boxes are verbatim.** Whatever the lines of a box are, as long as none of them ends it, the
box is one block whose text is the lines with line feeds between them, less the line feeds at the
two ends. Nothing in it is read as anything else, at the top of a text or in a branch at any
depth, and nothing in it ends a branch. -/
theorem box_verbatim (h : ∀ l ∈ lines, Boxed l.toList) :
    ∃ (t : String) (m n : Nat), ("\n".intercalate lines).toList =
        List.replicate m '\n' ++ (t.toList ++ List.replicate n '\n') ∧
      t.toList.head? ≠ some '\n' ∧ t.toList.getLast? ≠ some '\n' ∧
      ofText? (box lines) = .ok ⟨[], [.nextSteps t]⟩ ∧
      (∀ {u cs}, Encloses (box lines) [.nextSteps t] u cs → ofText? u = .ok ⟨[], cs⟩) ∧
      ∀ blocks e rest,
        Block.single blocks (boxLines lines e ++ rest) = .ok (.nextSteps t) rest := by
  have hreturn : '\r' ∉ ("\n".intercalate lines).toList := by
    rw [String.toList_intercalate]
    exact not_mem_intercalate (by decide) (by simpa using fun l hl => (h l hl).not_return)
  obtain ⟨m, n, hfeeds⟩ := Prose.exists_feeds_trimBreaks hreturn
  have hbox := bodyOnly_box h
  refine ⟨_, m, n, by rwa [String.toList_ofList], ?_, ?_, hbox.read,
    fun hu => (hu.body hbox).read,
    fun _ e _ => Block.single_of_spans (spans_box h e) trivial⟩ <;> rw [String.toList_ofList]
  · exact fun hfirst => absurd (Prose.head?_trimBreaks _ hfirst) (by decide)
  · exact fun hlast => absurd (Prose.getLast?_trimBreaks _ hlast) (by decide)

theorem box_verbatim_end : (∀ l ∈ ["", "$ENDIF", "* a => b"], Boxed l.toList) ∧
    ofText? (branched "x is 'y'" (box ["", "$ENDIF", "* a => b"])) = .ok ⟨[],
      [.conditional (.comparison "x" "is" "y") [.nextSteps "$ENDIF\n* a => b"] []]⟩ := by
  have hend : ∀ l ∈ ["", "$ENDIF", "* a => b"], ∀ g p, Spaces g → Spaces p →
      l.toList ≠ g ++ ("$ENDNEXTSTEPS".toList ++ p) := by
    intro l hl g p _ _ htext
    have hlong : ∀ l ∈ ["", "$ENDIF", "* a => b"], l.toList.length < 13 := by decide
    have hlen : l.toList.length = g.length + (13 + p.length) := by
      rw [htext, List.length_append, List.length_append]
      rfl
    have := hlong l hl
    omega
  have h : ∀ l ∈ ["", "$ENDIF", "* a => b"], Boxed l.toList := fun l hl =>
    ⟨by revert l; decide, by revert l; decide, hend l hl⟩
  obtain ⟨t, m, n, -, -, -, hread, hbranch, -⟩ := box_verbatim h
  have heval : ofText? (box ["", "$ENDIF", "* a => b"]) =
      .ok ⟨[], [.nextSteps "$ENDIF\n* a => b"]⟩ := by with_unfolding_all rfl
  obtain rfl : t = "$ENDIF\n* a => b" := by
    rw [hread] at heval
    simpa using heval
  exact ⟨h, hbranch (.onlyBranch (by with_unfolding_all rfl) (by decide) .itself)⟩

end Document

end Interview
