import Interview.Text.Line

/-!
# Lines of parts of a text

Each line of a text is the only line of its own characters, and lines that follow one another in a
text are the lines of the text that they make up.

* `Line.split_chars`: one line.
* `Line.split_join`: lines that follow one another.
* `Line.exists_first`: the first line of a text reaches as far as there is no line feed.
-/

namespace Interview

namespace Line

variable {s t : List Char} {l : Line} {ls : List Line}

/-- A line of a text is the only line of its own characters. -/
theorem split_chars (h : l ∈ split s) : split l.chars = [l] := by
  fun_induction split s generalizing l with
  | case1 => cases h
  | case2 r ih | case3 r ih =>
    rcases List.mem_cons.mp h with rfl | h
    · rfl
    · exact ih h
  | case4 c r hc hreturn ih =>
    cases hr : split r with
    | nil =>
      rw [hr] at h
      obtain rfl := List.mem_singleton.mp h
      rw [show chars ⟨[c], .none⟩ = [c] from rfl, split_cons hc fun _ => by simp]
      rfl
    | cons k ks =>
      have hjoin := join_split r
      rw [hr] at h ih hjoin
      rcases List.mem_cons.mp h with rfl | h
      · have hfirst : c = '\r' → k.chars.head? ≠ some '\n' := by
          intro hcr hhead
          obtain ⟨x, hx⟩ := List.head?_eq_some_iff.mp hhead
          refine hreturn (x ++ join ks) hcr ?_
          rw [← hjoin, join_cons, hx, List.cons_append]
        rw [show chars { k with text := c :: k.text } = c :: k.chars from rfl,
          split_cons hc hfirst, ih List.mem_cons_self]
        rfl
      · exact ih (List.mem_cons_of_mem _ h)

theorem getLast?_chars (h : l.ending ≠ .none) : l.chars.getLast? = some '\n' := by
  unfold chars
  cases hl : l.ending with
  | none => exact absurd hl h
  | lineFeed | returnFeed => simp [LineBreak.chars]

/-- Lines that follow one another in a text are the lines of the text that they make up. -/
theorem split_join (h : ls <:+: split s) : split (join ls) = ls := by
  induction ls with
  | nil => rfl
  | cons l ls ih =>
    have hl := split_chars (h.subset List.mem_cons_self)
    have hls := ih ((List.suffix_cons l ls).isInfix.trans h)
    cases ls with
    | nil => simpa using hl
    | cons m ms =>
      obtain ⟨u, v, huv⟩ := h
      have hbreak : l.ending ≠ .none :=
        split_ending (u := u) (m := m) (v := ms ++ v) (by simpa using huv.symm)
      have hfeed : ∀ c, l.chars.getLast? = some c → c = '\n' := by
        intro c hc
        rw [getLast?_chars hbreak] at hc
        exact (Option.some.inj hc).symm
      rw [join_cons, split_append hfeed, hl, hls, List.singleton_append]

/-- The first line of a text reaches as far as there is no line feed. -/
theorem exists_first (hs : '\n' ∉ s) (hne : s ≠ []) (t : List Char) :
    ∃ l ls u, split (s ++ t) = l :: ls ∧ l.chars = s ++ u ∧ u <+: t := by
  obtain ⟨l, ls, hsplit⟩ := List.exists_cons_of_ne_nil
    (show split (s ++ t) ≠ [] from fun h => hne (List.append_eq_nil_iff.mp (split_eq_nil.mp h)).1)
  have hjoin := join_split (s ++ t)
  rw [hsplit, join_cons] at hjoin
  refine ⟨l, ls, ?_⟩
  rcases List.append_eq_append_iff.mp hjoin with ⟨w, hw, hls⟩ | ⟨u, hu, ht⟩
  · -- The line would end before the line feed that ends it, so it is the last one.
    have hnone : l.ending = .none := Decidable.byContradiction fun hbreak =>
      hs (by simp [hw, List.mem_of_getLast? (getLast?_chars hbreak)])
    obtain rfl : ls = [] := by
      cases ls with
      | nil => rfl
      | cons m ms => exact absurd hnone (split_ending (u := []) hsplit)
    obtain ⟨rfl, rfl⟩ := List.append_eq_nil_iff.mp hls.symm
    exact ⟨[], hsplit, by simpa using hw.symm, List.nil_prefix⟩
  · exact ⟨u, hsplit, hu, join ls, ht.symm⟩

end Line

end Interview
