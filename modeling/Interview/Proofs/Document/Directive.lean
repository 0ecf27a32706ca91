import Interview.Document.Directive
import Interview.Proofs.Reader.Exact

/-!
# Directive lines and vacant lines

What tells the lines that end a paragraph or a list apart from the others: a vacant line holds
spaces and tabs only, a directive line starts, after blanks, with a dollar sign.

* `Directive.exists_dollar`: how a directive line starts.
* `Directive.isDirective_append_spaces`: spaces at the end of a line make no difference.
* `Reader.atVacantLine_iff`, `Reader.atVacantLine_fails`: looking ahead for a vacant line.
-/

namespace Interview

open Reader Text

namespace Directive

variable {s t : List Char} {n : String}

theorem opensWith_first {c : Char} {x : List Char} (hn : n.toList = c :: x)
    (h : opensWith n s = true) : ∃ t, trimStart s = c :: t := by
  simp only [opensWith, Bool.and_eq_true, List.isPrefixOf_iff_prefix, hn] at h
  obtain ⟨⟨t, ht⟩, -⟩ := h
  have hend := trimEnd_append_takeWhile (trimStart s)
  rw [← trim, ← ht] at hend
  exact ⟨_, hend.symm⟩

theorem exists_name_dollar (h : n ∈ all) : ∃ x, n.toList = '$' :: x := by
  simp only [all, List.mem_cons, List.not_mem_nil, or_false] at h
  rcases h with rfl | rfl | rfl | rfl | rfl <;> exact ⟨_, rfl⟩

/-- A directive line starts with a dollar sign, after blanks. -/
theorem exists_dollar (h : isDirective s = true) : ∃ t, trimStart s = '$' :: t := by
  obtain ⟨n, hn, h⟩ := isDirective_iff.mp h
  obtain ⟨x, hx⟩ := exists_name_dollar hn
  exact opensWith_first hx h

theorem opensWith_append_spaces {pad : List Char} (h : Spaces pad) :
    opensWith n (s ++ pad) = opensWith n s := by
  unfold opensWith
  rw [trim_append_spaces h]

theorem isDirective_trim : isDirective (trim s) = isDirective s := by
  simp only [isDirective, opensWith, trim_trim]

theorem isDirective_append_spaces {pad : List Char} (h : Spaces pad) :
    isDirective (s ++ pad) = isDirective s := by
  unfold isDirective
  simp only [opensWith_append_spaces h]

theorem endsBranch_append_spaces {pad : List Char} (h : Spaces pad) :
    endsBranch (s ++ pad) = endsBranch s := by
  unfold endsBranch
  simp only [opensWith_append_spaces h]

theorem isDirective_of_endsBranch (h : endsBranch s = true) : isDirective s = true := by
  rw [endsBranch, Bool.or_eq_true] at h
  exact isDirective_iff.mpr (h.elim (fun h => ⟨_, by simp [all], h⟩) fun h => ⟨_, by simp [all], h⟩)

end Directive

namespace Text

/-- After spaces, what is not blank is left when blanks are taken off. -/
theorem trimStart_spaces_append {g t : List Char} {c : Char} (hg : Spaces g)
    (hc : isBlank c = false) : trimStart (g ++ c :: t) = c :: t := by
  rw [trimStart, List.dropWhile_append_of_pos fun d hd => isBlank_of_isSpace (hg d hd)]
  simp [hc]

end Text

namespace Line

variable {l : Line}

theorem isVacant_iff : l.isVacant = true ↔ Spaces l.text := by
  simp [isVacant, Spaces]

/-- The line of a directive is not vacant. -/
theorem not_isVacant_of_isDirective (h : Directive.isDirective l.text = true) :
    l.isVacant = false := by
  refine Bool.eq_false_iff.mpr fun hv => ?_
  obtain ⟨t, ht⟩ := Directive.exists_dollar h
  have hnil : trimStart l.text = [] := List.dropWhile_eq_nil_iff.mpr fun c hc =>
    isBlank_of_isSpace (isVacant_iff.mp hv c hc)
  rw [hnil] at ht
  cases ht

theorem not_isDirective_of_isVacant (h : l.isVacant = true) :
    Directive.isDirective l.text = false :=
  Bool.eq_false_iff.mpr fun hd => by simp [not_isVacant_of_isDirective hd] at h

end Line

namespace Reader

variable {ls ms : List Line} {u : Unit}

theorem atVacantLine_iff : atVacantLine ls = .ok u ms ↔
    ms = ls ∧ ∀ l ∈ ls.head?, l.isVacant = true := atVacantLine_eq_ok

theorem atVacantLine_fails : Fails atVacantLine ls ↔ ∃ l ∈ ls.head?, l.isVacant = false := by
  cases ls with
  | nil => simp [Fails, atVacantLine]
  | cons l ls => cases h : l.isVacant <;> simp [Fails, atVacantLine, h]

end Reader

end Interview
