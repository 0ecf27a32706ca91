import Interview.Proofs.Clause.Value

/-!
# Spellings of one condition

`Clause.SpellsSingle w c` says, without any reader, that the text `w` is a spelling of the condition
`c`, which has no `and`: with values bare or in quotes, sets in parentheses or braces, and any
spaces between words.

* `Clause.single_of_spells`: a spelling is read as its condition, if what follows is `Apart`.
* `Clause.spells_of_single`: what is read as a condition is a spelling of it.
-/

namespace Interview

open Reader Text Word

namespace Clause

/-- The spellings of a condition without `and`. -/
inductive SpellsSingle : List Char → Clause → Prop
  /-- The word `otherwise`. -/
  | otherwise : SpellsSingle "otherwise".toList .otherwise
  /-- A function applied to nothing. -/
  | emptyCall {n a : List Char} : Identifier n → Spaces a →
      SpellsSingle (n ++ '(' :: (a ++ [')'])) (.call (String.ofList n) [])
  /-- A function applied to values. -/
  | call {n l : List Char} {vs : List String} : Identifier n → Bracketed '(' ')' Comma l vs →
      SpellsSingle (n ++ l) (.call (String.ofList n) vs)
  /-- A variable and a set of values. -/
  | membership {n g h l : List Char} {vs : List String} : Identifier n → n ≠ "otherwise".toList →
      Gap g → Gap h → Bracketed '(' ')' Comma l vs ∨ Bracketed '{' '}' Gap l vs →
      SpellsSingle (n ++ (g ++ ("in".toList ++ (h ++ l)))) (.membership (String.ofList n) vs)
  /-- A variable, the word `is` and a value. -/
  | equality {n g h w : List Char} {v : String} : Identifier n → n ≠ "otherwise".toList →
      Spaces g → (g = [] → n.getLast? = some '?') → Gap h → SpellsValue w v →
      SpellsSingle (n ++ (g ++ ("is".toList ++ (h ++ w)))) (.comparison (String.ofList n) "is" v)
  /-- A variable, an operator of symbols and a value. -/
  | order {n g o h w : List Char} {v : String} : Identifier n → n ≠ "otherwise".toList →
      Spaces g → o ≠ [] → (∀ c ∈ o, isOperatorChar c = true) → o ≠ ['=', '>'] → Spaces h →
      Stops isOperatorChar (h ++ w) → SpellsValue w v →
      SpellsSingle (n ++ (g ++ (o ++ (h ++ w))))
        (.comparison (String.ofList n) (String.ofList o) v)
  /-- A name that ends in a question mark. -/
  | named {n : List Char} : Identifier n → n.getLast? = some '?' →
      SpellsSingle n (.named (String.ofList n))

/-- What may follow a condition without `and`: nothing that would become part of it. -/
structure Apart (t : List Char) : Prop where
  space : ∀ c ∈ t.head?, isSpace c = true
  not_in : ¬ "in".toList <+: t.dropWhile isSpace
  not_is : ¬ "is".toList <+: t.dropWhile isSpace
  symbol : (t.dropWhile isSpace).takeWhile isOperatorChar = [] ∨
    (t.dropWhile isSpace).takeWhile isOperatorChar = ['=', '>']

/-! ## What the single forms read -/

variable {s r t : List Char} {c : Clause} {n : String}

theorem otherwiseWord_iff : otherwiseWord s = .ok c r ↔
    c = .otherwise ∧ s = "otherwise".toList ++ r ∧
      Stops (fun c => isNameChar c || c == '?' || c == '(') r := by
  have htentative : Tentative (character fun c => isNameChar c || c == '?' || c == '(') := by
    refine (steady_character fun c hc => ?_).tentative
    simp [isNameChar_of_isSpace hc, eq_char_of_isSpace (c := c) (d := '?') (by decide) hc,
      eq_char_of_isSpace (c := c) (d := '(') (by decide) hc]
  unfold otherwiseWord
  simp only [bind_eq_ok, word_iff, absent_eq_ok htentative, pure_apply, Reply.ok.injEq]
  constructor
  · rintro ⟨_, u, rfl, _, _, ⟨rfl, hnone⟩, rfl, rfl⟩
    refine ⟨rfl, rfl, fun c hc => ?_⟩
    obtain ⟨v, rfl⟩ := List.head?_eq_some_iff.mp hc
    exact Bool.eq_false_iff.mpr fun h => hnone c v (character_eq_ok.mpr ⟨rfl, h⟩)
  · rintro ⟨rfl, rfl, hstop⟩
    refine ⟨(), r, rfl, (), r, ⟨rfl, ?_⟩, rfl, rfl⟩
    intro c v h
    obtain ⟨rfl, hc⟩ := character_eq_ok.mp h
    rw [stops_cons.mp hstop] at hc
    cases hc

theorem functionCall_iff : functionCall s = .ok c r ↔
    ∃ n vs u v, c = .call n vs ∧ identifier s = .ok n ('(' :: u) ∧
      separated value comma (u.dropWhile isSpace) = .ok vs v ∧ v.dropWhile isSpace = ')' :: r := by
  unfold functionCall
  simp only [bind_eq_ok, spaces_eq_ok, mark_iff, pure_apply, Reply.ok.injEq]
  constructor
  · rintro ⟨n, _, hn, _, u, rfl, _, _, rfl, vs, v, hvs, _, _, rfl, _, _, hv, rfl, rfl⟩
    exact ⟨n, vs, u, v, rfl, hn, hvs, hv⟩
  · rintro ⟨n, vs, u, v, rfl, hn, hvs, hv⟩
    exact ⟨n, _, hn, (), u, rfl, (), _, rfl, vs, v, hvs, (), _, rfl, (), r, hv, rfl, rfl⟩

theorem inBrackets_iff {left right : Char} {separator : Reader Char Unit} {vs : List String} :
    inBrackets left right separator s = .ok vs r ↔
      ∃ u v, s = left :: u ∧ separated1 value separator (u.dropWhile isSpace) = .ok vs v ∧
        v.dropWhile isSpace = right :: r := by
  unfold inBrackets
  simp only [bind_eq_ok, spaces_eq_ok, mark_iff, pure_apply, Reply.ok.injEq]
  constructor
  · rintro ⟨_, u, rfl, _, _, rfl, vs, v, hvs, _, _, rfl, _, _, hv, rfl, rfl⟩
    exact ⟨u, v, rfl, hvs, hv⟩
  · rintro ⟨u, v, rfl, hvs, hv⟩
    exact ⟨(), u, rfl, (), _, rfl, vs, v, hvs, (), _, rfl, (), r, hv, rfl, rfl⟩

theorem setMembership_iff : setMembership s = .ok c r ↔
    ∃ n vs t u v, c = .membership n vs ∧ identifier s = .ok n t ∧
      spaces1 t = .ok () ("in".toList ++ u) ∧ spaces1 u = .ok () v ∧
      (valuesInParentheses <|> valuesInBraces) v = .ok vs r := by
  unfold setMembership
  simp only [bind_eq_ok, word_iff, pure_apply, Reply.ok.injEq]
  constructor
  · rintro ⟨n, t, hn, _, _, ht, _, u, rfl, _, v, hu, vs, _, hv, rfl, rfl⟩
    exact ⟨n, vs, t, u, v, rfl, hn, ht, hu, hv⟩
  · rintro ⟨n, vs, t, u, v, rfl, hn, ht, hu, hv⟩
    exact ⟨n, t, hn, (), _, ht, (), u, rfl, (), v, hu, vs, r, hv, rfl, rfl⟩

theorem isWord_iff {o : String} : isWord s = .ok o r ↔
    o = "is" ∧ s = "is".toList ++ r ∧ ∃ c ∈ r.head?, isSpace c = true := by
  unfold isWord
  simp only [bind_eq_ok, word_iff, peek_eq_ok, spaces1_eq_ok, pure_apply, Reply.ok.injEq]
  have hhead : r.takeWhile isSpace ≠ [] ↔ ∃ c ∈ r.head?, isSpace c = true := by
    cases r with
    | nil => simp
    | cons c r => by_cases hc : isSpace c = true <;> simp [hc]
  constructor
  · rintro ⟨_, u, rfl, _, _, ⟨rfl, _, hne, -⟩, rfl, rfl⟩
    exact ⟨rfl, rfl, hhead.mp hne⟩
  · rintro ⟨rfl, rfl, h⟩
    exact ⟨(), r, rfl, (), r, ⟨rfl, _, hhead.mpr h, rfl⟩, rfl, rfl⟩

theorem operatorSymbol_iff {o : String} : operatorSymbol s = .ok o r ↔
    ∃ cs, o = String.ofList cs ∧ cs ≠ [] ∧ cs ≠ ['=', '>'] ∧ s = cs ++ r ∧
      (∀ c ∈ cs, isOperatorChar c = true) ∧ Stops isOperatorChar r := by
  unfold operatorSymbol
  simp only [bind_eq_ok, satisfying_eq_ok, takeWhile1_iff, pure_apply, Reply.ok.injEq, bne_iff_ne]
  constructor
  · rintro ⟨cs, _, ⟨⟨hne, hs, hall, hstop⟩, harrow⟩, rfl, rfl⟩
    exact ⟨cs, rfl, hne, harrow, hs, hall, hstop⟩
  · rintro ⟨cs, rfl, hne, harrow, hs, hall, hstop⟩
    exact ⟨cs, r, ⟨⟨hne, hs, hall, hstop⟩, harrow⟩, rfl, rfl⟩

theorem comparisonClause_iff : comparisonClause s = .ok c r ↔
    ∃ n o v t u, c = .comparison n o v ∧ identifier s = .ok n t ∧
      (isWord <|> operatorSymbol) (t.dropWhile isSpace) = .ok o u ∧
      value (u.dropWhile isSpace) = .ok v r := by
  unfold comparisonClause
  simp only [bind_eq_ok, spaces_eq_ok, pure_apply, Reply.ok.injEq]
  constructor
  · rintro ⟨n, t, hn, _, _, rfl, o, u, ho, _, _, rfl, v, _, hv, rfl, rfl⟩
    exact ⟨n, o, v, t, u, rfl, hn, ho, hv⟩
  · rintro ⟨n, o, v, t, u, rfl, hn, ho, hv⟩
    exact ⟨n, t, hn, (), _, rfl, o, u, ho, (), _, rfl, v, r, hv, rfl, rfl⟩

theorem namedClause_iff : namedClause s = .ok c r ↔
    ∃ n, c = .named n ∧ identifier s = .ok n r ∧ n.toList.getLast? = some '?' := by
  unfold namedClause
  simp only [bind_eq_ok, satisfying_eq_ok, pure_apply, Reply.ok.injEq, beq_iff_eq]
  constructor
  · rintro ⟨n, _, ⟨hn, hlast⟩, rfl, rfl⟩
    exact ⟨n, rfl, hn, hlast⟩
  · rintro ⟨n, rfl, hn, hlast⟩
    exact ⟨n, r, ⟨hn, hlast⟩, rfl, rfl⟩

/-! ## Forms that do not fit -/

/-- After a name other than `otherwise`, or before a bracket, the word `otherwise` is not read. -/
theorem otherwiseWord_fails (hn : identifier s = .ok n t)
    (h : n ≠ "otherwise" ∨ t.head? = some '(') : Fails otherwiseWord s := by
  refine steady_otherwiseWord.tentative.fails_iff.mpr fun c r hc => ?_
  obtain ⟨-, rfl, hstop⟩ := otherwiseWord_iff.mp hc
  have hname : identifier ("otherwise".toList ++ r) = .ok "otherwise" r := by
    refine identifier_iff.mpr ⟨_, ⟨"otherwise".toList, [], by simp, by decide,
      List.all_eq_true.mp (by decide), .inl rfl⟩,
      by decide, rfl, .inr fun c hc => ?_⟩
    have := hstop c hc
    simp only [Bool.or_eq_false_iff] at this
    simp [extendsName, this.1]
  rw [hn] at hname
  cases hname
  rcases h with h | h
  · exact h rfl
  · have := hstop '(' h
    simp at this

theorem functionCall_fails (hn : identifier s = .ok n t) (h : t.head? ≠ some '(') :
    Fails functionCall s := by
  refine steady_functionCall.tentative.fails_iff.mpr fun c r hc => ?_
  obtain ⟨m, vs, u, v, -, hm, -⟩ := functionCall_iff.mp hc
  rw [hn] at hm
  cases hm
  exact h rfl

theorem setMembership_fails (hn : identifier s = .ok n t)
    (h : ¬ "in".toList <+: t.dropWhile isSpace) : Fails setMembership s := by
  refine steady_setMembership.tentative.fails_iff.mpr fun c r hc => ?_
  obtain ⟨m, vs, t', u, v, -, hm, ht, -⟩ := setMembership_iff.mp hc
  rw [hn] at hm
  cases hm
  obtain ⟨-, ht⟩ := spaces1_eq_ok.mp ht
  exact h ⟨u, ht⟩

theorem comparisonClause_fails (hn : identifier s = .ok n t)
    (his : ¬ "is".toList <+: t.dropWhile isSpace)
    (hsymbol : (t.dropWhile isSpace).takeWhile isOperatorChar = [] ∨
      (t.dropWhile isSpace).takeWhile isOperatorChar = ['=', '>']) : Fails comparisonClause s := by
  refine steady_comparisonClause.tentative.fails_iff.mpr fun c r hc => ?_
  obtain ⟨m, o, v, t', u, -, hm, ho, -⟩ := comparisonClause_iff.mp hc
  rw [hn] at hm
  cases hm
  rcases orElse_eq_ok_iff_fails.mp ho with ho | ⟨-, ho⟩
  · exact his ⟨u, (isWord_iff.mp ho).2.1.symm⟩
  · obtain ⟨cs, -, hne, harrow, hs, hall, hstop⟩ := operatorSymbol_iff.mp ho
    rw [← (run_iff.mpr ⟨hs, hall, hstop⟩).1] at hsymbol
    rcases hsymbol with h | h
    · exact hne h
    · exact harrow h

/-! ## Spellings are read -/

variable {w l : List Char}

theorem inBrackets_of_spelled {left right : Char} {separator : Reader Char Unit}
    {gap : List Char → Prop} {vs : List String} (hright : isSpace right = false)
    (hread : ∀ {l b}, Listed SpellsValue gap l vs → Spaces b →
      separated1 value separator (l ++ (b ++ right :: r)) = .ok vs (b ++ right :: r))
    (h : Bracketed left right gap l vs) : inBrackets left right separator (l ++ r) = .ok vs r := by
  obtain ⟨a, l, b, ha, hb, hl, rfl⟩ := h
  refine inBrackets_iff.mpr ⟨a ++ (l ++ (b ++ right :: r)), b ++ right :: r, by simp, ?_,
    dropWhile_spaces hb (stops_cons.mpr hright)⟩
  rw [dropWhile_spaces ha (Word.Listed.stops hl)]
  exact hread hl hb

theorem valuesInParentheses_of_spelled {vs : List String} (h : Bracketed '(' ')' Comma l vs) :
    valuesInParentheses (l ++ r) = .ok vs r := by
  rw [valuesInParentheses_eq]
  refine inBrackets_of_spelled (by decide) (fun hl hb => ?_) h
  exact values_with_commas hl hb (by decide) (by decide) (by decide)

theorem valuesInBraces_of_spelled {vs : List String} (h : Bracketed '{' '}' Gap l vs) :
    valuesInBraces (l ++ r) = .ok vs r := by
  rw [valuesInBraces_eq]
  refine inBrackets_of_spelled (by decide) (fun hl hb => ?_) h
  exact values_with_gaps hl hb (by decide) (by decide) (by decide)

theorem bracketed_first {left right : Char} {gap : List Char → Prop} {vs : List String}
    (h : Bracketed left right gap l vs) : ∃ m, l = left :: m := by
  obtain ⟨a, l, b, -, -, -, rfl⟩ := h
  exact ⟨_, rfl⟩

theorem extendsName_of_isOperatorChar {c : Char} (h : isOperatorChar c = true) :
    extendsName c = false := by
  simp only [isOperatorChar, Bool.or_eq_true, beq_iff_eq] at h
  rcases h with ((rfl | rfl) | rfl) | rfl <;> decide

theorem not_isSpace_of_isOperatorChar {c : Char} (h : isOperatorChar c = true) :
    isSpace c = false := by
  simp only [isOperatorChar, Bool.or_eq_true, beq_iff_eq] at h
  rcases h with ((rfl | rfl) | rfl) | rfl <;> decide

/-- After spaces a text starts with what comes after them. -/
theorem not_isPrefix_dropWhile {g x v : List Char} {c d : Char} (hg : Spaces g)
    (hc : isSpace c = false) (h : c ≠ d) : ¬ (d :: v) <+: (g ++ c :: x).dropWhile isSpace := by
  rw [dropWhile_spaces hg (stops_cons.mpr hc)]
  rintro ⟨y, hy⟩
  exact h (List.cons.inj hy).1.symm

theorem ne_ofList {n m : List Char} (h : n ≠ m) : String.ofList n ≠ String.ofList m :=
  fun heq => h (String.ofList_injective heq)

/-! The first form that fits is taken: a form is read if the forms before it do not fit. -/

theorem single_of_functionCall (hn : identifier s = .ok n t) (hparen : t.head? = some '(')
    (h : functionCall s = .ok c r) : single s = .ok c r :=
  expecting_eq_ok.mpr <| orElse_eq_ok_iff_fails.mpr <| .inr ⟨otherwiseWord_fails hn (.inr hparen),
    orElse_eq_ok_iff_fails.mpr (.inl h)⟩

theorem single_of_setMembership (hn : identifier s = .ok n t) (hother : n ≠ "otherwise")
    (hparen : t.head? ≠ some '(') (h : setMembership s = .ok c r) : single s = .ok c r :=
  expecting_eq_ok.mpr <| orElse_eq_ok_iff_fails.mpr <| .inr ⟨otherwiseWord_fails hn (.inl hother),
    orElse_eq_ok_iff_fails.mpr <| .inr ⟨functionCall_fails hn hparen,
      orElse_eq_ok_iff_fails.mpr (.inl h)⟩⟩

theorem single_of_comparisonClause (hn : identifier s = .ok n t) (hother : n ≠ "otherwise")
    (hparen : t.head? ≠ some '(') (hin : ¬ "in".toList <+: t.dropWhile isSpace)
    (h : comparisonClause s = .ok c r) : single s = .ok c r :=
  expecting_eq_ok.mpr <| orElse_eq_ok_iff_fails.mpr <| .inr ⟨otherwiseWord_fails hn (.inl hother),
    orElse_eq_ok_iff_fails.mpr <| .inr ⟨functionCall_fails hn hparen,
      orElse_eq_ok_iff_fails.mpr <| .inr ⟨setMembership_fails hn hin,
        orElse_eq_ok_iff_fails.mpr (.inl h)⟩⟩⟩

theorem single_of_namedClause (hn : identifier s = .ok n t) (hother : n ≠ "otherwise")
    (ht : Apart t) (h : namedClause s = .ok c r) : single s = .ok c r := by
  have hparen : t.head? ≠ some '(' := fun h => absurd (ht.space '(' h) (by decide)
  exact expecting_eq_ok.mpr <| orElse_eq_ok_iff_fails.mpr <|
    .inr ⟨otherwiseWord_fails hn (.inl hother),
      orElse_eq_ok_iff_fails.mpr <| .inr ⟨functionCall_fails hn hparen,
        orElse_eq_ok_iff_fails.mpr <| .inr ⟨setMembership_fails hn ht.not_in,
          orElse_eq_ok_iff_fails.mpr <|
            .inr ⟨comparisonClause_fails hn ht.not_is ht.symbol, h⟩⟩⟩⟩

theorem single_otherwise (ht : Apart t) : single ("otherwise".toList ++ t) = .ok .otherwise t := by
  refine expecting_eq_ok.mpr (orElse_eq_ok_iff_fails.mpr (.inl (otherwiseWord_iff.mpr
    ⟨rfl, rfl, fun c hc => ?_⟩)))
  have hc := ht.space c hc
  simp [isNameChar_of_isSpace hc, eq_char_of_isSpace (d := '?') (by decide) hc,
    eq_char_of_isSpace (d := '(') (by decide) hc]

theorem single_emptyCall {n a : List Char} (hn : Identifier n) (ha : Spaces a) :
    single (n ++ '(' :: (a ++ ')' :: t)) = .ok (.call (String.ofList n) []) t := by
  have hname := identifier_of_spelled hn
    (.inr (stops_cons (s := a ++ ')' :: t) (c := '(').mpr (by decide)))
  have hfails : Fails (separated1 value comma) (')' :: t) :=
    bind_fails_of_fails (value_fails (by decide) (by decide))
  refine single_of_functionCall hname rfl (functionCall_iff.mpr
    ⟨_, [], _, ')' :: t, rfl, hname, ?_, by simp [isSpace]⟩)
  rw [dropWhile_spaces ha (stops_cons.mpr (by decide))]
  exact separated_iff.mpr (.inr ⟨rfl, rfl, hfails⟩)

theorem single_call {n : List Char} {vs : List String} (hn : Identifier n)
    (hl : Bracketed '(' ')' Comma l vs) :
    single (n ++ (l ++ t)) = .ok (.call (String.ofList n) vs) t := by
  obtain ⟨a, l, b, ha, hb, hl, rfl⟩ := hl
  have hname := identifier_of_spelled hn
    (.inr (stops_cons (s := a ++ (l ++ (b ++ ')' :: t))) (c := '(').mpr (by decide)))
  have hread : functionCall (n ++ '(' :: (a ++ (l ++ (b ++ ')' :: t)))) =
      .ok (.call (String.ofList n) vs) t := by
    refine functionCall_iff.mpr ⟨_, vs, _, b ++ ')' :: t, rfl, hname, ?_,
      dropWhile_spaces hb (stops_cons.mpr (by decide))⟩
    rw [dropWhile_spaces ha (Word.Listed.stops hl)]
    exact separated_iff.mpr (.inl (values_with_commas hl hb (by decide) (by decide) (by decide)))
  simpa using single_of_functionCall hname rfl hread

/-- A set is read in either notation. -/
theorem set_of_spelled {vs : List String}
    (h : Bracketed '(' ')' Comma l vs ∨ Bracketed '{' '}' Gap l vs) :
    Stops isSpace (l ++ t) ∧ (valuesInParentheses <|> valuesInBraces) (l ++ t) = .ok vs t := by
  rcases h with h | h
  · obtain ⟨m, rfl⟩ := bracketed_first h
    exact ⟨stops_cons.mpr (by decide),
      orElse_eq_ok_iff_fails.mpr (.inl (valuesInParentheses_of_spelled h))⟩
  · obtain ⟨m, rfl⟩ := bracketed_first h
    refine ⟨stops_cons.mpr (by decide),
      orElse_eq_ok_iff_fails.mpr (.inr ⟨?_, valuesInBraces_of_spelled h⟩)⟩
    refine steady_valuesInParentheses.tentative.fails_iff.mpr fun a u ha => ?_
    obtain ⟨_, _, heq, -⟩ := inBrackets_iff.mp ha
    simp at heq

theorem single_membership {n g h : List Char} {vs : List String} (hn : Identifier n)
    (hother : n ≠ "otherwise".toList) (hg : Gap g) (hh : Gap h)
    (hl : Bracketed '(' ')' Comma l vs ∨ Bracketed '{' '}' Gap l vs) :
    single (n ++ (g ++ ("in".toList ++ (h ++ (l ++ t))))) =
      .ok (.membership (String.ofList n) vs) t := by
  obtain ⟨hstop, hset⟩ := set_of_spelled (t := t) hl
  have hname := identifier_of_spelled (r := g ++ ("in".toList ++ (h ++ (l ++ t)))) hn
    (.inr (hg.stops fun _ => extendsName_of_isSpace))
  refine single_of_setMembership hname (ne_ofList hother) (hg.head?_ne (by decide))
    (setMembership_iff.mpr ⟨_, vs, _, h ++ (l ++ t), l ++ t, rfl, hname, ?_,
      spaces1_of_stops hh hstop, hset⟩)
  exact spaces1_of_stops hg (stops_cons.mpr (by decide))

theorem single_equality {n g h : List Char} {v : String} (hn : Identifier n)
    (hother : n ≠ "otherwise".toList) (hg : Spaces g) (hlast : g = [] → n.getLast? = some '?')
    (hh : Gap h) (hw : SpellsValue w v) (ht : Stops isBareChar t) :
    single (n ++ (g ++ ("is".toList ++ (h ++ (w ++ t))))) =
      .ok (.comparison (String.ofList n) "is" v) t := by
  have hname := identifier_of_spelled (r := g ++ ("is".toList ++ (h ++ (w ++ t)))) hn (by
    by_cases hnil : g = []
    · exact .inl (hlast hnil)
    · exact .inr (Gap.stops (fun _ => extendsName_of_isSpace) ⟨hnil, hg⟩))
  have hdrop : (g ++ ("is".toList ++ (h ++ (w ++ t)))).dropWhile isSpace =
      "is".toList ++ (h ++ (w ++ t)) := dropWhile_spaces hg (stops_cons.mpr (by decide))
  refine single_of_comparisonClause hname (ne_ofList hother) ?_ ?_
    (comparisonClause_iff.mpr ⟨_, "is", v, _, h ++ (w ++ t), rfl, hname, ?_, ?_⟩)
  · exact head?_ne_of_spaces hg (by decide) (by simp)
  · rw [hdrop]
    rintro ⟨y, hy⟩
    simp at hy
  · rw [hdrop]
    refine orElse_eq_ok_iff_fails.mpr (.inl (isWord_iff.mpr ⟨rfl, rfl, ?_⟩))
    exact hh.exists_head?
  · rw [dropWhile_spaces hh.2 hw.stops]
    exact value_of_spelled hw ht

theorem single_order {n g o h : List Char} {v : String} (hn : Identifier n)
    (hother : n ≠ "otherwise".toList) (hg : Spaces g) (hne : o ≠ [])
    (hall : ∀ c ∈ o, isOperatorChar c = true) (harrow : o ≠ ['=', '>']) (hh : Spaces h)
    (hstop : Stops isOperatorChar (h ++ w)) (hw : SpellsValue w v) (ht : Stops isBareChar t) :
    single (n ++ (g ++ (o ++ (h ++ (w ++ t))))) =
      .ok (.comparison (String.ofList n) (String.ofList o) v) t := by
  obtain ⟨d, o', rfl⟩ := List.exists_cons_of_ne_nil hne
  have hd : isOperatorChar d = true := hall d List.mem_cons_self
  have hdspace := not_isSpace_of_isOperatorChar hd
  have hname := identifier_of_spelled (r := g ++ (d :: o' ++ (h ++ (w ++ t)))) hn
    (.inr (stops_of_spaces (fun _ => extendsName_of_isSpace) hg
      (stops_cons.mpr (extendsName_of_isOperatorChar hd))))
  have hdrop : (g ++ (d :: o' ++ (h ++ (w ++ t)))).dropWhile isSpace =
      d :: o' ++ (h ++ (w ++ t)) := dropWhile_spaces hg (stops_cons.mpr hdspace)
  have hrun : Stops isOperatorChar (h ++ (w ++ t)) := by
    obtain ⟨c, w', rfl, -⟩ := hw.first
    rw [← List.append_assoc]
    cases h <;> exact hstop
  have hletter : ∀ {e}, isOperatorChar e = false → d ≠ e := by
    rintro e he rfl
    simp [hd] at he
  refine single_of_comparisonClause hname (ne_ofList hother) ?_ ?_
    (comparisonClause_iff.mpr ⟨_, _, v, _, h ++ (w ++ t), rfl, hname, ?_, ?_⟩)
  · exact head?_ne_of_spaces hg (by decide) (by simpa using hletter (by decide))
  · exact not_isPrefix_dropWhile hg hdspace (hletter (by decide))
  · rw [hdrop]
    refine orElse_eq_ok_iff_fails.mpr (.inr ⟨?_, operatorSymbol_iff.mpr
      ⟨_, rfl, hne, harrow, rfl, hall, hrun⟩⟩)
    exact isWord_fails_of_operatorSymbol (operatorSymbol_iff.mpr
      ⟨_, rfl, hne, harrow, rfl, hall, hrun⟩)
  · rw [dropWhile_spaces hh hw.stops]
    exact value_of_spelled hw ht

theorem single_named {n : List Char} (hn : Identifier n) (hlast : n.getLast? = some '?')
    (ht : Apart t) : single (n ++ t) = .ok (.named (String.ofList n)) t := by
  have hname := identifier_of_spelled (r := t) hn (.inl hlast)
  refine single_of_namedClause hname ?_ ht
    (namedClause_iff.mpr ⟨_, rfl, hname, by simpa using hlast⟩)
  intro h
  rw [← String.ofList_toList (s := "otherwise")] at h
  rw [String.ofList_injective h] at hlast
  simp at hlast

/-- A condition without `and` is read as it is spelled. -/
theorem single_of_spells (h : SpellsSingle w c) (ht : Apart t) : single (w ++ t) = .ok c t := by
  have hbare : Stops isBareChar t := fun c hc => isBareChar_of_isSpace (ht.space c hc)
  cases h with
  | otherwise => exact single_otherwise ht
  | emptyCall hn ha => simpa using single_emptyCall hn ha
  | call hn hl => simpa using single_call hn hl
  | membership hn hother hg hh hl => simpa using single_membership hn hother hg hh hl
  | equality hn hother hg hlast hh hw =>
    simpa using single_equality hn hother hg hlast hh hw hbare
  | order hn hother hg hne hall harrow hh hstop hw =>
    simpa using single_order hn hother hg hne hall harrow hh hstop hw hbare
  | named hn hlast => exact single_named hn hlast ht

/-! ## What is read is a spelling -/

theorem spelled_of_inBrackets {left right : Char} {separator : Reader Char Unit}
    {gap : List Char → Prop} {vs : List String} (hc : Consumes (separator >>= fun _ => value))
    (hgap : ∀ {s r}, separator s = .ok () r → ∃ g, s = g ++ r ∧ gap g)
    (h : inBrackets left right separator s = .ok vs r) :
    ∃ l, s = l ++ r ∧ Bracketed left right gap l vs := by
  obtain ⟨u, v, rfl, hvs, hright⟩ := inBrackets_iff.mp h
  obtain ⟨l, hu, hl⟩ := listed_of_separated1 hc spelled_of_value hgap hvs
  obtain ⟨a, ha, hu'⟩ := exists_spaces u
  obtain ⟨b, hb, hv⟩ := exists_spaces v
  refine ⟨left :: (a ++ (l ++ (b ++ [right]))), ?_, a, l, b, ha, hb, hl, rfl⟩
  rw [hu', hu, hv, hright]
  simp

theorem gap_of_comma (h : comma s = .ok () r) : ∃ g, s = g ++ r ∧ Comma g := by
  obtain ⟨g, hg, rfl, -⟩ := comma_iff.mp h
  exact ⟨g, rfl, hg⟩

theorem gap_of_spaces1 (h : spaces1 s = .ok () r) : ∃ g, s = g ++ r ∧ Gap g := by
  obtain ⟨g, hne, hg, rfl, -⟩ := spaces1_iff.mp h
  exact ⟨g, rfl, hne, hg⟩

/-- The word `otherwise` on its own is read as such before any other form is tried. -/
theorem ne_otherwise {w : List Char} (h : Fails otherwiseWord (w ++ t))
    (hend : w.getLast? = some '?' ∨ Stops extendsName t) (hparen : t.head? ≠ some '(') :
    w ≠ "otherwise".toList := by
  rintro rfl
  have hstop := hend.resolve_left (by decide)
  refine h.not_ok (otherwiseWord_iff.mpr ⟨rfl, rfl, fun c hc => ?_⟩)
  have hne : c ≠ '(' := by
    rintro rfl
    exact hparen hc
  simpa [extendsName, hne] using hstop c hc

theorem spells_of_functionCall (h : functionCall s = .ok c r) :
    ∃ w, s = w ++ r ∧ SpellsSingle w c := by
  obtain ⟨n, vs, u, v, rfl, hn, hvs, hv⟩ := functionCall_iff.mp h
  obtain ⟨w, hw, rfl, rfl, -⟩ := identifier_iff.mp hn
  rcases separated_iff.mp hvs with hvs | ⟨rfl, rfl, -⟩
  · have hread : inBrackets '(' ')' comma ('(' :: u) = .ok vs r :=
      inBrackets_iff.mpr ⟨u, v, rfl, hvs, hv⟩
    obtain ⟨l, hl, hb⟩ := spelled_of_inBrackets consumes_comma_value gap_of_comma hread
    exact ⟨w ++ l, by rw [hl, List.append_assoc], .call hw hb⟩
  · obtain ⟨a, ha, hu⟩ := exists_spaces u
    have hright : u.dropWhile isSpace = ')' :: r := by
      rw [← hv, dropWhile_of_stops stops_dropWhile]
    exact ⟨w ++ '(' :: (a ++ [')']), by rw [hu, hright]; simp, .emptyCall hw ha⟩

theorem spells_of_setMembership (hother : Fails otherwiseWord s) (h : setMembership s = .ok c r) :
    ∃ w, s = w ++ r ∧ SpellsSingle w c := by
  obtain ⟨n, vs, t, u, v, rfl, hn, ht, hu, hvs⟩ := setMembership_iff.mp h
  obtain ⟨w, hw, rfl, rfl, hend⟩ := identifier_iff.mp hn
  obtain ⟨g, rfl, hg⟩ := gap_of_spaces1 ht
  obtain ⟨h, rfl, hh⟩ := gap_of_spaces1 hu
  have hset : ∃ l, v = l ++ r ∧
      (Bracketed '(' ')' Comma l vs ∨ Bracketed '{' '}' Gap l vs) := by
    rw [valuesInParentheses_eq, valuesInBraces_eq] at hvs
    rcases orElse_eq_ok_iff_fails.mp hvs with hvs | ⟨-, hvs⟩
    · obtain ⟨l, heq, hl⟩ := spelled_of_inBrackets consumes_comma_value gap_of_comma hvs
      exact ⟨l, heq, .inl hl⟩
    · obtain ⟨l, heq, hl⟩ := spelled_of_inBrackets consumes_spaces1_value gap_of_spaces1 hvs
      exact ⟨l, heq, .inr hl⟩
  obtain ⟨l, rfl, hl⟩ := hset
  exact ⟨_, by simp, .membership hw (ne_otherwise hother hend (hg.head?_ne (by decide))) hg hh hl⟩

theorem spells_of_comparisonClause (hother : Fails otherwiseWord s)
    (h : comparisonClause s = .ok c r) : ∃ w, s = w ++ r ∧ SpellsSingle w c := by
  obtain ⟨n, o, v, t, u, rfl, hn, ho, hv⟩ := comparisonClause_iff.mp h
  obtain ⟨w, hw, rfl, rfl, hend⟩ := identifier_iff.mp hn
  obtain ⟨g, hg, ht⟩ := exists_spaces t
  obtain ⟨k, hk, hu⟩ := exists_spaces u
  obtain ⟨x, hx, hvalue⟩ := spelled_of_value hv
  rcases orElse_eq_ok_iff_fails.mp ho with ho | ⟨-, ho⟩
  · obtain ⟨rfl, his, c, hc, hspace⟩ := isWord_iff.mp ho
    rw [his] at ht
    rw [hx] at hu
    subst ht hu
    have hkne : k ≠ [] := by
      rintro rfl
      have hfirst := hvalue.stops (r := r) c hc
      simp [hspace] at hfirst
    have hlast : g = [] → w.getLast? = some '?' := by
      rintro rfl
      refine hend.resolve_right fun hstop => ?_
      exact absurd (hstop 'i' rfl) (by decide)
    have hparen := head?_ne_of_spaces (r := "is".toList ++ (k ++ (x ++ r))) (d := '(') hg
      (by decide) (by simp)
    exact ⟨_, by simp, .equality hw (ne_otherwise hother hend hparen) hg hlast ⟨hkne, hk⟩ hvalue⟩
  · obtain ⟨cs, rfl, hne, harrow, hcs, hall, hstop⟩ := operatorSymbol_iff.mp ho
    rw [hcs] at ht
    rw [hx] at hu
    subst ht hu
    obtain ⟨d, cs', rfl⟩ := List.exists_cons_of_ne_nil hne
    have hd : d ≠ '(' := by
      rintro rfl
      exact absurd (hall '(' List.mem_cons_self) (by decide)
    have hstop' : Stops isOperatorChar (k ++ x) := by
      obtain ⟨c, x', rfl, -⟩ := hvalue.first
      cases k <;> exact hstop
    have hparen := head?_ne_of_spaces (r := d :: cs' ++ (k ++ (x ++ r))) (d := '(') hg (by decide)
      (by simpa using hd)
    exact ⟨_, by simp,
      .order hw (ne_otherwise hother hend hparen) hg hne hall harrow hk hstop' hvalue⟩

theorem spells_of_single (h : single s = .ok c r) : ∃ w, s = w ++ r ∧ SpellsSingle w c := by
  rcases orElse_eq_ok_iff_fails.mp (expecting_eq_ok.mp h) with h | ⟨hother, h⟩
  · obtain ⟨rfl, rfl, -⟩ := otherwiseWord_iff.mp h
    exact ⟨_, rfl, .otherwise⟩
  rcases orElse_eq_ok_iff_fails.mp h with h | ⟨-, h⟩
  · exact spells_of_functionCall h
  rcases orElse_eq_ok_iff_fails.mp h with h | ⟨-, h⟩
  · exact spells_of_setMembership hother h
  rcases orElse_eq_ok_iff_fails.mp h with h | ⟨-, h⟩
  · exact spells_of_comparisonClause hother h
  · obtain ⟨n, rfl, hn, hlast⟩ := namedClause_iff.mp h
    obtain ⟨w, hw, rfl, rfl, -⟩ := identifier_iff.mp hn
    exact ⟨w, rfl, .named hw (by simpa using hlast)⟩

end Clause

end Interview
