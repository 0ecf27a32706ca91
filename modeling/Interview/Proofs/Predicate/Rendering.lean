import Interview.Proofs.Clause.Writing
import Interview.Proofs.Except
import Interview.Typing

/-!
# How predicates are shown

A predicate is shown as the condition `Predicate.toClause` that it is typed from: equalities with
the word `is`, values of comparisons in single quotes, sets in parentheses with bare values. So it
can be read back if its values can be written so.

* `Predicate.ofClause_toClause`: this condition is typed to the predicate again.
* `Predicate.wellFormed_toClause`: it is well formed if some condition typed to the predicate is.
* `Predicate.written_render`: a predicate with plain values is shown as a writing of it.
* `Predicate.clause_render`: and so it is read as that condition.
-/

namespace Interview

open Reader Text Word

namespace Predicate

mutual

/-- The condition that a predicate is shown as. -/
def toClause : Predicate → Clause
  | equals subject expected => .comparison subject "is" expected
  | oneOf subject values => .membership subject values
  | compares subject comparison bound => .comparison subject comparison.symbol bound
  | named name => .named name
  | otherwise => .otherwise
  | all members => .conjunction (toClauses members)
  | call function arguments => .call function arguments

/-- The conditions that some predicates are shown as. -/
def toClauses : List Predicate → List Clause
  | [] => []
  | p :: ps => toClause p :: toClauses ps

end

/-- The value can be written without quotes. -/
def BareValue (v : String) : Prop :=
  v ≠ "" ∧ ∀ c ∈ v.toList, isBlank c = false ∧ c ∉ ['(', ')', '{', '}', ',', '\'', '"']

/-- The values of a predicate can be written as they are shown. -/
inductive Plain : Predicate → Prop
  | equals {subject expected : String} : '\'' ∉ expected.toList → Plain (.equals subject expected)
  | oneOf {subject : String} {values : List String} : (∀ v ∈ values, BareValue v) →
      Plain (.oneOf subject values)
  | compares {subject bound : String} {comparison : Comparison} : '\'' ∉ bound.toList →
      Plain (.compares subject comparison bound)
  | named {name : String} : Plain (.named name)
  | otherwise : Plain .otherwise
  | all {members : List Predicate} : (∀ p ∈ members, Plain p) → Plain (.all members)
  | call {function : String} {arguments : List String} : (∀ v ∈ arguments, BareValue v) →
      Plain (.call function arguments)

theorem toClauses_eq_map (ps : List Predicate) : toClauses ps = ps.map toClause := by
  induction ps with
  | nil => rfl
  | cons p ps ih => rw [toClauses, ih, List.map_cons]

/-! ## Typing the condition again -/

variable {node : String} {p : Predicate} {ps : List Predicate} {c : Clause} {cs : List Clause}

theorem ofOperator_symbol (subject bound : String) (c : Comparison) :
    ofOperator node subject c.symbol bound = .ok (.compares subject c bound) := by
  unfold ofOperator
  rw [if_neg (by cases c <;> decide), Comparison.ofSymbol?_symbol]

mutual

/-- A predicate is typed from the condition that it is shown as. -/
theorem ofClause_toClause (node : String) (p : Predicate) : ofClause node p.toClause = .ok p := by
  match p with
  | equals subject expected => rfl
  | oneOf subject values => rfl
  | compares subject comparison bound =>
    rw [toClause, ofClause]
    exact ofOperator_symbol subject bound comparison
  | named name => rfl
  | otherwise => rfl
  | all members =>
    rw [toClause, ofClause, ofClauses_toClauses node members]
    rfl
  | call function arguments => rfl

theorem ofClauses_toClauses (node : String) (ps : List Predicate) :
    ofClauses node (toClauses ps) = .ok ps := by
  match ps with
  | [] => rfl
  | p :: ps =>
    rw [toClauses, ofClauses, ofClause_toClause node p, ofClauses_toClauses node ps]
    rfl

end

theorem ofClauses_eq_ok : ofClauses node cs = .ok ps ↔
    List.Forall₂ (fun c p => ofClause node c = .ok p) cs ps := by
  induction cs generalizing ps with
  | nil => cases ps <;> simp [ofClauses]
  | cons c cs ih =>
    rw [ofClauses, Except.bind_bind_pure_eq_ok, List.forall₂_cons_left_iff]
    simp only [ih]

/-- A condition without `and` says of variable and operator what the shown one says. -/
theorem proper_toClause (hc : c.Proper) (hp : ofClause node c = .ok p) : p.toClause.Proper := by
  cases c with
  | comparison subject operator value =>
    have ⟨⟨hname, hother, _⟩, _⟩ := hc
    rw [ofClause, ofOperator] at hp
    split at hp
    · cases hp
      exact ⟨⟨hname, hother, .inl rfl⟩, nofun⟩
    · split at hp
      · rename_i hsymbol
        cases hp
        rw [toClause, Comparison.symbol_of_ofSymbol? hsymbol]
        exact hc
      · cases hp
  | conjunction members => exact absurd hc Clause.Proper.not_conjunction
  | membership | named | otherwise | call =>
    rw [ofClause] at hp
    cases hp
    exact hc

/-- A predicate that some well-formed condition is typed to is shown as a well-formed one. -/
theorem wellFormed_toClause (hc : c.WellFormed) (hp : ofClause node c = .ok p) :
    p.toClause.WellFormed := by
  cases c with
  | conjunction cs =>
    obtain ⟨hlen, hall⟩ := hc
    rw [ofClause] at hp
    cases hps : ofClauses node cs with
    | error e => rw [hps] at hp; cases hp
    | ok ps =>
      rw [hps] at hp
      cases hp
      have htyped := ofClauses_eq_ok.mp hps
      rw [toClause, toClauses_eq_map]
      refine ⟨by simpa [← htyped.length_eq] using hlen, List.forall_mem_map.mpr ?_⟩
      have hboth := (List.forall₂_and_left _ _).mpr ⟨hall, htyped⟩
      exact forall_of_forall₂ hboth.flip fun h => proper_toClause h.1 h.2
  | comparison | membership | named | otherwise | call =>
    exact (proper_toClause hc hp).wellFormed

/-! ## The text is a writing of the condition -/

/-- Items with one separator between any two. -/
theorem listed_intercalate {α : Type} {item : List Char → α → Prop} {gap : List Char → Prop}
    {g : List Char} (hg : gap g) {ws : List (List Char)} {as : List α}
    (h : List.Forall₂ item ws as) (hne : as ≠ []) : Listed item gap (g.intercalate ws) as := by
  induction h with
  | nil => exact absurd rfl hne
  | @cons w a ws as ha hrest ih =>
    cases hrest with
    | nil => simpa using Listed.one ha
    | @cons v b ws as hb hrest =>
      rw [List.intercalate_cons_cons, List.append_assoc]
      exact .more ha hg (ih (by simp))

theorem spellsValue_quoted {v : String} (h : '\'' ∉ v.toList) :
    SpellsValue ('\'' :: (v.toList ++ ['\''])) v := by
  simpa using SpellsValue.quoted (.inl rfl) h

theorem spellsValue_bare {v : String} (h : BareValue v) : SpellsValue v.toList v := by
  obtain ⟨hne, hall⟩ := h
  have hchars : SpellsValue v.toList (String.ofList v.toList) := by
    refine .bare (by simpa using hne) fun c hc => ?_
    obtain ⟨hblank, hmark⟩ := hall c hc
    simpa [isBareChar, hblank] using hmark
  rwa [String.ofList_toList] at hchars

/-- Values in parentheses, as they are shown. -/
theorem bracketed_values {vs : List String} (h : ∀ v ∈ vs, BareValue v) (hne : vs ≠ []) :
    Bracketed '(' ')' Comma ('(' :: ((", ".intercalate vs).toList ++ [')'])) vs := by
  have hvalues : List.Forall₂ SpellsValue (vs.map String.toList) vs :=
    List.forall₂_map_left_iff.mpr (List.forall₂_same.mpr fun v hv => spellsValue_bare (h v hv))
  have hcomma : Comma ", ".toList := ⟨[], [' '], spaces_nil, gap_space.2, rfl⟩
  have hlist := listed_intercalate hcomma hvalues hne
  rw [← String.toList_intercalate] at hlist
  exact ⟨[], _, [], spaces_nil, spaces_nil, hlist, rfl⟩

/-! The characters of a predicate without `and`, word by word. -/

theorem toList_render_equals (x v : String) : (equals x v).render.toList =
    x.toList ++ ([' '] ++ ("is".toList ++ ([' '] ++ '\'' :: (v.toList ++ ['\''])))) := by
  show (x ++ " is '" ++ v ++ "'").toList = _
  simp

theorem toList_render_compares (x v : String) (c : Comparison) : (compares x c v).render.toList =
    x.toList ++ ([' '] ++ (c.symbol.toList ++ ([' '] ++ '\'' :: (v.toList ++ ['\''])))) := by
  show (x ++ " " ++ c.symbol ++ (" '" ++ v ++ "'")).toList = _
  simp

theorem toList_render_oneOf (x : String) (vs : List String) : (oneOf x vs).render.toList =
    x.toList ++ ([' '] ++ ("in".toList ++ ([' '] ++ '(' :: ((", ".intercalate vs).toList ++
      [')'])))) := by
  show (x ++ " in (" ++ ", ".intercalate vs ++ ")").toList = _
  simp

theorem toList_render_call (f : String) (vs : List String) : (call f vs).render.toList =
    f.toList ++ '(' :: ((", ".intercalate vs).toList ++ [')']) := by
  show (f ++ "(" ++ ", ".intercalate vs ++ ")").toList = _
  simp

theorem writtenSingle_render (hp : p.Plain) (hc : p.toClause.Proper) :
    Clause.WrittenSingle p.render.toList p.toClause := by
  cases hp with
  | equals h =>
    rw [toList_render_equals]
    exact .comparison gap_space gap_space (spellsValue_quoted h)
  | compares h =>
    rw [toList_render_compares]
    exact .comparison gap_space gap_space (spellsValue_quoted h)
  | oneOf h =>
    rw [toList_render_oneOf]
    exact .membership gap_space gap_space (.inl (bracketed_values h hc.1.2))
  | named => exact .named
  | otherwise => exact .otherwise
  | all _ => exact absurd hc Clause.Proper.not_conjunction
  | @call function arguments h =>
    rw [toList_render_call]
    by_cases hnil : arguments = []
    · subst hnil
      exact .emptyCall spaces_nil
    · exact .call (bracketed_values h hnil)

/-- A predicate with plain values is shown as a writing of its condition. -/
theorem written_render (hp : p.Plain) (hc : p.toClause.WellFormed) :
    Clause.Written p.render.toList p.toClause := by
  cases hp with
  | @all members h =>
    obtain ⟨hlen, hall⟩ := hc
    rw [toClauses_eq_map] at hlen hall
    have hproper := List.forall_mem_map.mp hall
    -- No member is a conjunction, so none holds an `and` that would join the others.
    have hmembers : List.Forall₂ Clause.WrittenSingle (members.map fun q => q.render.toList)
        (members.map toClause) := by
      rw [List.forall₂_map_left_iff, List.forall₂_map_right_iff, List.forall₂_same]
      exact fun q hq => writtenSingle_render (h q hq) (hproper q hq)
    have hjoint : Clause.Joint " and ".toList := ⟨[' '], [' '], gap_space, gap_space, rfl⟩
    have hlist := listed_intercalate hjoint hmembers (by rintro h; simp [h] at hlen)
    rw [render, toClause, renderAll_eq_map, toClauses_eq_map, String.toList_intercalate,
      List.map_map]
    exact .conjunction hlist
  | equals h => exact .single (writtenSingle_render (.equals h) hc)
  | oneOf h => exact .single (writtenSingle_render (.oneOf h) hc)
  | compares h => exact .single (writtenSingle_render (.compares h) hc)
  | named => exact .single (writtenSingle_render .named hc)
  | otherwise => exact .single (writtenSingle_render .otherwise hc)
  | call h => exact .single (writtenSingle_render (.call h) hc)

/-- What is shown of a predicate with plain values is read as its condition. -/
theorem clause_render (hp : p.Plain) (hc : p.toClause.WellFormed) :
    Clause.clause p.render.toList = .ok p.toClause [] :=
  Clause.spells_iff.mp (Clause.spells_of_written (written_render hp hc) hc)

end Predicate

end Interview
