import Interview.Proofs.Document.Words
import Interview.Proofs.Reader.Exact

/-!
# Spellings of names and values

How identifiers, values and lists of values are written, said without any reader. The readers of
words take exactly these texts.

* `Word.identifier_iff`: an identifier, up to a character that is no part of it.
* `Word.value_of_spelled`, `Word.spelled_of_value`: a value, bare or in quotes.
* `Word.values_with_commas`, `Word.values_with_gaps`: lists of values before a bracket.
-/

namespace Interview

open Reader Text

namespace Word

variable {s r w g : List Char}

/-- Name characters, and then perhaps a question mark. -/
def Identifier (w : List Char) : Prop :=
  ∃ cs q, w = cs ++ q ∧ cs ≠ [] ∧ (∀ c ∈ cs, isNameChar c = true) ∧ (q = [] ∨ q = ['?'])

/-- A character that would make an identifier before it longer. -/
def extendsName (c : Char) : Bool := isNameChar c || c == '?'

theorem extendsName_of_isSpace {c : Char} (h : isSpace c = true) : extendsName c = false := by
  simp [extendsName, isNameChar_of_isSpace h, eq_char_of_isSpace (d := '?') (by decide) h]

theorem Identifier.ne_nil (h : Identifier w) : w ≠ [] := by
  obtain ⟨cs, q, rfl, hne, -⟩ := h
  simp [hne]

theorem Identifier.stops (h : Identifier w) : Stops isSpace (w ++ r) := by
  obtain ⟨cs, q, rfl, hne, hall, -⟩ := h
  obtain ⟨c, cs, rfl⟩ := List.exists_cons_of_ne_nil hne
  refine stops_cons.mpr ?_
  cases hc : isSpace c with
  | false => rfl
  | true =>
    have := hall c List.mem_cons_self
    simp [isNameChar_of_isSpace hc] at this

theorem identifier_iff {n : String} : identifier s = .ok n r ↔
    ∃ w, Identifier w ∧ n = String.ofList w ∧ s = w ++ r ∧
      (w.getLast? = some '?' ∨ Stops extendsName r) := by
  unfold identifier
  simp only [bind_eq_ok, takeWhile1_iff, maybe_eq_ok, character_eq_ok, beq_iff_eq, pure_apply,
    Reply.ok.injEq]
  constructor
  · rintro ⟨cs, t, ⟨hne, rfl, hall, hstop⟩, o, u, ho, rfl, rfl⟩
    rcases ho with ⟨c, rfl, rfl, rfl⟩ | ⟨rfl, rfl, hf⟩
    · exact ⟨cs ++ ['?'], ⟨cs, ['?'], rfl, hne, hall, .inr rfl⟩, rfl, by simp, .inl (by simp)⟩
    · refine ⟨cs, ⟨cs, [], by simp, hne, hall, .inl rfl⟩, by simp, rfl, .inr fun c hc => ?_⟩
      have hquestion : c ≠ '?' := by
        rintro rfl
        obtain ⟨t, rfl⟩ := List.head?_eq_some_iff.mp hc
        exact Fails.not_ok hf (character_eq_ok.mpr ⟨rfl, by decide⟩)
      simp [extendsName, hstop c hc, hquestion]
  · rintro ⟨_, ⟨cs, q, rfl, hne, hall, rfl | rfl⟩, rfl, rfl, hend⟩
    · have hlast : (cs ++ []).getLast? ≠ some '?' := by
        intro h
        rw [List.append_nil] at h
        exact absurd (hall _ (List.mem_of_getLast? h)) (by decide)
      have hstop := hend.resolve_left hlast
      refine ⟨cs, r, ⟨hne, by simp, hall, fun c hc => ?_⟩, none, r, .inr ⟨rfl, rfl, ?_⟩, by simp,
        rfl⟩
      · have := hstop c hc
        simp only [extendsName, Bool.or_eq_false_iff] at this
        exact this.1
      · refine (steady_character fun c hc => eq_char_of_isSpace (d := '?') (by decide) hc
          ).tentative.fails_iff.mpr fun c t h => ?_
        obtain ⟨rfl, hq⟩ := character_eq_ok.mp h
        have := stops_cons.mp hstop
        simp [extendsName, beq_iff_eq.mp hq] at this
    · exact ⟨cs, '?' :: r, ⟨hne, by simp, hall, stops_cons.mpr (by decide)⟩, some '?', r,
        .inl ⟨'?', rfl, rfl, rfl⟩, rfl, rfl⟩

theorem identifier_of_spelled (h : Identifier w)
    (hr : w.getLast? = some '?' ∨ Stops extendsName r) :
    identifier (w ++ r) = .ok (String.ofList w) r := identifier_iff.mpr ⟨w, h, rfl, rfl, hr⟩

/-- The spellings of a value. -/
inductive SpellsValue : List Char → String → Prop
  /-- Between two marks that it does not hold. -/
  | quoted {q : Char} {cs : List Char} : q = '\'' ∨ q = '"' → q ∉ cs →
      SpellsValue (q :: (cs ++ [q])) (String.ofList cs)
  /-- As it is. -/
  | bare {cs : List Char} : cs ≠ [] → (∀ c ∈ cs, isBareChar c = true) →
      SpellsValue cs (String.ofList cs)

theorem quotedBy_iff {q : Char} {v : String} : quotedBy q s = .ok v r ↔
    ∃ cs, q ∉ cs ∧ v = String.ofList cs ∧ s = q :: (cs ++ q :: r) := by
  unfold quotedBy
  simp only [bind_eq_ok, mark_iff, takeWhile_apply, pure_apply, Reply.ok.injEq]
  constructor
  · rintro ⟨_, t, rfl, cs, u, ⟨rfl, rfl⟩, _, r', hu, rfl, rfl⟩
    obtain ⟨ht, hall, -⟩ := run_iff.mp ⟨rfl, hu.symm⟩
    exact ⟨_, fun h => by simpa using hall q h, rfl, by rw [← ht]⟩
  · rintro ⟨cs, hq, rfl, rfl⟩
    have hall : ∀ c ∈ cs, (c != q) = true := by
      intro c hc
      rw [bne_iff_ne]
      rintro rfl
      exact hq hc
    obtain ⟨h1, h2⟩ := run_iff.mpr ⟨rfl, hall, (stops_cons (s := r)).mpr (bne_self_eq_false q)⟩
    exact ⟨(), _, rfl, cs, q :: r, ⟨h1.symm, h2.symm⟩, (), r, rfl, rfl, rfl⟩

theorem bareValue_iff {v : String} : bareValue s = .ok v r ↔
    ∃ cs, cs ≠ [] ∧ (∀ c ∈ cs, isBareChar c = true) ∧ v = String.ofList cs ∧ s = cs ++ r ∧
      Stops isBareChar r := by
  unfold bareValue
  simp only [bind_eq_ok, takeWhile1_iff, pure_apply, Reply.ok.injEq]
  constructor
  · rintro ⟨cs, t, ⟨hne, hs, hall, hstop⟩, rfl, rfl⟩
    exact ⟨cs, hne, hall, rfl, hs, hstop⟩
  · rintro ⟨cs, hne, hall, rfl, hs, hstop⟩
    exact ⟨cs, r, ⟨hne, hs, hall, hstop⟩, rfl, rfl⟩

/-- A value cannot be read in quotes where there is none. -/
theorem quotedBy_fails {q : Char} (hq : isSpace q = false) (h : s.head? ≠ some q) :
    Fails (quotedBy q) s := by
  refine (steady_quotedBy hq).tentative.fails_iff.mpr fun v t hv => ?_
  obtain ⟨cs, -, -, rfl⟩ := quotedBy_iff.mp hv
  exact h rfl

theorem value_of_spelled {v : String} (h : SpellsValue w v) (hr : Stops isBareChar r) :
    value (w ++ r) = .ok v r := by
  unfold value
  cases h with
  | @quoted q cs hq hcs =>
    have hread : quotedBy q (q :: (cs ++ [q]) ++ r) = .ok (String.ofList cs) r :=
      quotedBy_iff.mpr ⟨cs, hcs, rfl, by simp⟩
    rcases hq with rfl | rfl
    · exact orElse_eq_ok_iff_fails.mpr (.inl hread)
    · exact orElse_eq_ok_iff_fails.mpr (.inr ⟨quotedBy_fails (by decide) (by simp),
        orElse_eq_ok_iff_fails.mpr (.inl hread)⟩)
  | bare hne hall =>
    have hhead : ∀ q, isBareChar q = false → (w ++ r).head? ≠ some q := by
      intro q hq h
      obtain ⟨c, cs, rfl⟩ := List.exists_cons_of_ne_nil hne
      obtain rfl : c = q := by simpa using h
      simp [hq] at hall
    exact orElse_eq_ok_iff_fails.mpr (.inr ⟨quotedBy_fails (by decide) (hhead _ (by decide)),
      orElse_eq_ok_iff_fails.mpr (.inr ⟨quotedBy_fails (by decide) (hhead _ (by decide)),
        bareValue_iff.mpr ⟨w, hne, hall, rfl, rfl, hr⟩⟩)⟩)

theorem spelled_of_value {v : String} (h : value s = .ok v r) :
    ∃ w, s = w ++ r ∧ SpellsValue w v := by
  unfold value at h
  rcases orElse_eq_ok_iff_fails.mp h with h | ⟨-, h⟩
  · obtain ⟨cs, hq, rfl, rfl⟩ := quotedBy_iff.mp h
    exact ⟨_, by simp, .quoted (.inl rfl) hq⟩
  rcases orElse_eq_ok_iff_fails.mp h with h | ⟨-, h⟩
  · obtain ⟨cs, hq, rfl, rfl⟩ := quotedBy_iff.mp h
    exact ⟨_, by simp, .quoted (.inr rfl) hq⟩
  · obtain ⟨cs, hne, hall, rfl, rfl, -⟩ := bareValue_iff.mp h
    exact ⟨cs, rfl, .bare hne hall⟩

/-- A value does not start with a space. -/
theorem SpellsValue.first {v : String} (h : SpellsValue w v) :
    ∃ c t, w = c :: t ∧ isSpace c = false := by
  cases h with
  | quoted hq _ => exact ⟨_, _, rfl, by rcases hq with rfl | rfl <;> decide⟩
  | bare hne hall =>
    obtain ⟨c, cs, rfl⟩ := List.exists_cons_of_ne_nil hne
    refine ⟨c, cs, rfl, ?_⟩
    cases hc : isSpace c with
    | false => rfl
    | true => simp [isBareChar_of_isSpace hc] at hall

theorem SpellsValue.stops {v : String} (h : SpellsValue w v) : Stops isSpace (w ++ r) := by
  obtain ⟨c, t, rfl, hc⟩ := h.first
  exact stops_cons.mpr hc

theorem consumes_value : Consumes value := by
  intro s v r h
  obtain ⟨w, rfl, hw⟩ := spelled_of_value h
  obtain ⟨c, t, rfl, -⟩ := hw.first
  refine ⟨List.suffix_append _ _, ?_⟩
  rw [List.length_append, List.length_cons]
  omega

/-! ## Lists of values -/

/-- One or more spaces and tabs. -/
def Gap (g : List Char) : Prop := g ≠ [] ∧ Spaces g

/-- A comma, and perhaps spaces around it. -/
def Comma (g : List Char) : Prop := ∃ a b, Spaces a ∧ Spaces b ∧ g = a ++ ',' :: b

theorem gap_space : Gap [' '] := ⟨by simp, by simp [Spaces, isSpace]⟩

theorem stops_of_spaces {test : Char → Bool} (h : ∀ c, isSpace c = true → test c = false)
    (hg : Spaces g) (hr : Stops test r) : Stops test (g ++ r) := by
  cases g with
  | nil => exact hr
  | cons c g => exact stops_cons.mpr (h c (hg c List.mem_cons_self))

theorem Gap.stops {test : Char → Bool} (h : ∀ c, isSpace c = true → test c = false) (hg : Gap g) :
    Stops test (g ++ r) := by
  obtain ⟨hne, hg⟩ := hg
  obtain ⟨c, g, rfl⟩ := List.exists_cons_of_ne_nil hne
  exact stops_cons.mpr (h c (hg c List.mem_cons_self))

theorem Gap.exists_head? (hg : Gap g) : ∃ c ∈ (g ++ r).head?, isSpace c = true := by
  obtain ⟨hne, hg⟩ := hg
  obtain ⟨c, g, rfl⟩ := List.exists_cons_of_ne_nil hne
  exact ⟨c, rfl, hg c List.mem_cons_self⟩

theorem Gap.head?_ne {d : Char} (hg : Gap g) (hd : isSpace d = false) :
    (g ++ r).head? ≠ some d := by
  obtain ⟨c, hc, hspace⟩ := hg.exists_head? (r := r)
  intro h
  obtain rfl : d = c := by simpa [h] using hc
  simp [hd] at hspace

theorem head?_ne_of_spaces {d : Char} (hg : Spaces g) (hd : isSpace d = false)
    (hr : r.head? ≠ some d) : (g ++ r).head? ≠ some d := by
  by_cases hnil : g = []
  · simpa [hnil] using hr
  · exact Gap.head?_ne ⟨hnil, hg⟩ hd

theorem spaces_of_stops {u : Unit} (hg : Spaces g) (hr : Stops isSpace r) :
    spaces (g ++ r) = .ok u r := spaces_iff.mpr ⟨g, hg, rfl, hr⟩

theorem spaces1_of_stops {u : Unit} (hg : Gap g) (hr : Stops isSpace r) :
    spaces1 (g ++ r) = .ok u r := spaces1_iff.mpr ⟨g, hg.1, hg.2, rfl, hr⟩

theorem comma_iff {u : Unit} : comma s = .ok u r ↔ ∃ g, Comma g ∧ s = g ++ r ∧ Stops isSpace r := by
  unfold comma
  simp only [bind_eq_ok, spaces_iff, mark_iff]
  constructor
  · rintro ⟨_, _, ⟨a, ha, rfl, -⟩, _, _, rfl, b, hb, rfl, hstop⟩
    exact ⟨a ++ ',' :: b, ⟨a, b, ha, hb, rfl⟩, by simp, hstop⟩
  · rintro ⟨_, ⟨a, b, ha, hb, rfl⟩, rfl, hstop⟩
    exact ⟨(), ',' :: (b ++ r), ⟨a, ha, by simp, stops_cons.mpr (by decide)⟩, (), _, rfl,
      b, hb, rfl, hstop⟩

theorem Comma.stops (hg : Comma g) : Stops isBareChar (g ++ r) := by
  obtain ⟨a, b, ha, -, rfl⟩ := hg
  rw [List.append_assoc]
  exact stops_of_spaces (fun _ => isBareChar_of_isSpace) ha (stops_cons.mpr (by decide))

/-- Values between two brackets, with spaces inside them. -/
def Bracketed (left right : Char) (gap : List Char → Prop) (w : List Char) (vs : List String) :
    Prop :=
  ∃ a l b, Spaces a ∧ Spaces b ∧ Listed SpellsValue gap l vs ∧
    w = left :: (a ++ (l ++ (b ++ [right])))

theorem consumes_comma_value : Consumes (comma >>= fun _ => value) :=
  loose_comma.keeps.bind_consumes fun _ => consumes_value

theorem consumes_spaces1_value : Consumes (spaces1 >>= fun _ => value) :=
  loose_spaces1.keeps.bind_consumes fun _ => consumes_value

theorem tentative_comma_value : Tentative (comma >>= fun _ => value) :=
  loose_comma.tentative.bind fun _ => steady_value.tentative

theorem tentative_spaces1_value : Tentative (spaces1 >>= fun _ => value) :=
  loose_spaces1.tentative.bind fun _ => steady_value.tentative

theorem stops_bracket {a : List Char} {d : Char} (ha : Spaces a) (hd : isBareChar d = false) :
    Stops isBareChar (a ++ d :: r) :=
  stops_of_spaces (fun _ => isBareChar_of_isSpace) ha (stops_cons.mpr hd)

/-- No list of values goes on with a bracket. -/
theorem comma_value_fails {b : List Char} {d : Char} (hb : Spaces b) (hd : isSpace d = false)
    (hcomma : d ≠ ',') : Fails (comma >>= fun _ => value) (b ++ d :: r) := by
  refine tentative_comma_value.fails_iff.mpr fun v t h => ?_
  obtain ⟨_, u, hc, -⟩ := bind_eq_ok.mp h
  unfold comma at hc
  obtain ⟨_, t', hs, hc⟩ := bind_eq_ok.mp hc
  rw [spaces_of_stops hb (stops_cons.mpr hd)] at hs
  cases hs
  obtain ⟨_, _, hm, -⟩ := bind_eq_ok.mp hc
  exact hcomma (List.cons.inj (mark_iff.mp hm)).1

theorem value_fails {d : Char} (hbare : isBareChar d = false) (hquote : d ≠ '\'' ∧ d ≠ '"') :
    Fails value (d :: r) := by
  refine steady_value.tentative.fails_iff.mpr fun v t h => ?_
  obtain ⟨w, hw, hvalue⟩ := spelled_of_value h
  cases hvalue with
  | quoted hq _ =>
    obtain ⟨rfl, -⟩ := List.cons.inj hw
    rcases hq with rfl | rfl
    · exact hquote.1 rfl
    · exact hquote.2 rfl
  | bare hne hall =>
    obtain ⟨c, cs, rfl⟩ := List.exists_cons_of_ne_nil hne
    obtain ⟨rfl, -⟩ := List.cons.inj hw
    simp [hbare] at hall

theorem spaces1_value_fails {b : List Char} {d : Char} (hb : Spaces b) (hd : isSpace d = false)
    (hbare : isBareChar d = false) (hquote : d ≠ '\'' ∧ d ≠ '"') :
    Fails (spaces1 >>= fun _ => value) (b ++ d :: r) := by
  refine tentative_spaces1_value.fails_iff.mpr fun v t h => ?_
  obtain ⟨_, u, hs, hv⟩ := bind_eq_ok.mp h
  obtain ⟨-, rfl⟩ := spaces1_eq_ok.mp hs
  rw [dropWhile_spaces hb (stops_cons.mpr hd)] at hv
  exact (value_fails hbare hquote).not_ok hv

/-- A bracketed list of values with commas is read up to its bracket. -/
theorem values_with_commas {l b : List Char} {d : Char} {vs : List String}
    (hl : Listed SpellsValue Comma l vs) (hb : Spaces b) (hd : isSpace d = false)
    (hbare : isBareChar d = false) (hcomma : d ≠ ',') :
    separated1 value comma (l ++ (b ++ d :: r)) = .ok vs (b ++ d :: r) :=
  separated1_of_listed consumes_comma_value value_of_spelled
    (fun hg hw => comma_iff.mpr ⟨_, hg, rfl, hw.stops⟩) (fun hg _ => hg.stops) hl
    (stops_bracket hb hbare) (comma_value_fails hb hd hcomma)

theorem values_with_gaps {l b : List Char} {d : Char} {vs : List String}
    (hl : Listed SpellsValue Gap l vs) (hb : Spaces b) (hd : isSpace d = false)
    (hbare : isBareChar d = false) (hquote : d ≠ '\'' ∧ d ≠ '"') :
    separated1 value spaces1 (l ++ (b ++ d :: r)) = .ok vs (b ++ d :: r) :=
  separated1_of_listed consumes_spaces1_value value_of_spelled
    (fun hg hw => spaces1_of_stops hg hw.stops)
    (fun hg _ => hg.stops fun _ => isBareChar_of_isSpace) hl
    (stops_bracket hb hbare) (spaces1_value_fails hb hd hbare hquote)

theorem Listed.stops {gap : List Char → Prop} {l : List Char} {vs : List String}
    (h : Listed SpellsValue gap l vs) : Stops isSpace (l ++ r) := by
  obtain ⟨v, t, a, rfl, hv⟩ := h.first
  rw [List.append_assoc]
  exact hv.stops

end Word

end Interview
