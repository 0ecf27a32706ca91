import Interview.Document.Reading
import Interview.Proofs.Reader.Loose

/-!
# The words of a document and trailing spaces

The readers of conditions, tags and the other texts of a line, built from the words that they
consist of. Conditions and what they are made of are steady; the texts that fill a line are
settled, so that spaces and tabs at the end of the line make no difference to them.

* `Clause.steady_clause`: conditions.
* `Bullet.loose_indentation`, `Tag.loose_options`: indentation, and the options of a tag, of which
  the last may take the rest of its line.
* `Block.settled_openingText`, `Tag.settled_tag` and so on: lines.
-/

namespace Interview

open Reader Text

theorem eq_char_of_isSpace {c d : Char} (h : isSpace d = false) (hc : isSpace c = true) :
    (c == d) = false := by
  rw [beq_eq_false_iff_ne]
  rintro rfl
  simp [h] at hc

namespace Word

theorem steady_mark {c : Char} (h : isSpace c = false) : Steady (mark c) :=
  (steady_character fun _ hc => eq_char_of_isSpace h hc).bind fun _ => steady_pure _

theorem hungry_mark (c : Char) : Hungry (mark c) := hungry_bind (hungry_character _)

theorem not_isBlank_of_isNameChar {c : Char} (h : isNameChar c = true) : isBlank c = false := by
  have hrange : c.toNat = 45 ∨ 48 ≤ c.toNat ∧ c.toNat ≤ 122 := by
    unfold isNameChar Char.isAlphanum Char.isAlpha Char.isUpper Char.isLower Char.isDigit at h
    simp only [Bool.or_eq_true, Bool.and_eq_true, decide_eq_true_eq, beq_iff_eq, ge_iff_le,
      UInt32.le_iff_toNat_le] at h
    obtain (((h | h) | h) | rfl) | rfl := h
    · right; simp at h; omega
    · right; simp at h; omega
    · right; simp at h; omega
    · right; decide
    · left; decide
  simp only [isBlank, Bool.or_eq_false_iff, Bool.and_eq_false_iff, decide_eq_false_iff_not,
    beq_eq_false_iff_ne]
  omega

theorem isNameChar_of_isSpace {c : Char} (h : isSpace c = true) : isNameChar c = false :=
  Bool.eq_false_iff.mpr fun hname => by
    simpa [isBlank_of_isSpace h] using not_isBlank_of_isNameChar hname

theorem isBareChar_of_isSpace {c : Char} (h : isSpace c = true) : isBareChar c = false := by
  simp [isBareChar, isBlank_of_isSpace h]

theorem steady_identifier : Steady identifier :=
  (steady_takeWhile1 fun _ => isNameChar_of_isSpace).bind fun _ =>
    (steady_character fun _ hc => eq_char_of_isSpace (by decide) hc).maybe.bind fun _ =>
      steady_pure _

theorem hungry_identifier : Hungry identifier := hungry_bind (hungry_takeWhile1 _)

theorem steady_quotedBy {q : Char} (h : isSpace q = false) : Steady (quotedBy q) := by
  have hrun : ∀ c, isSpace c = true → (c != q) = true := by
    intro c hc
    simp [bne, eq_char_of_isSpace h hc]
  exact (steady_mark h).bind fun _ => (loose_takeWhile hrun).bind_steady
    (fun _ => (steady_mark h).bind fun _ => steady_pure _) fun _ => hungry_bind (hungry_mark q)

theorem steady_value : Steady value :=
  (steady_quotedBy (by decide)).orElse <| (steady_quotedBy (by decide)).orElse <|
    (steady_takeWhile1 fun _ => isBareChar_of_isSpace).bind fun _ => steady_pure _

theorem hungry_value : Hungry value :=
  hungry_orElse (hungry_bind (hungry_mark _)) <| hungry_orElse (hungry_bind (hungry_mark _)) <|
    hungry_bind (hungry_takeWhile1 _)

theorem loose_comma : Loose comma :=
  loose_spaces.bind fun _ => (steady_mark (by decide)).loose.bind fun _ => loose_spaces

theorem steady_bulletMark : Steady bulletMark := by
  refine (steady_character fun c hc => ?_).bind fun _ => steady_pure _
  simp [eq_char_of_isSpace (c := c) (d := '*') (by decide) hc,
    eq_char_of_isSpace (c := c) (d := '-') (by decide) hc]

theorem hungry_bulletMark : Hungry bulletMark := hungry_bind (hungry_character _)

/-- A mark after spaces. -/
theorem steady_spaces_mark {α : Type} {c : Char} {p : Reader Char α} (h : isSpace c = false)
    (hp : Steady p) : Steady (spaces >>= fun _ => mark c >>= fun _ => p) :=
  loose_spaces.bind_steady (fun _ => (steady_mark h).bind fun _ => hp)
    fun _ => hungry_bind (hungry_mark c)

theorem hungry_spaces_mark {α : Type} {c : Char} {p : Reader Char α} :
    Hungry (spaces >>= fun _ => mark c >>= fun _ => p) :=
  hungry_bind_of_keeps loose_spaces.keeps fun _ => hungry_bind (hungry_mark c)

end Word

/-! ## Conditions -/

namespace Clause

open Word

variable {α β : Type} {p : Reader Char α} {separator : Reader Char β}

theorem steady_separated1 (hp : Steady p) (hh : Hungry p) (hs : Loose separator) :
    Steady (separated1 p separator) :=
  hp.bind fun _ => (hs.bind_steady (fun _ => hp) fun _ => hh).many.bind fun _ => steady_pure _

theorem hungry_separated1 (hh : Hungry p) : Hungry (separated1 p separator) := hungry_bind hh

theorem steady_separated (hp : Steady p) (hh : Hungry p) (hs : Loose separator) :
    Steady (separated p separator) :=
  (steady_separated1 hp hh hs).maybe.bind fun _ => steady_pure _

theorem steady_otherwiseWord : Steady otherwiseWord := by
  refine (steady_word (by decide)).bind fun _ => (steady_character fun c hc => ?_).absent.bind
    fun _ => steady_pure _
  simp [isNameChar_of_isSpace hc, eq_char_of_isSpace (c := c) (d := '?') (by decide) hc,
    eq_char_of_isSpace (c := c) (d := '(') (by decide) hc]

theorem steady_functionCall : Steady functionCall :=
  steady_identifier.bind fun _ => (steady_mark (by decide)).bind fun _ =>
    loose_spaces.bind_steady
      (fun _ => (steady_separated steady_value hungry_value loose_comma).bind fun _ =>
        steady_spaces_mark (by decide) (steady_pure _))
      fun _ => hungry_bind_of_keeps (steady_separated steady_value hungry_value loose_comma).keeps
        fun _ => hungry_spaces_mark

/-- One or more values between two brackets, with separators between them. -/
def inBrackets (left right : Char) (separator : Reader Char Unit) : Reader Char (List String) := do
  mark left
  spaces
  let values ← separated1 value separator
  spaces
  mark right
  return values

theorem valuesInParentheses_eq : valuesInParentheses = inBrackets '(' ')' comma := rfl

theorem valuesInBraces_eq : valuesInBraces = inBrackets '{' '}' spaces1 := rfl

theorem steady_inBrackets {left right : Char} {separator : Reader Char Unit}
    (hleft : isSpace left = false) (hright : isSpace right = false) (hs : Loose separator) :
    Steady (inBrackets left right separator) :=
  (steady_mark hleft).bind fun _ => loose_spaces.bind_steady
    (fun _ => (steady_separated1 steady_value hungry_value hs).bind fun _ =>
      steady_spaces_mark hright (steady_pure _))
    fun _ => hungry_bind (hungry_separated1 hungry_value)

theorem steady_valuesInParentheses : Steady valuesInParentheses := by
  rw [valuesInParentheses_eq]
  exact steady_inBrackets (by decide) (by decide) loose_comma

theorem steady_valuesInBraces : Steady valuesInBraces := by
  rw [valuesInBraces_eq]
  exact steady_inBrackets (by decide) (by decide) loose_spaces1

theorem steady_setMembership : Steady setMembership := by
  refine steady_identifier.bind fun _ => loose_spaces1.bind_steady
    (fun _ => (steady_word (by decide)).bind fun _ => loose_spaces1.bind_steady
      (fun _ => (steady_valuesInParentheses.orElse steady_valuesInBraces).bind fun _ =>
        steady_pure _) fun _ => ?_) fun _ => hungry_bind (hungry_word (by decide))
  exact hungry_bind (hungry_orElse (hungry_bind (hungry_mark _)) (hungry_bind (hungry_mark _)))

theorem isOperatorChar_of_isSpace {c : Char} (h : isSpace c = true) : isOperatorChar c = false := by
  simp only [isSpace, Bool.or_eq_true, beq_iff_eq] at h
  rcases h with rfl | rfl <;> decide

theorem loose_isWord : Loose isWord :=
  (steady_word (by decide)).loose.bind fun _ => loose_peek_spaces1.bind fun _ =>
    (steady_pure _).loose

theorem steady_operatorSymbol : Steady operatorSymbol :=
  ((steady_takeWhile1 fun _ => isOperatorChar_of_isSpace).satisfying _).bind fun _ => steady_pure _

/-- The word `is` is no symbol. -/
theorem isWord_fails_of_operatorSymbol {s r : List Char} {a : String}
    (h : operatorSymbol s = .ok a r) : Fails isWord s := by
  refine bind_fails_of_fails ((steady_word (by decide)).tentative.fails_iff.mpr fun u t hw => ?_)
  cases u
  obtain ⟨cs, v, hcs, -⟩ := bind_eq_ok.mp h
  obtain ⟨hne, hrun, -⟩ := takeWhile1_eq_ok.mp (satisfying_eq_ok.mp hcs).1
  rw [word_eq_ok.mp hw] at hrun
  exact hne hrun

theorem steady_comparisonClause : Steady comparisonClause :=
  steady_identifier.bind fun _ => loose_spaces.bind_steady
    (fun _ => (loose_isWord.orElse steady_operatorSymbol.loose
      fun _ _ _ => isWord_fails_of_operatorSymbol).bind_steady
        (fun _ => loose_spaces.bind_steady
          (fun _ => steady_value.bind fun _ => steady_pure _) fun _ => hungry_bind hungry_value)
        fun _ => hungry_bind_of_keeps loose_spaces.keeps fun _ => hungry_bind hungry_value)
    fun _ => hungry_bind (hungry_orElse (hungry_bind (hungry_word (by decide)))
      (hungry_bind (hungry_satisfying (hungry_takeWhile1 _))))

theorem steady_namedClause : Steady namedClause :=
  (steady_identifier.satisfying _).bind fun _ => steady_pure _

theorem steady_single : Steady single :=
  (steady_otherwiseWord.orElse <| steady_functionCall.orElse <| steady_setMembership.orElse <|
    steady_comparisonClause.orElse steady_namedClause).expecting _

theorem hungry_single : Hungry single :=
  hungry_expecting <| hungry_orElse (hungry_bind (hungry_word (by decide))) <|
    hungry_orElse (hungry_bind hungry_identifier) <| hungry_orElse (hungry_bind hungry_identifier) <|
    hungry_orElse (hungry_bind hungry_identifier) (hungry_bind (hungry_satisfying hungry_identifier))

theorem steady_another : Steady another :=
  loose_spaces1.bind_steady
    (fun _ => (steady_word (by decide)).bind fun _ =>
      loose_spaces1.bind_steady (fun _ => steady_single) fun _ => hungry_single)
    fun _ => hungry_bind (hungry_word (by decide))

theorem steady_clause : Steady clause :=
  steady_single.bind fun _ => steady_another.many.bind fun _ => steady_pure _

theorem hungry_clause : Hungry clause := hungry_bind hungry_single

end Clause

/-! ## Lines -/

namespace Directive

theorem settled_directiveText {name : String} (h : name.toList ≠ [])
    (hlast : name.toList.getLast?.any isSpace = false) : Settled (directiveText name) := by
  have hsame : directiveText name =
      (spaces >>= fun _ => word name) >>= fun _ => spaces := by
    rw [bind_assoc]
    rfl
  rw [hsame]
  exact (loose_spaces.bind_steady (fun _ => steady_word hlast) fun _ => hungry_word h).bind_settled
    fun _ => settled_spaces

theorem hungry_directiveText {name : String} (h : name.toList ≠ []) :
    Hungry (directiveText name) :=
  hungry_bind_of_keeps loose_spaces.keeps fun _ => hungry_bind (hungry_word h)

theorem tentative_directiveText (name : String) : Tentative (directiveText name) := by
  refine loose_spaces.tentative.bind fun _ => Tentative.bind ?_ fun _ => loose_spaces.tentative
  intro s e he
  unfold word at he
  split at he <;> cases he
  rfl

end Directive

namespace Block

theorem settled_lastCondition : Settled lastCondition :=
  Clause.steady_clause.bind_settled fun c => settled_finished c

theorem hungry_lastCondition : Hungry lastCondition := hungry_bind Clause.hungry_clause

theorem settled_openingText : Settled openingText := by
  have hsame : openingText = (spaces >>= fun _ => word "$IF") >>= fun _ =>
      spaces1 >>= fun _ => lastCondition.commit.within "$IF predicate" := by
    rw [bind_assoc]
    rfl
  rw [hsame]
  refine (loose_spaces.bind_steady (fun _ => steady_word (by decide))
    fun _ => hungry_word (by decide)).bind_settled fun _ => ?_
  exact settled_spaces1_bind (settled_lastCondition.commit.within _)
    (hungry_within (hungry_commit hungry_lastCondition))

theorem hungry_openingText : Hungry openingText :=
  hungry_bind_of_keeps loose_spaces.keeps fun _ => hungry_bind (hungry_word (by decide))

end Block

namespace Prose

open Word

theorem settled_headingText : Settled headingText := by
  have hsame : headingText = (spaces >>= fun _ => mark '#') >>= fun _ =>
      spaces1 >>= fun _ => restTrimmed := by
    rw [bind_assoc]
    rfl
  rw [hsame]
  exact (loose_spaces.bind_steady (fun _ => steady_mark (by decide))
    fun _ => hungry_mark _).bind_settled
      fun _ => settled_spaces1_bind settled_restTrimmed hungry_restTrimmed

theorem hungry_headingText : Hungry headingText :=
  hungry_bind_of_keeps loose_spaces.keeps fun _ => hungry_bind (hungry_mark _)

theorem tentative_headingText : Tentative headingText :=
  loose_spaces.tentative.bind fun _ => (steady_mark (by decide)).tentative.bind fun _ =>
    loose_spaces1.tentative.bind fun _ => tentative_restTrimmed

end Prose

namespace Tag

open Word

theorem steady_kind : Steady kind := by
  have hkeyword : ∀ k : TagKind, Steady (keyword k) := by
    intro k
    refine (steady_word ?_).bind fun _ => steady_pure _
    cases k <;> decide
  exact (hkeyword _).orElse <| (hkeyword _).orElse <| (hkeyword _).orElse <|
    (hkeyword _).orElse (hkeyword _)

/-- The start of a question tag, after which the tag must be right. -/
def tagStart : Reader Char TagKind := do
  spaces
  mark '['
  let k ← kind
  mark ':'
  return k

theorem steady_tagStart : Steady tagStart :=
  steady_spaces_mark (by decide) <| steady_kind.bind fun _ =>
    (steady_mark (by decide)).bind fun _ => steady_pure _

theorem tag_eq : tag = tagStart >>= fun kind => content.commit.within "question tag" >>= fun c =>
    pure { kind, name := c.1, options := c.2, choices := [] } := by
  unfold tag tagStart
  simp only [bind_assoc, pure_bind]

theorem isOptionChar_of_isSpace {c : Char} (h : isSpace c = true) : isOptionChar c = true := by
  simp only [isSpace, Bool.or_eq_true, beq_iff_eq] at h
  rcases h with rfl | rfl <;> decide

theorem greedy_option : Greedy option := by
  have hvalue := fun key : String => greedy_spaces_takeWhile1 (fun _ => isOptionChar_of_isSpace)
    fun cs => (key, String.ofList (Text.trim cs))
  have hhungry : ∀ key : String, Hungry (spaces >>= fun _ => takeWhile1 isOptionChar >>= fun cs =>
      (pure (key, String.ofList (Text.trim cs)) : Reader Char (String × String))) :=
    fun _ => hungry_bind_of_keeps loose_spaces.keeps fun _ => hungry_bind (hungry_takeWhile1 _)
  unfold option comma
  simp only [bind_assoc]
  refine greedy_spaces_bind (Steady.bind_greedy (steady_mark (by decide)) fun _ => ?_)
    (hungry_bind (hungry_mark _))
  refine greedy_spaces_bind (Steady.bind_greedy steady_identifier fun key => ?_)
    (hungry_bind hungry_identifier)
  exact greedy_spaces_bind (Steady.bind_greedy (steady_mark (by decide)) fun _ => hvalue key)
    (hungry_bind (hungry_mark _))

theorem tentative_option : Tentative option :=
  loose_comma.tentative.bind fun _ => steady_identifier.tentative.bind fun _ =>
    loose_spaces.tentative.bind fun _ => (steady_mark (by decide)).tentative.bind fun _ =>
      loose_spaces.tentative.bind fun _ => (tentative_takeWhile1 _).bind fun _ => tentative_pure _

theorem consumes_option : Consumes option := by
  refine Consumes.bind ?_ fun _ => steady_identifier.keeps.bind fun _ =>
    loose_spaces.keeps.bind fun _ => (steady_mark (by decide)).keeps.bind fun _ =>
      loose_spaces.keeps.bind fun _ => (keeps_takeWhile1 _).bind fun _ => keeps_pure _
  exact loose_spaces.keeps.bind_consumes fun _ =>
    ((consumes_character _).bind fun _ => keeps_pure _).bind fun _ => loose_spaces.keeps

theorem loose_options : Loose (many option) :=
  (greedy_option.many tentative_option consumes_option).loose
    (consumes_option.keeps.many) tentative_option.many

theorem settled_content : Settled content := by
  have hend : ∀ c : String × List (String × String),
      Settled (spaces >>= fun _ => finished >>= fun _ => (pure c : Reader Char _)) := settled_finished
  have hsame : content = (spaces >>= fun _ => identifier >>= fun name => many option >>= fun options =>
      spaces >>= fun _ => mark ']' >>= fun _ => pure (name, options)) >>= fun c =>
        spaces >>= fun _ => finished >>= fun _ => pure c := by
    unfold content
    simp only [bind_assoc, pure_bind]
  rw [hsame]
  refine Steady.bind_settled (loose_spaces.bind_steady (fun _ => steady_identifier.bind fun _ =>
    loose_options.bind_steady (fun _ => steady_spaces_mark (by decide) (steady_pure _))
      fun _ => hungry_spaces_mark) fun _ => hungry_bind hungry_identifier) hend

theorem settled_tag : Settled tag := by
  rw [tag_eq]
  exact steady_tagStart.bind_settled fun _ =>
    (settled_content.commit.within _).bind_pure _

theorem hungry_tag : Hungry tag :=
  hungry_bind_of_keeps loose_spaces.keeps fun _ => hungry_bind (hungry_mark _)

theorem settled_choice : Settled choice := by
  have hsame : choice = (spaces >>= fun _ => bulletMark >>= fun _ => spaces >>= fun _ =>
      identifier >>= fun value => mark ':' >>= fun _ => pure value) >>= fun value =>
        (spaces >>= fun _ => restTrimmed) >>= fun label => pure (value, label) := by
    unfold choice
    simp only [bind_assoc, pure_bind]
  rw [hsame]
  refine Steady.bind_settled ?_ fun _ =>
    (settled_spaces_bind settled_restTrimmed).bind_pure _
  exact loose_spaces.bind_steady (fun _ => steady_bulletMark.bind fun _ =>
    loose_spaces.bind_steady (fun _ => steady_identifier.bind fun _ =>
      (steady_mark (by decide)).bind fun _ => steady_pure _) fun _ => hungry_bind hungry_identifier)
    fun _ => hungry_bind hungry_bulletMark

theorem hungry_choice : Hungry choice :=
  hungry_bind_of_keeps loose_spaces.keeps fun _ => hungry_bind hungry_bulletMark

theorem tentative_choice : Tentative choice :=
  loose_spaces.tentative.bind fun _ => steady_bulletMark.tentative.bind fun _ =>
    loose_spaces.tentative.bind fun _ => steady_identifier.tentative.bind fun _ =>
      (steady_mark (by decide)).tentative.bind fun _ => loose_spaces.tentative.bind fun _ =>
        tentative_restTrimmed.bind fun _ => tentative_pure _

theorem settled_startContent : Settled startContent := by
  have hsame : startContent = (spaces >>= fun _ => identifier >>= fun name => spaces >>= fun _ =>
      mark ']' >>= fun _ => pure name) >>= fun name =>
        spaces >>= fun _ => finished >>= fun _ => pure name := by
    unfold startContent
    simp only [bind_assoc, pure_bind]
  rw [hsame]
  exact Steady.bind_settled (loose_spaces.bind_steady (fun _ => steady_identifier.bind fun _ =>
    steady_spaces_mark (by decide) (steady_pure _)) fun _ => hungry_bind hungry_identifier)
      fun name => settled_finished name

/-- The start of a start button, after which the tag must be right. -/
def startStart : Reader Char Unit := do
  spaces
  word "[start:"

theorem steady_startStart : Steady startStart :=
  loose_spaces.bind_steady (fun _ => steady_word (by decide)) fun _ => hungry_word (by decide)

theorem startText_eq :
    startText = startStart >>= fun _ => startContent.commit.within "start button" := by
  unfold startText startStart
  rw [bind_assoc]

theorem settled_startText : Settled startText := by
  rw [startText_eq]
  exact steady_startStart.bind_settled fun _ => settled_startContent.commit.within _

theorem hungry_startText : Hungry startText :=
  hungry_bind_of_keeps loose_spaces.keeps fun _ => hungry_bind (hungry_word (by decide))

end Tag

namespace Bullet

open Word

theorem loose_indentation : Loose indentation :=
  (loose_takeWhile fun _ h => h).bind fun _ => (steady_pure _).loose

/-- A bullet up to its condition. -/
def stem (indent : Nat) : Reader Char Clause := do
  let _ ← indentation.satisfying (· == indent)
  bulletMark
  spaces1
  Clause.clause

theorem steady_stem (indent : Nat) : Steady (stem indent) :=
  (loose_indentation.satisfying _).bind_steady
    (fun _ => steady_bulletMark.bind fun _ =>
      loose_spaces1.bind_steady (fun _ => Clause.steady_clause) fun _ => Clause.hungry_clause)
    fun _ => hungry_bind hungry_bulletMark

theorem hungry_stem (indent : Nat) : Hungry (stem indent) :=
  hungry_bind_of_keeps (loose_indentation.satisfying _).keeps fun _ => hungry_bind hungry_bulletMark

/-- What follows the condition of a bullet: an arrow and a target, or nothing. -/
def ending : Reader Char (Option String) := do
  spaces
  let arrow ← (word "=>").maybe
  if arrow.isSome then
    let name ← lastTarget
    return some name
  else
    return none

theorem head_eq (indent : Nat) : head indent = stem indent >>= fun condition =>
    ending >>= fun target => pure (condition, target) := by
  unfold head stem ending
  simp only [bind_assoc]
  congr! 12
  split <;> simp

end Bullet

namespace Document

open Word

theorem settled_entryText : Settled entryText := by
  have hsame : entryText = (takeWhile1 isNameChar >>= fun key => mark ':' >>= fun _ => pure key) >>=
      fun key => (spaces >>= fun _ => restTrimmed) >>= fun value =>
        pure (String.ofList key, value) := by
    unfold entryText
    simp only [bind_assoc, pure_bind]
  rw [hsame]
  exact Steady.bind_settled ((steady_takeWhile1 fun _ => isNameChar_of_isSpace).bind fun _ =>
    (steady_mark (by decide)).bind fun _ => steady_pure _)
      fun _ => (settled_spaces_bind settled_restTrimmed).bind_pure _

theorem hungry_entryText : Hungry entryText := hungry_bind (hungry_takeWhile1 _)

theorem tentative_entryText : Tentative entryText :=
  (tentative_takeWhile1 _).bind fun _ => (steady_mark (by decide)).tentative.bind fun _ =>
    loose_spaces.tentative.bind fun _ => tentative_restTrimmed.bind fun _ => tentative_pure _

theorem settled_fence : Settled fence :=
  (steady_word (by decide)).bind_settled fun _ => settled_spaces

theorem hungry_fence : Hungry fence := hungry_bind (hungry_word (by decide))

theorem tentative_fence : Tentative fence :=
  (steady_word (by decide)).tentative.bind fun _ => loose_spaces.tentative

end Document

end Interview
