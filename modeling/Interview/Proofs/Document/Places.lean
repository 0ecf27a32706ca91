import Interview.Document.Reading
import Interview.Proofs.Reader.Failure

/-!
# Where the readers of a document fail

Whatever is read in a document, a failure stands at an end of the text, and the hint of a block is
given by the reader of blocks only.

* `Block.hint`, `Inner`: the hint of a block, and the other hints.
* `Stands`: a failure at an end of the text that gives other hints only.
* `Word.tracks_identifier`, `Clause.tracks_clause` and so on: one lemma for each reader.
* `Block.tracks_plain`: the readers of blocks that are no conditionals.
-/

namespace Interview

open Reader Word

/-- What a block says about a failure in it. -/
def Block.hint : Hint := .expected "heading, paragraph, question, conditional or next node rules"

/-- A hint that no block gives. -/
def Inner (h : Hint) : Prop := h ≠ Block.hint

theorem inner_invalid (c : String) : Inner (.invalid c) := nofun

theorem inner_expected {d : String}
    (h : d ≠ "heading, paragraph, question, conditional or next node rules") :
    Inner (.expected d) := fun heq => h (Hint.expected.inj heq)

/-- The failure stands at an end of the text of `ls`, and none of its hints is that of a block. -/
structure Stands (ls : List Line) (e : Failure Line) : Prop where
  place : Line.join e.place <:+ Line.join ls
  inner : ∀ h ∈ e.hints, Inner h

section Stands

variable {α : Type} {p : Reader Line α} {ls ks : List Line} {e : Failure Line}

theorem Stands.of_suffix (h : Stands ks e) (hks : ks <:+ ls) : Stands ls e :=
  ⟨h.place.trans (join_suffix hks), h.inner⟩

theorem Reader.Tracks.stands (hp : Tracks Line.join Inner p) (h : p ls = .fail e) :
    Stands ls e := by
  have hs := hp ls
  rw [h] at hs
  exact ⟨hs.1, hs.2⟩

end Stands

/-! ## Words -/

namespace Word

theorem tracks_mark (c : Char) : Tracks id Inner (mark c) :=
  (tracks_character _).bind fun _ => tracks_pure _

theorem tracks_identifier : Tracks id Inner identifier :=
  (tracks_takeWhile1 _).bind fun _ => (tracks_character _).maybe.bind fun _ => tracks_pure _

theorem tracks_quotedBy (q : Char) : Tracks id Inner (quotedBy q) :=
  (tracks_mark q).bind fun _ => (tracks_takeWhile _).bind fun _ => (tracks_mark q).bind fun _ =>
    tracks_pure _

theorem tracks_value : Tracks id Inner value :=
  (tracks_quotedBy _).orElse <| (tracks_quotedBy _).orElse <|
    (tracks_takeWhile1 _).bind fun _ => tracks_pure _

theorem tracks_comma : Tracks id Inner comma :=
  tracks_spaces.bind fun _ => (tracks_mark _).bind fun _ => tracks_spaces

theorem tracks_bulletMark : Tracks id Inner bulletMark :=
  (tracks_character _).bind fun _ => tracks_pure _

theorem tracks_restTrimmed : Tracks id Inner restTrimmed :=
  (tracks_restOfLine.satisfying _).bind fun _ => tracks_pure _

end Word

/-! ## Conditions -/

namespace Clause

theorem tracks_otherwiseWord : Tracks id Inner otherwiseWord :=
  (tracks_word _).bind fun _ => (tracks_character _).absent.bind fun _ => tracks_pure _

theorem tracks_functionCall : Tracks id Inner functionCall :=
  tracks_identifier.bind fun _ => (tracks_mark _).bind fun _ => tracks_spaces.bind fun _ =>
    (tracks_value.separated tracks_comma).bind fun _ => tracks_spaces.bind fun _ =>
      (tracks_mark _).bind fun _ => tracks_pure _

theorem tracks_valuesInParentheses : Tracks id Inner valuesInParentheses :=
  (tracks_mark _).bind fun _ => tracks_spaces.bind fun _ =>
    (tracks_value.separated1 tracks_comma).bind fun _ => tracks_spaces.bind fun _ =>
      (tracks_mark _).bind fun _ => tracks_pure _

theorem tracks_valuesInBraces : Tracks id Inner valuesInBraces :=
  (tracks_mark _).bind fun _ => tracks_spaces.bind fun _ =>
    (tracks_value.separated1 tracks_spaces1).bind fun _ => tracks_spaces.bind fun _ =>
      (tracks_mark _).bind fun _ => tracks_pure _

theorem tracks_setMembership : Tracks id Inner setMembership :=
  tracks_identifier.bind fun _ => tracks_spaces1.bind fun _ => (tracks_word _).bind fun _ =>
    tracks_spaces1.bind fun _ =>
      (tracks_valuesInParentheses.orElse tracks_valuesInBraces).bind fun _ => tracks_pure _

theorem tracks_isWord : Tracks id Inner isWord :=
  (tracks_word _).bind fun _ => tracks_spaces1.peek.bind fun _ => tracks_pure _

theorem tracks_operatorSymbol : Tracks id Inner operatorSymbol :=
  ((tracks_takeWhile1 _).satisfying _).bind fun _ => tracks_pure _

theorem tracks_comparisonClause : Tracks id Inner comparisonClause :=
  tracks_identifier.bind fun _ => tracks_spaces.bind fun _ =>
    (tracks_isWord.orElse tracks_operatorSymbol).bind fun _ => tracks_spaces.bind fun _ =>
      tracks_value.bind fun _ => tracks_pure _

theorem tracks_namedClause : Tracks id Inner namedClause :=
  (tracks_identifier.satisfying _).bind fun _ => tracks_pure _

theorem tracks_single : Tracks id Inner single :=
  (tracks_otherwiseWord.orElse <| tracks_functionCall.orElse <| tracks_setMembership.orElse <|
    tracks_comparisonClause.orElse tracks_namedClause).expecting (inner_expected (by decide))

theorem tracks_another : Tracks id Inner another :=
  tracks_spaces1.bind fun _ => (tracks_word _).bind fun _ => tracks_spaces1.bind fun _ =>
    tracks_single

theorem tracks_clause : Tracks id Inner clause :=
  tracks_single.bind fun _ => tracks_another.many.bind fun _ => tracks_pure _

end Clause

/-! ## Bullets -/

namespace Directive

theorem tracks_directiveText (n : String) : Tracks id Inner (directiveText n) :=
  tracks_spaces.bind fun _ => (tracks_word n).bind fun _ => tracks_spaces

theorem tracks_directive (n : String) : Tracks Line.join Inner (directive n) :=
  (tracks_directiveText n).line

end Directive

namespace Bullet

theorem tracks_indentation : Tracks id Inner indentation :=
  (tracks_takeWhile _).bind fun _ => tracks_pure _

theorem tracks_target : Tracks id Inner target :=
  (tracks_takeWhile1 _).bind fun _ => tracks_pure _

theorem tracks_lastTarget : Tracks id Inner lastTarget :=
  tracks_spaces.bind fun _ =>
    (tracks_target.commit.expecting (inner_expected (by decide))).bind fun _ =>
      (tracks_spaces.bind fun _ => tracks_finished).commit.bind fun _ => tracks_pure _

theorem tracks_head (indent : Nat) : Tracks id Inner (head indent) := by
  refine (tracks_indentation.satisfying _).bind fun _ => tracks_bulletMark.bind fun _ =>
    tracks_spaces1.bind fun _ => Clause.tracks_clause.bind fun _ => tracks_spaces.bind fun _ =>
      (tracks_word _).maybe.bind fun _ => ?_
  split
  · exact tracks_lastTarget.bind fun _ => tracks_pure _
  · exact tracks_pure _

variable {f : Nat → Reader Line (List Bullet)}

theorem tracks_under (hf : ∀ j, Tracks Line.join Inner (f j)) (indent : Nat) :
    Tracks Line.join Inner (under f indent) := by
  refine tracks_indentation.ahead.bind fun inner => ?_
  split
  · exact tracks_reject
  · exact hf inner

theorem tracks_item (hf : ∀ j, Tracks Line.join Inner (f j)) (indent : Nat) :
    Tracks Line.join Inner (item f indent) := by
  refine (tracks_head indent).line.bind fun (condition, name) => ?_
  cases name with
  | some name => exact tracks_pure _
  | none =>
    exact ((tracks_under hf indent).commit.expecting (inner_expected (by decide))).bind
      fun _ => tracks_pure _

theorem tracks_list (indent : Nat) : Tracks Line.join Inner (list indent) :=
  Tracks.fix (fun _ hf indent => (tracks_item hf indent).many1) indent

theorem tracks_atEnd : Tracks Line.join Inner atEnd :=
  tracks_atVacantLine.orElse
    ((tracks_restOfLine.satisfying _).bind fun _ => tracks_pure _).ahead

theorem tracks_block : Tracks Line.join Inner block :=
  tracks_indentation.ahead.bind fun indent => (tracks_list indent).bind fun _ =>
    (tracks_atEnd.commit.expecting (inner_expected (by decide))).bind fun _ => tracks_pure _

end Bullet

/-! ## Tags -/

namespace Tag

theorem tracks_keyword (k : TagKind) : Tracks id Inner (keyword k) :=
  (tracks_word _).bind fun _ => tracks_pure _

theorem tracks_kind : Tracks id Inner kind :=
  (tracks_keyword _).orElse <| (tracks_keyword _).orElse <| (tracks_keyword _).orElse <|
    (tracks_keyword _).orElse (tracks_keyword _)

theorem tracks_option : Tracks id Inner option :=
  tracks_comma.bind fun _ => tracks_identifier.bind fun _ => tracks_spaces.bind fun _ =>
    (tracks_mark _).bind fun _ => tracks_spaces.bind fun _ => (tracks_takeWhile1 _).bind fun _ =>
      tracks_pure _

theorem tracks_content : Tracks id Inner content :=
  tracks_spaces.bind fun _ => tracks_identifier.bind fun _ => tracks_option.many.bind fun _ =>
    tracks_spaces.bind fun _ => (tracks_mark _).bind fun _ => tracks_spaces.bind fun _ =>
      tracks_finished.bind fun _ => tracks_pure _

theorem tracks_tag : Tracks id Inner tag :=
  tracks_spaces.bind fun _ => (tracks_mark _).bind fun _ => tracks_kind.bind fun _ =>
    (tracks_mark _).bind fun _ => (tracks_content.commit.within (inner_invalid _)).bind fun _ =>
      tracks_pure _

theorem tracks_choice : Tracks id Inner choice :=
  tracks_spaces.bind fun _ => tracks_bulletMark.bind fun _ => tracks_spaces.bind fun _ =>
    tracks_identifier.bind fun _ => (tracks_mark _).bind fun _ => tracks_spaces.bind fun _ =>
      tracks_restTrimmed.bind fun _ => tracks_pure _

theorem tracks_question : Tracks Line.join Inner question := by
  refine tracks_tag.line.bind fun tag => ?_
  split
  · exact (tracks_choice.line.many1.commit.expecting (inner_expected (by decide))).bind
      fun _ => tracks_pure _
  · exact tracks_pure _

theorem tracks_startContent : Tracks id Inner startContent :=
  tracks_spaces.bind fun _ => tracks_identifier.bind fun _ => tracks_spaces.bind fun _ =>
    (tracks_mark _).bind fun _ => tracks_spaces.bind fun _ => tracks_finished.bind fun _ =>
      tracks_pure _

theorem tracks_startButton : Tracks Line.join Inner startButton :=
  Tracks.line <| tracks_spaces.bind fun _ => (tracks_word _).bind fun _ =>
    tracks_startContent.commit.within (inner_invalid _)

end Tag

/-! ## Prose -/

namespace Prose

theorem tracks_heading : Tracks Line.join Inner heading :=
  Tracks.line <| tracks_spaces.bind fun _ => (tracks_mark _).bind fun _ =>
    tracks_spaces1.bind fun _ => tracks_restTrimmed

theorem tracks_paragraph : Tracks Line.join Inner paragraph := by
  have hline : Tracks Line.join Inner paragraphLine :=
    Tracks.lineBreaking ((tracks_restOfLine.satisfying _).bind fun _ => tracks_pure _)
  exact hline.many1.bind fun _ => tracks_pure _

theorem tracks_nextStepsLines : Tracks Line.join Inner nextStepsLines :=
  (tracks_restOfLine.brokenLine.manyUntil (Directive.tracks_directive _)).commit.expecting
    (inner_expected (by decide))

theorem tracks_nextSteps : Tracks Line.join Inner nextSteps :=
  (Directive.tracks_directiveText _).brokenLine.bind fun _ => tracks_nextStepsLines.bind fun _ =>
    tracks_pure _

end Prose

/-! ## Blocks and front matter -/

namespace Block

theorem tracks_opening : Tracks Line.join Inner opening :=
  Tracks.line <| tracks_spaces.bind fun _ => (tracks_word _).bind fun _ =>
    tracks_spaces1.bind fun _ => Tracks.within (Tracks.commit <|
      Clause.tracks_clause.bind fun _ => tracks_spaces.bind fun _ => tracks_finished.bind fun _ =>
        tracks_pure _) (inner_invalid _)

/-- A block that is no conditional. -/
def plain : Reader Line Block :=
  nextSteps <$> Prose.nextSteps <|> heading <$> Prose.heading <|>
    startButton <$> Tag.startButton <|> question <$> Tag.question <|>
    rules <$> Bullet.block <|> paragraph <$> Prose.paragraph

theorem tracks_plain : Tracks Line.join Inner plain :=
  (Prose.tracks_nextSteps.map _).orElse <| (Prose.tracks_heading.map _).orElse <|
    (Tag.tracks_startButton.map _).orElse <| (Tag.tracks_question.map _).orElse <|
      (Bullet.tracks_block.map _).orElse (Prose.tracks_paragraph.map _)

end Block

namespace Document

theorem tracks_entry : Tracks Line.join Inner entry :=
  Tracks.line <| (tracks_takeWhile1 _).bind fun _ => (tracks_mark _).bind fun _ =>
    tracks_spaces.bind fun _ => tracks_restTrimmed.bind fun _ => tracks_pure _

theorem tracks_fence : Tracks id Inner fence := (tracks_word _).bind fun _ => tracks_spaces

theorem tracks_fencedFrontMatter : Tracks Line.join Inner fencedFrontMatter :=
  tracks_fence.brokenLine.bind fun _ => Tracks.within (Tracks.commit <|
    tracks_entry.many.bind fun _ => tracks_fence.line.bind fun _ => tracks_pure _) (inner_invalid _)

end Document

end Interview
