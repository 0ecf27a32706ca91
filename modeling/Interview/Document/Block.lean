import Interview.Document.Bullets
import Interview.Document.Prose
import Interview.Document.Question

/-!
# Reading blocks

Blocks follow one another, with vacant lines between them, up to the end of the input or to the
directive that ends a branch of a conditional. The first kind of block that fits is read; what
fits no other kind is a paragraph.

* `branching`, `single`: the readers of one block, given the reader of the blocks in a branch.
* `Block.list`: blocks up to the end of the input or of the branch.
-/

namespace Interview

namespace Block

open Reader Directive

/-- A condition, to the end of the line. -/
def lastCondition : Reader Char Clause := do
  let condition ← Clause.clause
  spaces
  finished
  return condition

/-- The directive `$IF`, after which there must be a condition. -/
def openingText : Reader Char Clause := do
  spaces
  word "$IF"
  spaces1
  lastCondition.commit.within "$IF predicate"

/-- The line that opens a conditional. -/
def opening : Reader Line Clause := line openingText

/-- A conditional whose branches are read with `blocks`. -/
def branching (blocks : Reader Line (List Block)) : Reader Line Block := do
  let condition ← opening
  let thenBlocks ← blocks.commit
  let otherwise ← (directive "$ELSE").maybe
  let elseBlocks ← if otherwise.isSome then blocks.commit else pure []
  (directive "$ENDIF").commit.expecting "$ENDIF"
  return .conditional condition thenBlocks elseBlocks

/-- A block, whose branches are read with `blocks` if it is a conditional. -/
def single (blocks : Reader Line (List Block)) : Reader Line Block :=
  (branching blocks <|> nextSteps <$> Prose.nextSteps <|> heading <$> Prose.heading <|>
    startButton <$> Tag.startButton <|> question <$> Tag.question <|>
    rules <$> Bullet.block <|> paragraph <$> Prose.paragraph).expecting
    "heading, paragraph, question, conditional or next node rules"

/-- Whether a branch ends here, or the whole text. -/
def atBranchEnd : List Line → Bool
  | [] => true
  | l :: _ => endsBranch l.text

/-- The blocks up to the end of the input or of the branch. -/
def list : Reader Line (List Block) :=
  fix (fun blocks (_ : Unit) => do
    vacantLines
    if atBranchEnd (← remaining) then
      return []
    else
      let first ← single (blocks ())
      let others ← blocks ()
      return first :: others) ()

end Block

end Interview
