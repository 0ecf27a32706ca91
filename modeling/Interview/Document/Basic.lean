/-!
# Documents

A document describes one node of an interview as its author wrote it: front matter, then blocks.
Nothing is interpreted here: operators and question options are kept as they are spelled.
-/

namespace Interview

/-- A condition as written. -/
inductive Clause where
  /-- A variable, an operator and a value. -/
  | comparison (subject operator value : String)
  /-- A variable and the values it may have. -/
  | membership (subject : String) (values : List String)
  /-- A name that ends in a question mark. -/
  | named (name : String)
  /-- The word `otherwise`. -/
  | otherwise
  /-- Conditions joined by the word `and`. -/
  | conjunction (members : List Clause)
  /-- A function applied to values. -/
  | call (function : String) (arguments : List String)

/-- A bullet that says where the interview goes on. -/
inductive Bullet where
  /-- A condition and the node that follows if it holds. -/
  | goTo (condition : Clause) (target : String)
  /-- A condition and the bullets indented under it. -/
  | group (condition : Clause) (children : List Bullet)

/-- The word that a question tag starts with. -/
inductive TagKind where
  /-- One of several choices. -/
  | choice
  /-- Any text. -/
  | text
  /-- An amount of pay. -/
  | salary
  /-- A calendar date. -/
  | date
  /-- A country of a table. -/
  | country
  deriving DecidableEq

/-- The word for a kind of question. -/
def TagKind.keyword : TagKind → String
  | .choice => "choice"
  | .text => "text"
  | .salary => "salary"
  | .date => "date"
  | .country => "country"

/-- A question as written. -/
structure QuestionTag where
  /-- The kind of question. -/
  kind : TagKind
  /-- The name of the question. -/
  name : String
  /-- Keys and values inside the tag. -/
  options : List (String × String)
  /-- Values and labels of the bullets under the tag, of which only a choice has any. -/
  choices : List (String × String)
  deriving DecidableEq

/-- A block of a document. -/
inductive Block where
  /-- A heading. -/
  | heading (text : String)
  /-- A paragraph, its line breaks included. -/
  | paragraph (text : String)
  /-- A question tag and its bullets. -/
  | question (tag : QuestionTag)
  /-- A button that leads to a node. -/
  | startButton (target : String)
  /-- The text of a box of next steps. -/
  | nextSteps (text : String)
  /-- Blocks shown if a condition holds, and blocks shown if it does not. -/
  | conditional (condition : Clause) (thenBlocks elseBlocks : List Block)
  /-- Bullets that say where the interview goes on. -/
  | rules (bullets : List Bullet)

/-- What an author wrote about one node. -/
structure Document where
  /-- Keys and values at the top, in order. -/
  frontMatter : List (String × String)
  /-- The blocks, in order. -/
  body : List Block

end Interview
