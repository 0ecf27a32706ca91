import Interview.Predicate

/-!
# Nodes

A node is one step of an interview: what is shown, what is asked, and where the interview goes
on. Its first list of rules decides that; without rules, its first start button does.

* `Node.rules?`, `Node.startButton?`, `Node.isTerminal`: the ways on.
* `Node.answerKey`: the name under which the answer is kept.
* `Rule.outcomes`: the targets of a rule, in document order.
-/

namespace Interview

/-- A rule that says where an interview goes on. -/
inductive Rule where
  /-- If the predicate holds, the target is next. -/
  | goTo (predicate : Predicate) (target : String)
  /-- If the predicate holds, only the children decide. -/
  | group (predicate : Predicate) (children : List Rule)

namespace Rule

/-- The condition of a rule. -/
def predicate : Rule → Predicate
  | goTo p _ => p
  | group p _ => p

mutual

/-- The targets of a rule, in document order. -/
def outcomes : Rule → List String
  | goTo _ target => [target]
  | group _ children => allOutcomes children

/-- The targets of some rules, in document order. -/
def allOutcomes : List Rule → List String
  | [] => []
  | r :: rs => outcomes r ++ allOutcomes rs

end

end Rule

/-- What kind of answer a question asks for. -/
inductive AnswerForm where
  /-- One of several values, each with a label. -/
  | choice (choices : List (String × String))
  /-- Any text. -/
  | text
  /-- An amount of pay. -/
  | salary
  /-- A date, perhaps between two limits. -/
  | date (earliest latest : Option String)
  /-- A country, by code, each with a label. -/
  | country (countries : List (String × String))
  deriving DecidableEq

/-- A question. -/
structure Question where
  /-- The name of the question. -/
  name : String
  /-- Another name for the answer. -/
  otherName : Option String
  /-- The kind of answer. -/
  form : AnswerForm
  deriving DecidableEq

/-- Whether the answer is one of several choices. -/
def Question.isChoice (q : Question) : Bool :=
  match q.form with
  | .choice _ => true
  | _ => false

/-- A part of a node. -/
inductive Element where
  /-- A heading. -/
  | heading (text : String)
  /-- A paragraph. -/
  | paragraph (text : String)
  /-- A button that leads to a node. -/
  | startButton (target : String)
  /-- A question. -/
  | question (question : Question)
  /-- Elements shown if a predicate holds, and elements shown if it does not. -/
  | conditional (predicate : Predicate) (thenElements elseElements : List Element)
  /-- The text of a box of next steps. -/
  | nextSteps (text : String)
  /-- Rules that say where the interview goes on. -/
  | rules (rules : List Rule)

/-- Keys and values at the top of a document, in order. -/
structure FrontMatter where
  /-- The keys and values. -/
  entries : List (String × String)
  deriving DecidableEq

/-- The value of a key; the last one, if the key is repeated. -/
def FrontMatter.get? (f : FrontMatter) (key : String) : Option String :=
  (f.entries.reverse.find? (·.1 == key)).map (·.2)

/-- One step of an interview. -/
structure Node where
  /-- The name of the node. -/
  name : String
  /-- What the node consists of. -/
  elements : List Element
  /-- What is said about the node. -/
  frontMatter : FrontMatter

namespace Node

/-- The first list of rules. -/
def rules? (n : Node) : Option (List Rule) :=
  n.elements.findSome? fun
    | .rules rules => some rules
    | _ => none

/-- The target of the first start button. -/
def startButton? (n : Node) : Option String :=
  n.elements.findSome? fun
    | .startButton target => some target
    | _ => none

/-- The questions, in order. -/
def questions (n : Node) : List Question :=
  n.elements.filterMap fun
    | .question q => some q
    | _ => none

/-- The first question with choices. -/
def choiceQuestion? (n : Node) : Option Question := n.questions.find? Question.isChoice

/-- Whether the interview ends here. -/
def isTerminal (n : Node) : Bool := n.rules?.isNone && n.startButton?.isNone

/-- The name under which the answer is kept: that of the first question with choices, else that
of the node. -/
def answerKey (n : Node) : String := (n.choiceQuestion?.map (·.name)).getD n.name

/-- How a node is shown. -/
def render (n : Node) : String :=
  let size := toString n.elements.length
  s!"Node({n.name}, {size} elements)"

end Node

end Interview
