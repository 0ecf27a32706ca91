import Interview.Document.Basic
import Interview.Node
import Interview.Registry

/-!
# Typing of documents

A document becomes a node once every operator in it is known and every country question names a
table of the host. Parts are typed before the condition they stand under, so of two defects the
one found first is the deeper or the earlier.

* `Defect`: what can be wrong with a document that could be read.
* `Predicate.ofClause`, `Rule.ofBullet`, `Question.ofTag`, `Element.ofBlock`: typing of the parts.
* `Node.ofDocument`: typing of a document.
-/

namespace Interview

/-- What can be wrong with a document that could be read. -/
inductive Defect where
  /-- A condition has an operator that is not known. -/
  | unknownOperator (node operator : String)
  /-- A country question names a table that the host does not have. -/
  | unknownCountryTable (node question table : String)
  /-- A question lacks an option that its kind needs. -/
  | missingOption (node question option : String)
  deriving DecidableEq

/-- How a defect is said. -/
def Defect.message : Defect → String
  | unknownOperator node operator =>
    s!"unknown rule type: comparison operator '{operator}' in node '{node}'"
  | unknownCountryTable node question table =>
    s!"unknown country table '{table}' for question '{question}' in node '{node}'"
  | missingOption node question option =>
    s!"question '{question}' in node '{node}' is missing required option '{option}'"

/-! ## Conditions -/

/-- The predicate that an operator makes of a variable and a value. -/
def Predicate.ofOperator (node subject operator value : String) : Except Defect Predicate :=
  if operator = "is" ∨ operator = "==" then .ok (.equals subject value)
  else
    match Comparison.ofSymbol? operator with
    | some c => .ok (.compares subject c value)
    | none => .error (.unknownOperator node operator)

namespace Predicate

mutual

/-- The predicate that a condition spells. -/
def ofClause (node : String) : Clause → Except Defect Predicate
  | .comparison subject operator value => ofOperator node subject operator value
  | .membership subject values => .ok (oneOf subject values)
  | .named name => .ok (named name)
  | .otherwise => .ok otherwise
  | .conjunction members => do
    let members ← ofClauses node members
    return all members
  | .call function arguments => .ok (call function arguments)

/-- The predicates that some conditions spell. -/
def ofClauses (node : String) : List Clause → Except Defect (List Predicate)
  | [] => .ok []
  | c :: cs => do
    let p ← ofClause node c
    let ps ← ofClauses node cs
    return p :: ps

end

end Predicate

/-! ## Rules -/

namespace Rule

mutual

/-- The rule that a bullet spells. -/
def ofBullet (node : String) : Bullet → Except Defect Rule
  | .goTo condition target => do
    let p ← Predicate.ofClause node condition
    return goTo p target
  | .group condition children => do
    let children ← ofBullets node children
    let p ← Predicate.ofClause node condition
    return group p children

/-- The rules that some bullets spell. -/
def ofBullets (node : String) : List Bullet → Except Defect (List Rule)
  | [] => .ok []
  | b :: bs => do
    let r ← ofBullet node b
    let rs ← ofBullets node bs
    return r :: rs

end

end Rule

/-! ## Questions -/

/-- The value of an option of a tag; the last one, if the key is repeated. -/
def QuestionTag.option? (tag : QuestionTag) (key : String) : Option String :=
  (tag.options.reverse.find? (·.1 == key)).map (·.2)

/-- The table of countries that a tag names. -/
def QuestionTag.countries (tag : QuestionTag) (node : String) (r : Registry) :
    Except Defect CountryTable :=
  match tag.option? "countries" with
  | none => .error (.missingOption node tag.name "countries")
  | some table =>
    match r.countryTables[table]? with
    | none => .error (.unknownCountryTable node tag.name table)
    | some countries => .ok countries

/-- The kind of answer that a tag asks for. -/
def AnswerForm.ofTag (node : String) (r : Registry) (tag : QuestionTag) :
    Except Defect AnswerForm :=
  match tag.kind with
  | .choice => .ok (.choice tag.choices)
  | .text => .ok .text
  | .salary => .ok .salary
  | .date => .ok (.date (tag.option? "from") (tag.option? "to"))
  | .country => do
    let countries ← tag.countries node r
    return .country countries

/-- The question that a tag spells. -/
def Question.ofTag (node : String) (r : Registry) (tag : QuestionTag) : Except Defect Question := do
  let form ← AnswerForm.ofTag node r tag
  return { name := tag.name, otherName := tag.option? "alias", form }

/-! ## Blocks -/

namespace Element

mutual

/-- The element that a block spells. -/
def ofBlock (node : String) (r : Registry) : Block → Except Defect Element
  | .heading text => .ok (heading text)
  | .paragraph text => .ok (paragraph text)
  | .question tag => do
    let q ← Question.ofTag node r tag
    return question q
  | .startButton target => .ok (startButton target)
  | .nextSteps text => .ok (nextSteps text)
  | .conditional condition thenBlocks elseBlocks => do
    let thenElements ← ofBlocks node r thenBlocks
    let elseElements ← ofBlocks node r elseBlocks
    let p ← Predicate.ofClause node condition
    return conditional p thenElements elseElements
  | .rules bullets => do
    let rs ← Rule.ofBullets node bullets
    return rules rs

/-- The elements that some blocks spell. -/
def ofBlocks (node : String) (r : Registry) : List Block → Except Defect (List Element)
  | [] => .ok []
  | b :: bs => do
    let e ← ofBlock node r b
    let es ← ofBlocks node r bs
    return e :: es

end

end Element

/-- The node that a document describes. -/
def Node.ofDocument (name : String) (r : Registry) (d : Document) : Except Defect Node := do
  let elements ← Element.ofBlocks name r d.body
  return { name, elements, frontMatter := ⟨d.frontMatter⟩ }

end Interview
