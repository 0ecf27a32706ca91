import Interview.Fault
import Interview.Text.Blank
import Std.Data.ExtTreeMap

/-!
# States

A state holds what is known in an interview: the answers, the nodes visited and the node the
interview is at. It maps keys to values, and two spellings of a key with the same normal form are
the same key. The last value put under a key is the one that is found.

* `get?_put_same`, `get?_put_other`: the last write wins, and other keys keep their values.
* `getText_eq_ok`, `getList_eq_ok`: a value is found only in its own shape.
-/

namespace Interview

namespace Key

/-- The key of the node the interview is at. -/
def currentNode : String := "current_node"

/-- The key of the nodes visited. -/
def path : String := "path"

/-- The key of the answers accepted. -/
def responses : String := "accepted_responses"

/-- The key of the answers to the current node. -/
def currentAnswers : String := "current_answers"

/-- The ASCII letters of a text in lower case. -/
def toLower (s : List Char) : List Char := s.map Char.toLower

/-- The text without a colon at its start. -/
def dropColon : List Char → List Char
  | ':' :: r => r
  | s => s

/-- The normal form of a key: no blanks around it, no colon before it, ASCII letters in lower
case, and the full name of the accepted responses. -/
def normal (key : String) : String :=
  let bare := String.ofList (toLower (dropColon (Text.trim key.toList)))
  if bare = "responses" then responses else bare

example : normal " :Responses" = responses ∧ normal "Path " = path := by
  decide +kernel

/-! The reserved keys are in normal form. -/

@[simp] theorem normal_currentNode : normal currentNode = currentNode := by decide

@[simp] theorem normal_path : normal path = path := by decide

@[simp] theorem normal_responses : normal responses = responses := by decide

@[simp] theorem normal_currentAnswers : normal currentAnswers = currentAnswers := by decide

end Key

/-- A value of a state. -/
inductive Value where
  /-- One text. -/
  | text (value : String)
  /-- A list of texts, the oldest first. -/
  | list (items : List String)
  deriving DecidableEq

namespace Value

/-- The text, if the value is one. -/
def text? : Value → Option String
  | text s => some s
  | list _ => none

/-- The list, if the value is one. -/
def list? : Value → Option (List String)
  | text _ => none
  | list items => some items

/-- How a value is shown. -/
def render : Value → String
  | text s => s
  | list items => "[" ++ ", ".intercalate items ++ "]"

end Value

/-- What is known in an interview. -/
structure State where
  /-- The values, by key. -/
  entries : Std.ExtTreeMap String Value
  deriving DecidableEq

namespace State

/-- The value under a key. -/
def get? (s : State) (key : String) : Option Value := s.entries[Key.normal key]?

/-- The value under a key, which must be there. -/
def get (s : State) (key : String) : Except Fault Value :=
  match s.get? key with
  | some v => .ok v
  | none => .error (.undefinedValue (Key.normal key))

/-- The text under a key. -/
def getText (s : State) (key : String) : Except Fault String := do
  match (← s.get key).text? with
  | some t => .ok t
  | none => .error (.shapeMismatch (Key.normal key) .text)

/-- The list under a key. -/
def getList (s : State) (key : String) : Except Fault (List String) := do
  match (← s.get key).list? with
  | some items => .ok items
  | none => .error (.shapeMismatch (Key.normal key) .list)

/-- The state with a value put under a key. -/
def put (s : State) (key : String) (v : Value) : State := ⟨s.entries.insert (Key.normal key) v⟩

/-- Whether there is a value under a key. -/
def contains (s : State) (key : String) : Bool := s.entries.contains (Key.normal key)

/-- The keys in use, in order. -/
def keys (s : State) : List String := s.entries.keys

/-- The name of the node the interview is at. -/
def currentNode (s : State) : Except Fault String := s.getText Key.currentNode

/-- The names of the nodes visited, the oldest first. -/
def path (s : State) : Except Fault (List String) := s.getList Key.path

/-- The answers accepted, the oldest first. -/
def responses (s : State) : Except Fault (List String) := s.getList Key.responses

/-- The state at the start of an interview, at a given node. -/
def start (node : String) : State :=
  ⟨Std.ExtTreeMap.ofList [(Key.currentNode, Value.text node), (Key.path, Value.list []),
    (Key.responses, Value.list []), (Key.currentAnswers, Value.list [])]⟩

/-- The entries of a state made of pairs: the last value of each key. -/
def entriesOfPairs (pairs : List (String × Value)) : Std.ExtTreeMap String Value :=
  Std.ExtTreeMap.ofList (pairs.map fun p => (Key.normal p.1, p.2))

/-- The state made of pairs, one of which must say which node the interview is at. The lists that
every state has are empty unless there is a pair for them. -/
def ofPairs (pairs : List (String × Value)) : Except Fault State :=
  let entries := entriesOfPairs pairs
  if entries.contains Key.currentNode then
    .ok ⟨[Key.path, Key.responses, Key.currentAnswers].foldl
      (fun m key => m.insertIfNew key (.list [])) entries⟩
  else .error .missingCurrentNode

/-- How a state is shown. -/
def render (s : State) : String :=
  "State(" ++ ", ".intercalate (s.entries.toList.map fun (k, v) => s!"{k}: " ++ v.render) ++ ")"

/-! ## Putting and getting -/

theorem get?_put (s : State) (key k : String) (v : Value) :
    (s.put key v).get? k = if Key.normal key = Key.normal k then some v else s.get? k := by
  simp [get?, put, Std.ExtTreeMap.getElem?_insert]

theorem get?_put_same {s : State} {key k : String} {v : Value} (h : Key.normal key = Key.normal k) :
    (s.put key v).get? k = some v := by
  rw [get?_put, if_pos h]

theorem get?_put_other {s : State} {key k : String} {v : Value}
    (h : Key.normal key ≠ Key.normal k) : (s.put key v).get? k = s.get? k := by
  rw [get?_put, if_neg h]

/-- Putting a value where it is already changes nothing. -/
theorem put_eq_self {s : State} {key : String} {v : Value} (h : s.get? key = some v) :
    s.put key v = s := by
  obtain ⟨entries⟩ := s
  refine congrArg State.mk (Std.ExtTreeMap.ext_getElem? fun k => ?_)
  rw [Std.ExtTreeMap.getElem?_insert]
  split
  · rename_i hk
    rw [← Std.LawfulEqCmp.eq_of_compare hk]
    exact h.symm
  · rfl

theorem contains_eq_isSome (s : State) (key : String) : s.contains key = (s.get? key).isSome := by
  simp [contains, get?]

theorem get_eq_ok {s : State} {key : String} {v : Value} :
    s.get key = .ok v ↔ s.get? key = some v := by
  unfold get
  cases s.get? key <;> simp

theorem getText_eq_ok {s : State} {key t : String} :
    s.getText key = .ok t ↔ s.get? key = some (.text t) := by
  unfold getText get
  cases s.get? key with
  | none => simp [bind, Except.bind]
  | some v => cases v <;> simp [bind, Except.bind, Value.text?]

theorem getList_eq_ok {s : State} {key : String} {items : List String} :
    s.getList key = .ok items ↔ s.get? key = some (.list items) := by
  unfold getList get
  cases s.get? key with
  | none => simp [bind, Except.bind]
  | some v => cases v <;> simp [bind, Except.bind, Value.list?]

theorem getList_of_text {s : State} {key t : String} (h : s.get? key = some (.text t)) :
    s.getList key = .error (.shapeMismatch (Key.normal key) .list) := by
  rw [getList, get_eq_ok.mpr h]
  rfl

end State

end Interview
