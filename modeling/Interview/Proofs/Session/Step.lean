import Interview.Session

/-!
# The books of one step

A step writes five entries: the answer under the node's name, the path, the responses, the answer
under the answer key, and the current node. Keys are compared in normal form, and authors choose
the names of nodes and questions, so that entries may fall together; then the later one stays.

* `Node.answer_result_eq_ok`: when a step succeeds, and the state that it makes.
* `Node.get?_recorded`: what is under every key after a step.
* `Node.get?_of_answer`: which names a step gives the answer to.
* `Node.answer_bookkeeping`: the path, the responses, the current node, the answer and all other
  entries after a step. Only the answer key can take the place of the path or of the responses,
  and only the current node can take the place of the answer.
* `Node.answer_not_extends_path`: a question may be named like the path.
-/

namespace Interview

namespace Node

/-- The state after a step to `target`, from a state with these nodes visited and these responses
given. -/
def recorded (n : Node) (s : State) (input : String) (visited given : List String)
    (target : String) : State :=
  n.withInput s input
    |>.put Key.path (.list (visited ++ [n.name]))
    |>.put Key.responses (.list (given ++ [input]))
    |>.put n.answerKey (.text input)
    |>.put Key.currentNode (.text target)

variable {n : Node} {r : Registry} {s s' : State} {input target : String}
  {visited given : List String}

/-- A step succeeds if there is a way on and the state has a path and responses. -/
theorem answer_result_eq_ok :
    (n.answer r s input).result = .ok s' ↔
      ∃ target visited given, (n.destination r s input).result = .ok target ∧
        s.path = .ok visited ∧ s.responses = .ok given ∧
        s' = n.recorded s input visited given target := by
  unfold answer
  simp only [Inquiry.result_bind_eq_ok, Inquiry.liftM_eq_ofExcept, Inquiry.ofExcept_result,
    Inquiry.pure_result]
  constructor
  · rintro ⟨target, ht, visited, hv, given, hg, h⟩
    cases h
    exact ⟨target, visited, given, ht, hv, hg, rfl⟩
  · rintro ⟨target, visited, given, ht, hv, hg, rfl⟩
    exact ⟨target, ht, visited, hv, given, hg, rfl⟩

/-! ## The entries of the new state -/

/-- What is under every key after a step. The later entries come first. -/
theorem get?_recorded (k : String) :
    (n.recorded s input visited given target).get? k =
      if Key.currentNode = Key.normal k then some (.text target)
      else if Key.normal n.answerKey = Key.normal k then some (.text input)
      else if Key.responses = Key.normal k then some (.list (given ++ [input]))
      else if Key.path = Key.normal k then some (.list (visited ++ [n.name]))
      else if Key.normal n.name = Key.normal k then some (.text input)
      else s.get? k := by
  simp only [recorded, withInput, State.get?_put, Key.normal_currentNode, Key.normal_responses,
    Key.normal_path]

theorem currentNode_recorded :
    (n.recorded s input visited given target).currentNode = .ok target := by
  rw [State.currentNode, State.getText_eq_ok, get?_recorded, if_pos Key.normal_currentNode.symm]

/-- The list under a key, if an answer may have been written over it. -/
theorem getList_of_overwritten {c : Prop} [Decidable c] {key t : String} {items : List String}
    (h : s.get? key = if c then some (.text t) else some (.list items)) :
    s.getList key =
      if c then .error (.shapeMismatch (Key.normal key) .list) else .ok items := by
  split
  · rename_i hc
    rw [if_pos hc] at h
    exact State.getList_of_text h
  · rename_i hc
    rw [if_neg hc] at h
    exact State.getList_eq_ok.mpr h

theorem path_recorded :
    (n.recorded s input visited given target).path =
      if Key.normal n.answerKey = Key.path then .error (.shapeMismatch Key.path .list)
      else .ok (visited ++ [n.name]) := by
  apply getList_of_overwritten (t := input)
  rw [get?_recorded, Key.normal_path, if_neg (by decide), if_neg (c := Key.responses = _) (by decide),
    if_pos (c := Key.path = _) rfl]

theorem responses_recorded :
    (n.recorded s input visited given target).responses =
      if Key.normal n.answerKey = Key.responses then .error (.shapeMismatch Key.responses .list)
      else .ok (given ++ [input]) := by
  apply getList_of_overwritten (t := input)
  rw [get?_recorded, Key.normal_responses, if_neg (by decide), if_pos (c := Key.responses = _) rfl]

theorem getText_answerKey_recorded :
    (n.recorded s input visited given target).getText n.answerKey =
      .ok (if Key.normal n.answerKey = Key.currentNode then target else input) := by
  rw [State.getText_eq_ok, get?_recorded]
  by_cases h : Key.normal n.answerKey = Key.currentNode
  · rw [if_pos h.symm, if_pos h]
  · rw [if_neg (Ne.symm h), if_pos rfl, if_neg h]

/-- A key that no entry of a step falls on keeps its value. -/
theorem get?_recorded_other {k : String}
    (hk : Key.normal k ∉ [Key.path, Key.responses, Key.currentNode, Key.normal n.name,
      Key.normal n.answerKey]) :
    (n.recorded s input visited given target).get? k = s.get? k := by
  simp only [List.mem_cons, List.not_mem_nil, or_false, not_or] at hk
  obtain ⟨hp, hr, hc, hn, ha⟩ := hk
  rw [get?_recorded, if_neg (Ne.symm hc), if_neg (Ne.symm ha), if_neg (Ne.symm hr),
    if_neg (Ne.symm hp), if_neg (Ne.symm hn)]

/-! ## What an answer changes -/

variable {k : String}

/-- A node without choices keeps its answer under its own name. -/
theorem answerKey_eq_name (hn : n.choiceQuestion? = none) : n.answerKey = n.name := by
  rw [answerKey, hn]
  rfl

/-- The answer key, if it is not for the current node, has the answer. -/
theorem get?_of_answer_same (h : (n.answer r s input).result = .ok s')
    (hk : Key.normal k ≠ Key.currentNode) (hname : Key.normal n.answerKey = Key.normal k) :
    s'.get? k = some (.text input) := by
  obtain ⟨target, visited, given, -, -, -, rfl⟩ := answer_result_eq_ok.mp h
  rw [get?_recorded, if_neg (Ne.symm hk), if_pos hname]

/-- **What an answer changes.** Of the names that have no list and are not for the current node,
those of the node and of its answer key get the answer, and all others keep what they have. -/
theorem get?_of_answer (h : (n.answer r s input).result = .ok s')
    (hk : Key.normal k ≠ Key.currentNode) (hlist : ∀ items, s.get? k ≠ some (.list items)) :
    s'.get? k =
      if Key.normal n.name = Key.normal k ∨ Key.normal n.answerKey = Key.normal k then
        some (.text input)
      else s.get? k := by
  obtain ⟨target, visited, given, -, hpath, hresponses, rfl⟩ := answer_result_eq_ok.mp h
  -- The step has found its two lists, so the name is that of neither.
  have hother : ∀ reserved items, s.getList reserved = .ok items →
      Key.normal reserved ≠ Key.normal k := by
    intro reserved items hitems heq
    refine hlist items ?_
    rw [State.get?, ← heq]
    exact State.getList_eq_ok.mp hitems
  have hr := hother _ _ hresponses
  have hp := hother _ _ hpath
  rw [Key.normal_responses] at hr
  rw [Key.normal_path] at hp
  rw [get?_recorded, if_neg (Ne.symm hk), if_neg hr, if_neg hp]
  by_cases ha : Key.normal n.answerKey = Key.normal k <;> simp [ha]

/-! ## The books -/

/-- **The books of a step.** The session is at the destination of the node. The node joins the
path unless the answer key is that of the path, and the answer joins the responses unless the
answer key is theirs; there the list is lost. The answer is under the answer key unless that is
the key of the current node. All other keys keep their values. -/
theorem answer_bookkeeping (hv : s.path = .ok visited) (hg : s.responses = .ok given)
    (h : (n.answer r s input).result = .ok s') :
    ∃ target, (n.destination r s input).result = .ok target ∧ s'.currentNode = .ok target ∧
      (s'.path =
        if Key.normal n.answerKey = Key.path then .error (.shapeMismatch Key.path .list)
        else .ok (visited ++ [n.name])) ∧
      (s'.responses =
        if Key.normal n.answerKey = Key.responses then
          .error (.shapeMismatch Key.responses .list)
        else .ok (given ++ [input])) ∧
      (s'.getText n.answerKey =
        .ok (if Key.normal n.answerKey = Key.currentNode then target else input)) ∧
      ∀ k, Key.normal k ∉ [Key.path, Key.responses, Key.currentNode, Key.normal n.name,
        Key.normal n.answerKey] → s'.get k = s.get k := by
  obtain ⟨target, visited', given', ht, hv', hg', rfl⟩ := answer_result_eq_ok.mp h
  obtain rfl : visited = visited' := by simpa [hv] using hv'
  obtain rfl : given = given' := by simpa [hg] using hg'
  refine ⟨target, ht, currentNode_recorded, path_recorded, responses_recorded,
    getText_answerKey_recorded, fun k hk => ?_⟩
  unfold State.get
  rw [get?_recorded_other hk]

/-- A node whose question is named like the path. -/
def askingPath : Node :=
  ⟨"route", [.question ⟨"Path", none, .choice [("north", "North"), ("south", "South")]⟩,
    .startButton "end"], ⟨[]⟩⟩

/-- The books of a step from that node: its answer takes the place of the path. -/
theorem answer_bookkeeping_askingPath :
    (State.start "route").path = .ok [] ∧ (State.start "route").responses = .ok [] ∧
      ∃ s', (askingPath.answer .empty (.start "route") "north").result = .ok s' ∧
        s'.currentNode = .ok "end" ∧ s'.path = .error (.shapeMismatch Key.path .list) ∧
        s'.responses = .ok ["north"] ∧ s'.getText "Path" = .ok "north" := by
  have hv : (State.start "route").path = .ok [] := rfl
  have hg : (State.start "route").responses = .ok [] := rfl
  have h : (askingPath.answer .empty (.start "route") "north").result = .ok _ := rfl
  obtain ⟨target, ht, hc, hp, hr, ha, -⟩ := answer_bookkeeping hv hg h
  cases ht
  exact ⟨hv, hg, _, h, hc, hp, hr, ha⟩

/-- **A step may lose the path.** It is not so that every step extends the path and the responses,
leads to the destination and keeps the answer under the answer key. -/
theorem answer_not_extends_path :
    ¬ ∀ (n : Node) (r : Registry) (s s' : State) (input : String) (visited given : List String),
      s.path = .ok visited → s.responses = .ok given → (n.answer r s input).result = .ok s' →
      s'.path = .ok (visited ++ [n.name]) ∧ s'.responses = .ok (given ++ [input]) ∧
        s'.currentNode = (n.destination r s input).result ∧ s'.getText n.answerKey = .ok input ∧
        ∀ k, Key.normal k ∉ [Key.path, Key.responses, Key.currentNode, Key.normal n.name,
          Key.normal n.answerKey] → s'.get k = s.get k := by
  intro h
  obtain ⟨hp, -⟩ := h askingPath .empty (.start "route") _ "north" [] [] rfl rfl rfl
  cases hp

end Node

end Interview
