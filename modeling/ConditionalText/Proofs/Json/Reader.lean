import ConditionalText.Proofs.Json.Lexer

/-!
# Reading values

The tokens of a text are read one by one, while the arrays and objects that are not closed yet wait
on a stack. What the reader has seen so far can be told from where it stands (`State.seen`), so that
it accepts nothing but the tokens of the value that it returns.

* `seen_of_step`, `seen_of_run`: every step adds its token to what was seen.
* `run_tokens`: the tokens of a value take the reader past it, whatever comes next.
* `read?_eq_some_iff`: **the reader reads exactly the valid texts, each as the value it is valid
  for**; hence a text is valid for one value at most (`eq_of_denotes`).
-/

namespace ConditionalText.Json

/-! ## The reader -/

/-- An array or object that waits for its next value. -/
inductive Frame where
  | array (elements : List Value)
  | object (members : List (Text × Value)) (name : Text)

/-- Where the reader stands, and what is open there. -/
inductive State where
  | value (stack : List Frame)
  | firstElement (stack : List Frame)
  | firstName (stack : List Frame)
  | nextName (members : List (Text × Value)) (stack : List Frame)
  | afterName (members : List (Text × Value)) (name : Text) (stack : List Frame)
  | after (v : Value) (stack : List Frame)

/-- The start of a value. -/
def stepValue (stack : List Frame) : Token → Option State
  | .scalar s => some (.after (.scalar s) stack)
  | .mark .openArray => some (.firstElement stack)
  | .mark .openObject => some (.firstName stack)
  | _ => none

/-- One more token, if it may stand there. -/
def step : State → Token → Option State
  | .value stack, token => stepValue stack token
  | .firstElement stack, .mark .closeArray => some (.after (.array []) stack)
  | .firstElement stack, token => stepValue (.array [] :: stack) token
  | .firstName stack, .mark .closeObject => some (.after (.object []) stack)
  | .firstName stack, .scalar (.string name) => some (.afterName [] name stack)
  | .nextName members stack, .scalar (.string name) => some (.afterName members name stack)
  | .afterName members name stack, .mark .colon => some (.value (.object members name :: stack))
  | .after v (.array elements :: stack), .mark .comma =>
    some (.value (.array (elements ++ [v]) :: stack))
  | .after v (.array elements :: stack), .mark .closeArray =>
    some (.after (.array (elements ++ [v])) stack)
  | .after v (.object members name :: stack), .mark .comma =>
    some (.nextName (members ++ [(name, v)]) stack)
  | .after v (.object members name :: stack), .mark .closeObject =>
    some (.after (.object (members ++ [(name, v)])) stack)
  | _, _ => none

/-- The value that was read, if nothing is open. -/
def State.result? : State → Option Value
  | .after v [] => some v
  | _ => none

def run : State → List Token → Option State
  | s, [] => some s
  | s, token :: ts => (step s token).bind (run · ts)

/-- The value of a JSON text. -/
def read? (t : Text) : Option Value := do
  let ts ← tokens? t
  let s ← run (.value []) ts
  s.result?

/-! ## Soundness -/

/-- Rows of tokens, each with a comma after it. -/
def commaEnded (rows : List (List Token)) : List Token :=
  rows.flatMap (· ++ [.mark .comma])

def Frame.seen : Frame → List Token
  | .array elements => .mark .openArray :: commaEnded (elementRows elements)
  | .object members name =>
    .mark .openObject :: commaEnded (memberRows members) ++ [.scalar (.string name), .mark .colon]

def stackSeen : List Frame → List Token
  | [] => []
  | frame :: stack => stackSeen stack ++ frame.seen

/-- The tokens that lead to a state. -/
def State.seen : State → List Token
  | .value stack => stackSeen stack
  | .firstElement stack => stackSeen stack ++ [.mark .openArray]
  | .firstName stack => stackSeen stack ++ [.mark .openObject]
  | .nextName members stack =>
    stackSeen stack ++ .mark .openObject :: commaEnded (memberRows members)
  | .afterName members name stack =>
    stackSeen stack ++
      (.mark .openObject :: commaEnded (memberRows members) ++ [.scalar (.string name)])
  | .after v stack => stackSeen stack ++ v.tokens

theorem commaJoined_snoc (rows : List (List Token)) (row : List Token) :
    commaJoined (rows ++ [row]) = commaEnded rows ++ row := by
  induction rows with
  | nil => simp [commaJoined, commaEnded]
  | cons first rows ih =>
    have hne : rows ++ [row] ≠ [] := by simp
    rw [List.cons_append, commaJoined.eq_3 _ _ hne, ih]
    simp [commaEnded]

theorem elementRows_snoc (elements : List Value) (v : Value) :
    elementRows (elements ++ [v]) = elementRows elements ++ [v.tokens] := by
  induction elements with
  | nil => rfl
  | cons w elements ih => simp [elementRows, ih]

theorem memberRows_snoc (members : List (Text × Value)) (name : Text) (v : Value) :
    memberRows (members ++ [(name, v)]) =
      memberRows members ++ [.scalar (.string name) :: .mark .colon :: v.tokens] := by
  induction members with
  | nil => rfl
  | cons m members ih => simp [memberRows, ih]

theorem seen_of_stepValue {stack : List Frame} {token : Token} {s : State}
    (h : stepValue stack token = some s) : s.seen = stackSeen stack ++ [token] := by
  unfold stepValue at h
  split at h <;> cases h
  · simp [State.seen, Value.tokens]
  · rfl
  · rfl

theorem seen_of_step {s s' : State} {token : Token} (h : step s token = some s') :
    s'.seen = s.seen ++ [token] := by
  unfold step at h
  split at h
  · exact seen_of_stepValue h
  · cases h
    simp [State.seen, Value.tokens, elementRows, commaJoined]
  · rw [seen_of_stepValue h]
    simp [State.seen, stackSeen, Frame.seen, elementRows, commaEnded]
  -- What is left goes on with the array or object on top, which gains the value just read.
  all_goals
    cases h
    try simp [State.seen, stackSeen, Frame.seen, Value.tokens, memberRows, elementRows_snoc,
      memberRows_snoc, commaJoined_snoc, commaJoined, commaEnded]

theorem seen_of_run {s s' : State} {ts : List Token} (h : run s ts = some s') :
    s'.seen = s.seen ++ ts := by
  induction ts generalizing s with
  | nil =>
    cases h
    simp
  | cons token ts ih =>
    obtain ⟨s₁, hstep, hrun⟩ := Option.bind_eq_some_iff.mp h
    simp [ih hrun, seen_of_step hstep]

/-! ## Completeness -/

/-- After the bracket, an array that holds something is read on as one that waits for a value. -/
theorem run_firstElement (v : Value) (more : List Value) (stack : List Frame) (rest : List Token) :
    run (.firstElement stack) (commaJoined (elementRows (v :: more)) ++ rest) =
      run (.value (.array [] :: stack)) (commaJoined (elementRows (v :: more)) ++ rest) := by
  cases more <;> cases v <;> simp [elementRows, commaJoined, Value.tokens, run, step]

theorem run_firstName (m : Text × Value) (more : List (Text × Value)) (stack : List Frame)
    (rest : List Token) :
    run (.firstName stack) (commaJoined (memberRows (m :: more)) ++ rest) =
      run (.nextName [] stack) (commaJoined (memberRows (m :: more)) ++ rest) := by
  cases more <;> simp [memberRows, commaJoined, run, step]

-- One theorem for each of the functions behind `Value.tokens`, by their recursion.
mutual

/-- The tokens of a value take the reader past it. -/
theorem run_tokens (v : Value) (stack : List Frame) (rest : List Token) :
    run (.value stack) (v.tokens ++ rest) = run (.after v stack) rest := by
  match v with
  | .scalar s => simp [Value.tokens, run, step, stepValue]
  | .array elements =>
    have helements := run_elementRows [] elements stack rest
    cases elements with
    | nil => simp [Value.tokens, elementRows, commaJoined, run, step, stepValue]
    | cons v more => simpa [Value.tokens, run, step, stepValue, run_firstElement] using helements
  | .object members =>
    have hmembers := run_memberRows [] members stack rest
    cases members with
    | nil => simp [Value.tokens, memberRows, commaJoined, run, step, stepValue]
    | cons m more => simpa [Value.tokens, run, step, stepValue, run_firstName] using hmembers

theorem run_elementRows (elements more : List Value) (stack : List Frame) (rest : List Token)
    (hmore : more ≠ []) :
    run (.value (.array elements :: stack))
        (commaJoined (elementRows more) ++ .mark .closeArray :: rest) =
      run (.after (.array (elements ++ more)) stack) rest := by
  match more with
  | [] => exact absurd rfl hmore
  | [v] => simp [elementRows, commaJoined, run_tokens v, run, step]
  | v :: w :: more =>
    have hrest := run_elementRows (elements ++ [v]) (w :: more) stack rest nofun
    simpa [elementRows, commaJoined, run_tokens v, run, step] using hrest

theorem run_memberRows (members more : List (Text × Value)) (stack : List Frame)
    (rest : List Token) (hmore : more ≠ []) :
    run (.nextName members stack) (commaJoined (memberRows more) ++ .mark .closeObject :: rest) =
      run (.after (.object (members ++ more)) stack) rest := by
  match more with
  | [] => exact absurd rfl hmore
  | [(name, v)] => simp [memberRows, commaJoined, run_tokens v, run, step]
  | (name, v) :: m :: more =>
    have hrest := run_memberRows (members ++ [(name, v)]) (m :: more) stack rest nofun
    simpa [memberRows, commaJoined, run_tokens v, run, step] using hrest

end

/-! ## The reader and the grammar -/

/-- **The reader reads exactly the valid texts, each as the value that it is valid for.** -/
theorem read?_eq_some_iff {t : Text} {v : Value} : read? t = some v ↔ Denotes t v := by
  simp only [read?, Option.bind_eq_bind, Option.bind_eq_some_iff, tokens?_eq_some_iff]
  constructor
  · rintro ⟨ts, hts, s, hrun, hresult⟩
    unfold State.result? at hresult
    split at hresult <;> cases hresult
    obtain rfl : v.tokens = ts := by simpa [State.seen, stackSeen] using seen_of_run hrun
    exact hts
  · intro h
    refine ⟨v.tokens, h, .after v [], ?_, rfl⟩
    simpa [run] using run_tokens v [] []

example : read? " [-1.5e+1, null]\n".toList =
    some (.array [.scalar (.number (-15)), .scalar .null]) := by
  cbv

example : read? "[01]".toList = none := by
  cbv

theorem eq_of_denotes {t : Text} {v w : Value} (hv : Denotes t v) (hw : Denotes t w) : v = w :=
  Option.some.inj ((read?_eq_some_iff.mpr hv).symm.trans (read?_eq_some_iff.mpr hw))

end ConditionalText.Json
