import ConditionalText.Predicate.Error
import ConditionalText.Predicate.Token

/-!
# Reading a predicate

The parser of the predicate grammar (specification, §12.1). An expression is a chain of operands
with an infix operator between each two. Reading goes through the text once, from token to token,
and keeps the chain read so far on every open level of parentheses (`State`, `step`, `run`); a
finished chain is put together level by level, the tightest operators first and each level from the
left (`Chain.assemble`).

Reading fails at the first place where no token fits. `SyntaxError` then says what could have stood
there: since a level knows whether anything of its expression has been read, it can tell the start
of an expression from an operand that an operator still needs.

`length_step_lt`: every step takes a token, so reading ends.
-/

namespace ConditionalText.Predicate

open ConditionalText.Text

/-! ## Chains -/

/-- Operands with an infix operator between each two. -/
structure Chain where
  first : Expr
  rest : List (Operator × Expr)
  deriving DecidableEq, Repr

namespace Chain

/-- One more operand at the end. -/
def push (c : Chain) (op : Operator) (e : Expr) : Chain :=
  { c with rest := c.rest ++ [(op, e)] }

/-- Joins the neighbours of every operator of one level, from the left. -/
def joinFrom (level : Operator.Binding) : Expr → List (Operator × Expr) → Chain
  | e, [] => ⟨e, []⟩
  | e, (op, next) :: more =>
    if op.binding = level then joinFrom level (.binary op e next) more
    else
      let joined := joinFrom level next more
      ⟨e, (op, joined.first) :: joined.rest⟩

def join (level : Operator.Binding) (c : Chain) : Chain :=
  joinFrom level c.first c.rest

/-- The expression a chain stands for: relations bind tightest, then equality, conjunction and
disjunction. -/
def assemble (c : Chain) : Expr :=
  ((((c.join .relation).join .equality).join .conjunction).join .disjunction).first

end Chain

/-! ## The reading machine -/

/-- An expression of which an operand is still due. -/
structure Level where
  /-- The chain read so far and the operator after it, if anything has been read. -/
  pending : Option (Chain × Operator)
  /-- The number of `!` in front of the operand. -/
  nots : Nat
  deriving DecidableEq, Repr

namespace Level

/-- Nothing read yet. -/
def start : Level := ⟨none, 0⟩

/-- Whether nothing has been read yet. -/
def isStart (l : Level) : Bool :=
  l.pending.isNone && l.nots == 0

/-- A number of `!` in front of an operand. -/
def negate : Nat → Expr → Expr
  | 0, e => e
  | n + 1, e => .not (negate n e)

/-- The chain once its operand has come. -/
def supply (l : Level) (e : Expr) : Chain :=
  match l.pending with
  | none => ⟨negate l.nots e, []⟩
  | some (c, op) => c.push op (negate l.nots e)

end Level

/-- Where reading stands: `outer` are the levels around the open parentheses, innermost first. -/
inductive State where
  /-- An operand is due. -/
  | operand (outer : List Level) (level : Level)
  /-- An operand has been read. -/
  | operator (outer : List Level) (chain : Chain)
  deriving DecidableEq, Repr

/-- What one step of reading comes to. -/
inductive Step where
  | done (e : Expr)
  | fail (expected : Expected)
  | next (s : State) (rest : Text)
  deriving DecidableEq, Repr

/-- One step, at a text that does not start with a space or tab. -/
def step : State → Text → Step
  | .operand outer level, t =>
    match t with
    | '!' :: rest => .next (.operand outer { level with nots := level.nots + 1 }) rest
    | '(' :: rest => .next (.operand (level :: outer) .start) rest
    | t =>
      match readAtom? t with
      | some (e, rest) => .next (.operator outer (level.supply e)) rest
      | none => .fail (if level.isStart then .expression else .operand)
  | .operator outer chain, t =>
    match readOperator? t with
    | some (op, rest) => .next (.operand outer ⟨some (chain, op), 0⟩) rest
    | none =>
      match outer, t with
      | [], [] => .done chain.assemble
      | [], _ :: _ => .fail .operatorOrEnd
      | level :: outer, ')' :: rest => .next (.operator outer (level.supply chain.assemble)) rest
      | _ :: _, _ => .fail .operator

theorem length_step_lt {s s' : State} {t rest : Text} (h : step s t = .next s' rest) :
    rest.length < t.length := by
  cases s with
  | operand outer level =>
    simp only [step] at h
    split at h
    · simp only [Step.next.injEq] at h; simp [← h.2]
    · simp only [Step.next.injEq] at h; simp [← h.2]
    · split at h
      · next ha =>
        simp only [Step.next.injEq] at h
        exact h.2 ▸ length_readAtom?_lt ha
      · simp at h
  | operator outer chain =>
    simp only [step] at h
    split at h
    · next ho =>
      simp only [Step.next.injEq] at h
      exact h.2 ▸ length_readOperator?_lt ho
    · split at h
      · simp at h
      · simp at h
      · simp only [Step.next.injEq] at h; simp [← h.2]
      · simp at h

/-- Where reading failed: what was expected, and the text from there on. -/
structure Failure where
  expected : Expected
  rest : Text
  deriving DecidableEq, Repr

/-- Steps until the end or a failure, spaces and tabs skipped before each. -/
def run (s : State) (t : Text) : Except Failure Expr :=
  match _h : step s (skipSpaces t) with
  | .done e => .ok e
  | .fail expected => .error ⟨expected, skipSpaces t⟩
  | .next s' rest => run s' rest
termination_by t.length
decreasing_by exact Nat.lt_of_lt_of_le (length_step_lt _h) (length_skipSpaces_le t)

/-- Reading is its first step and what comes after it. -/
theorem run_eq (s : State) (t : Text) :
    run s t =
      match step s (skipSpaces t) with
      | .done e => .ok e
      | .fail expected => .error ⟨expected, skipSpaces t⟩
      | .next s' rest => run s' rest := by
  rw [run]
  split <;> simp_all

/-- The place of a failure in the whole text. -/
def Failure.locate (f : Failure) (whole : Text) : SyntaxError :=
  let position := whole.length - f.rest.length
  { expected := f.expected
    position
    column := 1 + (lastLine (whole.take position)).length }

/-- The expression a text stands for. -/
def parse (t : Text) : Except SyntaxError Expr :=
  (run (.operand [] .start) t).mapError fun f => f.locate t

end ConditionalText.Predicate
