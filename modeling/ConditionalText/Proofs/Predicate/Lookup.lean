import ConditionalText.Proofs.Predicate.Reading
import ConditionalText.Proofs.Predicate.Substitution
import Mathlib.Control.Monad.Basic

/-!
# Substituting is looking names up

Replacing the variables in the text of a predicate and reading the result comes to the same as
reading the predicate and looking its names up in the tree (`Expr.substitute`). A value becomes one
string and is never read as anything else.

The reading machine goes through both texts in step: `step_substitute` says so for one step, from
any state, and `run_substitute` for all of them. Both texts fail at the same token, if they do.

* `readAtom?_substitute`: an operand is read as it was, with its name looked up.
* `Chain.assemble_substitute`: how operands are put together does not depend on them.
* `parse_substitute`: **a substituted predicate is an expression exactly if the predicate is, and
  then that expression with its names looked up.**
-/

namespace ConditionalText.Predicate

open ConditionalText.Text

variable {env : Environment}

/-! ## Looking names up -/

/-- A leaf that is written as a word: the string of its value if the word is a variable. -/
def lookUp (env : Environment) (word : Text) (leaf : Expr) : Expr :=
  ((env.get? word).map fun value => .literal (.string value)).getD leaf

/-- The expression with every name, and every boolean that is also a name, looked up. -/
def Expr.substitute (env : Environment) : Expr → Expr
  | .identifier name => lookUp env name (.identifier name)
  | .literal (.boolean true) => lookUp env "true".toList (.literal (.boolean true))
  | .literal (.boolean false) => lookUp env "false".toList (.literal (.boolean false))
  | .literal v => .literal v
  | .not e => .not (e.substitute env)
  | .binary op left right => .binary op (left.substitute env) (right.substitute env)

theorem substitute_ofWord (word : Text) :
    (ofWord word).substitute env = lookUp env word (ofWord word) := by
  unfold ofWord
  by_cases htrue : word = "true".toList
  · rw [if_pos htrue, Expr.substitute, htrue]
  by_cases hfalse : word = "false".toList
  · rw [if_neg htrue, if_pos hfalse, Expr.substitute, hfalse]
  · rw [if_neg htrue, if_neg hfalse, Expr.substitute]

/-! ## Operands -/

/-- A word is read as itself or, if it is a variable, as the string of its value. -/
theorem readAtom?_substitute_of_isWordStart {c : Char} (hc : isWordStart c = true) (t : Text) :
    readAtom? (substitute env (c :: t)) =
      (readAtom? (c :: t)).map (Prod.map (Expr.substitute env) (substitute env)) := by
  have hword : ∀ d ∈ t.takeWhile isWordChar, isWordChar d = true :=
    List.all_eq_true.mp List.all_takeWhile
  have hrest := touchesWord_dropWhile t
  have hread : readAtom? (c :: t) =
      some (ofWord (c :: t.takeWhile isWordChar), t.dropWhile isWordChar) := by
    have h := readAtom?_word hc hword hrest
    rwa [List.takeWhile_append_dropWhile] at h
  rw [hread, substitute_of_isWordChar (isWordChar_of_isWordStart hc),
    replaceWord_of_not_isDigit (Bool.eq_false_iff.mp (isDigit_eq_false_of_isWordStart hc))]
  simp only [Option.map_some, Prod.map, substitute_ofWord, lookUp]
  cases env.get? (c :: t.takeWhile isWordChar) with
  | none => exact readAtom?_word hc hword (touchesWord_substitute env hrest)
  | some value =>
    have hstring := readString?_literalOf value (substitute env (t.dropWhile isWordChar))
    simp only [Option.map_some, Option.getD_some, literalOf, List.cons_append, List.append_assoc,
      List.nil_append]
    rw [readAtom?_of_isQuote (by decide), hstring]
    rfl

/-- **An operand is read as it was, with its name looked up**, or fails as it did. -/
theorem readAtom?_substitute (t : Text) :
    readAtom? (substitute env t) =
      (readAtom? t).map (Prod.map (Expr.substitute env) (substitute env)) := by
  cases t with
  | nil => rw [substitute_nil]; rfl
  | cons c t =>
    by_cases hdigit : isDigit c = true
    · obtain ⟨u, hu⟩ := exists_substitute_of_isDigit env hdigit t
      rw [hu, readAtom?_of_isDigit hdigit, readAtom?_of_isDigit hdigit, ← hu,
        readNumber?_substitute hdigit, Option.map_map, Option.map_map]
      rfl
    by_cases hquote : isQuote c = true
    · rw [substitute_of_isQuote hquote, readAtom?_of_isQuote hquote, readAtom?_of_isQuote hquote,
        readString?_substitute hquote, Option.map_map, Option.map_map]
      rfl
    by_cases hstart : isWordStart c = true
    · exact readAtom?_substitute_of_isWordStart hstart t
    · have hword : ¬isWordChar c = true := by simp [isWordChar, hdigit, hstart]
      have hplain : isPlain c = true := by simp [isPlain, hquote, hword]
      rw [substitute_of_isPlain hplain, readAtom?_eq_none hquote hword,
        readAtom?_eq_none hquote hword]
      rfl

/-! ## Chains -/

namespace Chain

/-- A chain with its names looked up. -/
def substitute (env : Environment) (c : Chain) : Chain :=
  ⟨c.first.substitute env, c.rest.map (Prod.map id (Expr.substitute env))⟩

theorem push_substitute (c : Chain) (op : Operator) (e : Expr) :
    (c.push op e).substitute env = (c.substitute env).push op (e.substitute env) := by
  simp only [push, substitute, List.map_append, List.map_cons, List.map_nil, Prod.map, id]

theorem joinFrom_substitute (level : Operator.Binding) (e : Expr) (rest : List (Operator × Expr)) :
    joinFrom level (e.substitute env) (rest.map (Prod.map id (Expr.substitute env))) =
      (joinFrom level e rest).substitute env := by
  induction rest generalizing e with
  | nil => rfl
  | cons next rest ih =>
    obtain ⟨op, operand⟩ := next
    by_cases hop : op.binding = level
    · rw [List.map_cons, Prod.map_apply, id_eq, joinFrom, if_pos hop, joinFrom, if_pos hop]
      exact ih (.binary op e operand)
    · rw [List.map_cons, Prod.map_apply, id_eq, joinFrom, if_neg hop, joinFrom, if_neg hop,
        ih operand]
      rfl

theorem join_substitute (level : Operator.Binding) (c : Chain) :
    (c.substitute env).join level = (c.join level).substitute env :=
  joinFrom_substitute level c.first c.rest

/-- **How operands are put together does not depend on them.** -/
theorem assemble_substitute (c : Chain) :
    (c.substitute env).assemble = c.assemble.substitute env := by
  simp only [assemble, join_substitute]
  rfl

end Chain

/-! ## The reading machine -/

namespace Level

/-- A level with its names looked up. -/
def substitute (env : Environment) (l : Level) : Level :=
  { l with pending := l.pending.map (Prod.map (Chain.substitute env) id) }

theorem isStart_substitute (l : Level) : (l.substitute env).isStart = l.isStart := by
  rw [isStart, isStart, substitute, Option.isNone_map]

theorem negate_substitute (n : Nat) (e : Expr) :
    negate n (e.substitute env) = (negate n e).substitute env := by
  induction n with
  | zero => rfl
  | succ n ih => rw [negate, ih]; rfl

theorem supply_substitute (l : Level) (e : Expr) :
    (l.substitute env).supply (e.substitute env) = (l.supply e).substitute env := by
  obtain ⟨pending, nots⟩ := l
  cases pending with
  | none => simp only [supply, substitute, Option.map_none, negate_substitute]; rfl
  | some found =>
    simp only [supply, substitute, Option.map_some, Prod.map, id, negate_substitute,
      Chain.push_substitute]

end Level

/-- A state with its names looked up. -/
def State.substitute (env : Environment) : State → State
  | .operand outer level => .operand (outer.map (Level.substitute env)) (level.substitute env)
  | .operator outer chain => .operator (outer.map (Level.substitute env)) (chain.substitute env)

/-- What a step comes to on the substituted text. -/
def Step.substitute (env : Environment) : Step → Step
  | .done e => .done (e.substitute env)
  | .fail expected => .fail expected
  | .next s rest => .next (s.substitute env) (Predicate.substitute env rest)

/-- **One step of reading** goes alike on a text and on the substituted text. -/
theorem step_substitute (s : State) (t : Text) :
    step (s.substitute env) (substitute env t) = (step s t).substitute env := by
  cases s with
  | operand outer level =>
    by_cases hnot : t.head? = some '!'
    · obtain ⟨u, rfl⟩ := List.head?_eq_some_iff.mp hnot
      rw [substitute_of_isPlain (by decide)]
      rfl
    by_cases hopen : t.head? = some '('
    · obtain ⟨u, rfl⟩ := List.head?_eq_some_iff.mp hopen
      rw [substitute_of_isPlain (by decide)]
      rfl
    · rw [State.substitute, step_operand hnot hopen,
        step_operand (mt (head?_substitute_eq_some_iff (by decide)).mp hnot)
          (mt (head?_substitute_eq_some_iff (by decide)).mp hopen), readAtom?_substitute,
        Level.isStart_substitute]
      cases readAtom? t with
      | none => rfl
      | some found =>
        simp only [Option.map_some, Prod.map, Level.supply_substitute]
        rfl
  | operator outer chain =>
    have hread := readOperator?_substitute env t
    cases h : readOperator? t with
    | some found =>
      rw [h] at hread
      rw [State.substitute, step_operator_of_some h, step_operator_of_some hread]
      rfl
    | none =>
      rw [h] at hread
      cases outer with
      | nil =>
        rw [State.substitute, List.map_nil]
        by_cases ht : t = []
        · subst ht
          rw [substitute_nil]
          exact congrArg Step.done (Chain.assemble_substitute chain)
        · rw [step_operator_end h ht, step_operator_end hread (mt substitute_eq_nil_iff.mp ht)]
          rfl
      | cons level outer =>
        by_cases hclose : t.head? = some ')'
        · obtain ⟨u, rfl⟩ := List.head?_eq_some_iff.mp hclose
          rw [substitute_of_isPlain (by decide), State.substitute, List.map_cons,
            step_operator_close, Chain.assemble_substitute, Level.supply_substitute]
          rfl
        · rw [State.substitute, List.map_cons, step_operator_cons h hclose,
            step_operator_cons hread (mt (head?_substitute_eq_some_iff (by decide)).mp hclose)]
          rfl

/-- **Reading goes alike on a text and on the substituted text**, to the end or to the same
place. -/
theorem run_substitute (env : Environment) (s : State) (t : Text) :
    run (s.substitute env) (substitute env t) =
      match run s t with
      | .ok e => .ok (e.substitute env)
      | .error f => .error ⟨f.expected, substitute env f.rest⟩ := by
  fun_induction run s t with
  | case1 s t e h =>
    rw [run_eq, skipSpaces_substitute, step_substitute, h]
    rfl
  | case2 s t expected h =>
    rw [run_eq, skipSpaces_substitute, step_substitute, h]
    rfl
  | case3 s t s' rest h ih =>
    rw [run_eq, skipSpaces_substitute, step_substitute, h]
    exact ih

/-- What a substituted predicate is read as. -/
theorem parse_substitute_eq_ok_iff {p : Text} {e : Expr} :
    parse (substitute env p) = .ok e ↔ ∃ e', parse p = .ok e' ∧ e = e'.substitute env := by
  have hrun : run (.operand [] .start) (substitute env p) = _ :=
    run_substitute env (.operand [] .start) p
  simp only [parse_eq_ok_iff, hrun]
  cases run (.operand [] .start) p with
  | ok e' => simp [eq_comm]
  | error f => simp

/-- **A substituted predicate is an expression exactly if the predicate is, and then that expression
with its names looked up.** -/
theorem parse_substitute (env : Environment) (p : Text) :
    ((∃ e, parse (substitute env p) = .ok e) ↔ ∃ e, parse p = .ok e) ∧
      ∀ e, parse p = .ok e → parse (substitute env p) = .ok (e.substitute env) := by
  have hrun : run (.operand [] .start) (substitute env p) = _ :=
    run_substitute env (.operand [] .start) p
  simp only [parse_eq_ok_iff, hrun]
  cases run (.operand [] .start) p with
  | ok e =>
    refine ⟨⟨fun _ => ⟨e, rfl⟩, fun _ => ⟨_, rfl⟩⟩, fun e' h => ?_⟩
    cases h
    rfl
  | error f => simp

/-- A value that looks like the end of a string and an operator stays one string. -/
theorem parse_substitute_quoted :
    parse (substitute (Table.ofList [("A".toList, "\" || \\".toList)]) "!A == true".toList) =
      .ok (.binary (.compare .equal) (.not (.literal (.string "\" || \\".toList)))
        (.literal (.boolean true))) := by
  have hparse : parse "!A == true".toList =
      .ok (.binary (.compare .equal) (.not (.identifier "A".toList))
        (.literal (.boolean true))) := by
    decide +kernel
  rw [(parse_substitute (Table.ofList [("A".toList, "\" || \\".toList)]) _).2 _ hparse]
  decide +kernel

end ConditionalText.Predicate
