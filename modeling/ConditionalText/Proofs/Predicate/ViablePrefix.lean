import ConditionalText.Proofs.Predicate.Quoting
import ConditionalText.Proofs.Predicate.Rendering
import ConditionalText.Proofs.Text.Location
import Mathlib.Data.List.Basic

/-!
# The text before a syntax error

Where reading stops, the text before is the beginning of a predicate, and what was expected there
says what it lacks: an operand, or only the parentheses that are still open. How many are open is
told from the text (`openParentheses`), and the state keeps as many levels (`State.depth`).

* `Reached`: the text read so far leads to a state, parentheses counted.
* `Reached.advance`, `exists_reached_of_run_eq_error`: every step keeps that, so a run fails in a
  state that the text before the failure leads to.
* `Read.supply`, `Read.exists_renders_close`: an operand that is due and the parentheses that are
  open complete what has been read.
* `parse_error_completable`: **the text before a syntax error goes on to a predicate as the error
  says.**
-/

namespace ConditionalText

open ConditionalText.Text

namespace Predicate

/-! ## The levels of a state -/

/-- The number of parentheses around the place where reading stands. -/
def State.depth : State → Nat
  | .operand outer _ => outer.length
  | .operator outer _ => outer.length

/-- A text leads to a state: it is what has been read there, and it leaves as many parentheses open
as there are levels around the place. -/
structure Reached (s : State) (u : Text) : Prop where
  read : Read s u
  opens : Opens s.depth u

theorem reached_start : Reached (.operand [] .start) [] :=
  ⟨⟨[], [], rfl, .nil, fun _ _ ht => ht⟩, ⟨rfl, rfl⟩⟩

theorem all_isInert_spelling (op : Operator) : op.spelling.all isInert = true := by
  cases op with
  | or => decide
  | and => decide
  | compare c =>
    cases c with
    | relation r => cases r <;> decide
    | _ => decide

/-- A step opens a parenthesis, closes one, or takes a token that holds none. -/
theorem Opens.advance {s s' : State} {u token rest : Text} (h : Opens s.depth u)
    (hstep : Advance s (token ++ rest) s' rest) : Opens s'.depth (u ++ token) := by
  have htoken : ∀ {a : Text}, a ++ rest = token ++ rest → a = token := List.append_cancel_right
  generalize ht : token ++ rest = t at hstep
  cases hstep with
  | negation outer level =>
    obtain rfl := htoken (a := ['!']) ht.symm
    exact h.append (opens_of_isInert (by decide))
  | opening outer level =>
    obtain rfl := htoken (a := ['(']) ht.symm
    exact h.opening
  | atom outer level hread =>
    obtain ⟨a, ha, hspells⟩ := exists_spells_of_readAtom? hread
    obtain rfl := htoken (ha.symm.trans ht.symm)
    exact h.append (opens_of_spells hspells)
  | @operator outer chain _ _ op hread =>
    obtain ⟨ha, -⟩ := readOperator?_eq_some_iff.mp hread
    obtain rfl := htoken (ha.symm.trans ht.symm)
    exact h.append (opens_of_isInert (all_isInert_spelling op))
  | closing level outer chain =>
    obtain rfl := htoken (a := [')']) ht.symm
    exact h.closing

namespace Reached

variable {s s' : State} {u t rest : Text}

/-- The blanks that are skipped count as read. -/
theorem skip (h : Reached s u) (t : Text) : Reached s (u ++ t.takeWhile isSpaceOrTab) := by
  have hblanks : ∀ c ∈ t.takeWhile isSpaceOrTab, c = ' ' ∨ c = '\t' := fun c hc =>
    isSpaceOrTab_iff.mp (isSpaceOrTab_of_mem_takeWhile hc)
  have hinert : (t.takeWhile isSpaceOrTab).all isInert = true :=
    List.all_eq_true.mpr fun c hc => isInert_of_isBlank (hblanks c hc)
  exact ⟨h.read.append_blanks hblanks, h.opens.append (opens_of_isInert hinert)⟩

/-- **Every step leads on from what has been read.** -/
theorem advance (h : Reached s u) (hstep : Advance s t s' rest) :
    ∃ token, t = token ++ rest ∧ Reached s' (u ++ token) := by
  obtain ⟨token, rfl, hread⟩ := h.read.advance hstep
  exact ⟨token, rfl, hread, h.opens.advance hstep⟩

end Reached

/-- **A run fails in a state that the text before the failure leads to.** -/
theorem exists_reached_of_run_eq_error {s : State} {u t : Text} {f : Failure} (h : Reached s u)
    (hrun : run s t = .error f) :
    ∃ s' v, u ++ t = v ++ f.rest ∧ Reached s' v ∧ step s' f.rest = .fail f.expected := by
  fun_induction run s t generalizing u with
  | case1 s t e hdone => cases hrun
  | case2 s t expected hfail =>
    cases hrun
    refine ⟨s, _, ?_, h.skip t, hfail⟩
    rw [List.append_assoc, takeWhile_append_skipSpaces]
  | case3 s t s' rest hnext ih =>
    obtain ⟨token, htoken, hreached⟩ := (h.skip t).advance (advance_of_step hnext)
    obtain ⟨s'', v, hsplit, hfound⟩ := ih hreached hrun
    refine ⟨s'', v, ?_, hfound⟩
    rw [← hsplit, List.append_assoc, List.append_assoc, ← htoken, takeWhile_append_skipSpaces]

/-! ## What completes a state -/

theorem Read.supply {outer : List Level} {level : Level} {u : Text}
    (h : Read (.operand outer level) u) {e : Expr} {t : Text} (ht : Renders 0 e t) :
    Read (.operator outer (level.supply e)) (u ++ t) := by
  obtain ⟨v, w, rfl, houter, hlevel⟩ := h
  exact ⟨v, w ++ t, List.append_assoc _ _ _, houter, hlevel.supply ht⟩

/-- Behind an operand, what has been read is a predicate but for the parentheses around. -/
theorem Read.exists_renders_close {outer : List Level} {chain : Chain} {u : Text}
    (h : Read (.operator outer chain) u) :
    ∃ e, Renders 4 e (u ++ List.replicate outer.length ')') := by
  induction outer generalizing chain u with
  | nil =>
    obtain ⟨_, w, rfl, houter, hchain⟩ := h
    cases houter
    rw [List.length_nil, List.replicate_zero, List.append_nil, List.nil_append]
    exact ⟨_, renders_assemble hchain⟩
  | cons level outer ih =>
    obtain ⟨token, htoken, hread⟩ := h.advance (.closing level outer chain [])
    rw [List.append_nil] at htoken
    obtain ⟨e, hrenders⟩ := ih hread
    rw [← htoken, List.append_assoc] at hrenders
    exact ⟨e, hrenders⟩

/-! ## Syntax errors -/

/-- A failure is placed behind the text before it. -/
theorem Failure.locate_append (f : Failure) (v : Text) :
    f.locate (v ++ f.rest) = ⟨f.expected, v.length, 1 + (lastLine v).length⟩ := by
  simp only [locate, List.length_append, Nat.add_sub_cancel, List.take_left]

/-- **The text before a syntax error goes on to a predicate as the error says**: with any operand
and the parentheses that are open where an operand was expected, and with these alone where an
operator was. -/
theorem parse_error_completable {s : Text} {e : SyntaxError} (h : parse s = .error e) :
    e.position ≤ s.length ∧
      (∃ before line, s.take e.position = before ++ line ∧ (∀ c ∈ before.getLast?, c = '\n') ∧
        '\n' ∉ line ∧ e.column = 1 + line.length) ∧
      (e.expected = .expression ∨ e.expected = .operand →
        ∀ operand t, Renders 0 operand t → ∃ result,
          parse (s.take e.position ++
            (t ++ List.replicate (openParentheses (s.take e.position)) ')')) = .ok result) ∧
      (e.expected = .operatorOrEnd ∨ e.expected = .operator → ∃ result,
        parse (s.take e.position ++
          List.replicate (openParentheses (s.take e.position)) ')') = .ok result) := by
  obtain ⟨f, hrun, rfl⟩ := exists_run_of_parse_eq_error h
  obtain ⟨s', v, hsplit, hreached, hfail⟩ := exists_reached_of_run_eq_error reached_start hrun
  rw [List.nil_append] at hsplit
  subst hsplit
  obtain ⟨before, hbefore, hlast, hline⟩ := exists_append_lastLine v
  rw [Failure.locate_append]
  simp only [List.take_left, List.length_append]
  refine ⟨Nat.le_add_right _ _, ⟨before, lastLine v, hbefore, hlast, hline, rfl⟩, ?_, ?_⟩
  · intro hexpected operand t ht
    obtain ⟨outer, level, rfl⟩ := eq_operand_of_step_eq_fail hfail hexpected
    obtain ⟨result, hrenders⟩ := (hreached.read.supply ht).exists_renders_close
    rw [hreached.opens.openParentheses_eq, ← List.append_assoc]
    exact ⟨result, parse_eq_ok_iff.mpr (run_of_renders hrenders)⟩
  · intro hexpected
    obtain ⟨outer, chain, rfl⟩ := eq_operator_of_step_eq_fail hfail hexpected
    obtain ⟨result, hrenders⟩ := hreached.read.exists_renders_close
    rw [hreached.opens.openParentheses_eq]
    exact ⟨result, parse_eq_ok_iff.mpr (run_of_renders hrenders)⟩

/-- Two parentheses are open, the one in quotes is not; a line feed in quotes starts a line. -/
def brokenNumber : Text := "!((\"\n)\" && 1a".toList

theorem parse_error_completable_brokenNumber :
    parse brokenNumber = .error ⟨.operand, 11, 7⟩ ∧ openParentheses (brokenNumber.take 11) = 2 ∧
      ∃ result, parse (brokenNumber.take 11 ++ "x))".toList) = .ok result := by
  have herror : parse brokenNumber = .error ⟨.operand, 11, 7⟩ := by decide +kernel
  have hopen : openParentheses (brokenNumber.take 11) = 2 := by decide
  refine ⟨herror, hopen, ?_⟩
  have hx : Renders 0 (.identifier ['x']) ['x'] :=
    .atom (.identifier (by decide) (by decide) (by decide))
  have hcompleted := (parse_error_completable herror).2.2.1 (.inr rfl) _ _ hx
  rwa [hopen] at hcompleted

end Predicate

end ConditionalText
