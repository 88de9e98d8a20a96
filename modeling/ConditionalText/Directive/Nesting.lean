import ConditionalText.SourceError

/-!
# Nested blocks

The condition stack of the specification (§4.3). The state between two directives: which blocks are
open (the condition frames of §3), whether the text is enabled (`currentEnabled`), and whether the
last predicate of the innermost block held (`matched`, its `lastBranchMatched`). Text is enabled
while every open block is in a branch that is taken.

An `elif` is decided only while no branch of its block has matched; closing a block forgets what
matched before it, so the enclosing block goes on as if nothing had.

* `after` is the state after one more directive. A failure yields no state, so the state before it
  stays. It is `afterM` for answers without effects; with effects `afterM` shows what is asked.
* `apply` changes a state in place, one field after another, and may fail on the way.
* `question?` names the predicate that a directive asks; `afterM_eq` says that it is asked once and
  nothing else is, `after_congr` that nothing but the answer to it counts.
-/

namespace ConditionalText

/-- How predicates are decided. -/
abbrev Decider := Text → Except Predicate.Error Bool

/-- An open block. -/
structure Block where
  /-- Whether the text around the block is enabled. -/
  outerEnabled : Bool
  /-- Where its `if` starts. -/
  openedAt : Nat
  deriving DecidableEq, Repr

/-- The open blocks, innermost first, and the state of the text. -/
structure Nesting where
  blocks : List Block
  enabled : Bool
  matched : Bool
  deriving DecidableEq, Repr

namespace Nesting

/-- The initial state (§4.3): no block is open. -/
def start : Nesting := ⟨[], true, false⟩

def depth (n : Nesting) : Nat :=
  n.blocks.length

section Monadic

variable {m : Type → Type} [Monad m]

/-- The answer to the predicate of a directive, given in a monad. -/
def askM (answer : Text → m (Except Predicate.Error Bool)) (d : Directive) :
    m (Except SourceError Bool) :=
  match d.predicate with
  | none => pure (.error (.malformed (.missingPredicate d.tag d.span.start)))
  | some text => do
    let holds ← answer text
    return holds.mapError fun cause => .predicate text d.span.start cause

/-- The transition rules (§4.3): the state after a directive, the answers being given in a monad. -/
def afterM (answer : Text → m (Except Predicate.Error Bool)) (n : Nesting) (d : Directive) :
    m (Except SourceError Nesting) :=
  match d.tag, n.blocks with
  | .ifTag, blocks => do
    let result ← askM answer d
    return result.map fun holds =>
      { blocks := ⟨n.enabled, d.span.start⟩ :: blocks
        enabled := n.enabled && holds
        matched := holds }
  | tag, [] => return .error (.unexpectedDirective tag d.span.start)
  | .elifTag, block :: _ =>
    if n.matched then return .ok { n with enabled := false }
    else do
      let result ← askM answer d
      return result.map fun holds =>
        { n with enabled := block.outerEnabled && holds, matched := holds }
  | .elseTag, block :: _ => return .ok { n with enabled := block.outerEnabled && !n.matched }
  | .endifTag, block :: blocks => return .ok ⟨blocks, block.outerEnabled, false⟩

/-! ### In place -/

/-- The innermost open block. Outside all blocks a directive that needs one fails. -/
def innermostM (d : Directive) : ExceptT SourceError (StateT Nesting m) Block := do
  match (← get).blocks with
  | [] => throw (.unexpectedDirective d.tag d.span.start)
  | block :: _ => return block

/-- `apply` (§2, §4.3): applies a directive to a state in place, the answers being given in a monad.
What has been assigned before a failure stays. -/
def applyM (answer : Text → m (Except Predicate.Error Bool)) (d : Directive) :
    ExceptT SourceError (StateT Nesting m) Unit := do
  match d.tag with
  | .ifTag =>
    let holds ← ExceptT.mk (StateT.lift (askM answer d))
    modify fun n => { n with blocks := ⟨n.enabled, d.span.start⟩ :: n.blocks }
    modify fun n => { n with enabled := n.enabled && holds }
    modify fun n => { n with matched := holds }
  | .elifTag =>
    let block ← innermostM d
    if (← get).matched then modify fun n => { n with enabled := false }
    else
      let holds ← ExceptT.mk (StateT.lift (askM answer d))
      modify fun n => { n with enabled := block.outerEnabled && holds }
      modify fun n => { n with matched := holds }
  | .elseTag =>
    let block ← innermostM d
    modify fun n => { n with enabled := block.outerEnabled && !n.matched }
  | .endifTag =>
    let block ← innermostM d
    modify fun n => { n with blocks := n.blocks.tail }
    modify fun n => { n with enabled := block.outerEnabled }
    modify fun n => { n with matched := false }

end Monadic

/-- Applies a directive to a state in place. -/
def apply (answer : Decider) (d : Directive) : ExceptT SourceError (StateM Nesting) Unit :=
  applyM (m := Id) answer d

/-- The answer to the predicate of a directive. -/
def ask (answer : Decider) (d : Directive) : Except SourceError Bool :=
  askM (m := Id) answer d

/-- The state after a directive. -/
def after (answer : Decider) (n : Nesting) (d : Directive) : Except SourceError Nesting :=
  afterM (m := Id) answer n d

/-- No block may be open at the end (§4.3). -/
def checkClosed (n : Nesting) : Except SourceError Unit :=
  match n.blocks with
  | [] => .ok ()
  | block :: _ => .error (.unterminatedBlock n.depth block.openedAt)

/-- The predicate that a directive asks. -/
def question? (n : Nesting) (d : Directive) : Option Text :=
  match d.tag, n.blocks with
  | .ifTag, _ => d.predicate
  | .elifTag, _ :: _ => if n.matched then none else d.predicate
  | _, _ => none

/-- **A directive asks its question once, and nothing else**: in any monad the state after it is
the answer to the question put into the state. -/
theorem afterM_eq {m : Type → Type} [Monad m] [LawfulMonad m]
    (answer : Text → m (Except Predicate.Error Bool)) (n : Nesting) (d : Directive) :
    n.afterM answer d =
      match n.question? d with
      | none => pure (n.after (fun _ => .ok false) d)
      | some text => (fun result => n.after (fun _ => result) d) <$> answer text := by
  unfold after afterM question? askM
  cases d.tag <;> cases n.blocks <;> cases n.matched <;> cases d.predicate <;> simp <;> rfl

/-- The state after a directive depends only on the answer to its question. -/
theorem after_congr {f g : Decider} {n : Nesting} {d : Directive}
    (h : ∀ text, n.question? d = some text → f text = g text) : n.after f d = n.after g d := by
  have hf := afterM_eq (m := Id) f n d
  have hg := afterM_eq (m := Id) g n d
  cases hq : n.question? d with
  | none =>
    rw [hq] at hf hg
    exact hf.trans hg.symm
  | some text =>
    simp only [hq, h text hq] at hf hg
    exact hf.trans hg.symm

end Nesting

end ConditionalText
