import ConditionalText.Proofs.Predicate.Operands
import ConditionalText.Proofs.Predicate.Precedence
import ConditionalText.Proofs.Predicate.Reading

/-!
# Reading and writing predicates

`Renders` says how an expression may be written: operators between their operands, blanks between
any two tokens, and parentheses at least where the tree needs them. The levels of the operators
decide where that is; `Renders limit` are the texts that may stand, without parentheses of their own,
where no operator looser than `limit` may.

Both directions go through chains. A text that renders an expression is read as a chain which the
levels up to its limit join to that expression (`Renders.reads`). The other way round, the text read
so far is kept with the state (`Read`), and joining a level turns the texts of operands into texts of
the joined ones (`chainText_stage`).

* `Renders.reads`: a rendering is read as its expression, wherever it stands.
* `Read.advance`, `renders_of_run`: every step of reading keeps what has been read a rendering.
* `parse_eq_ok_iff_renders`: **a text is read as an expression exactly if it renders it.**
-/

namespace ConditionalText.Predicate

open ConditionalText.Text

/-! ## Renderings -/

/-- The texts of an expression that may stand where no operator looser than the limit may. -/
inductive Renders : Nat → Expr → Text → Prop
  | atom {limit : Nat} {e : Expr} {t : Text} (spells : Spells e t) : Renders limit e t
  | parentheses {limit : Nat} {e : Expr} {t : Text} (inner : Renders 4 e t) :
      Renders limit e ('(' :: (t ++ [')']))
  | not {limit : Nat} {e : Expr} {t : Text} (operand : Renders 0 e t) :
      Renders limit (.not e) ('!' :: t)
  | binary {limit : Nat} {op : Operator} {left right : Expr} {a b : Text}
      (fits : op.looseness ≤ limit) (onLeft : Renders op.looseness left a)
      (onRight : Renders (op.looseness - 1) right b) :
      Renders limit (.binary op left right) (a ++ (op.spelling ++ b))
  | padded {limit : Nat} {e : Expr} {t : Text} (before after : Text)
      (blankBefore : ∀ c ∈ before, c = ' ' ∨ c = '\t') (inner : Renders limit e t)
      (blankAfter : ∀ c ∈ after, c = ' ' ∨ c = '\t') :
      Renders limit e (before ++ (t ++ after))

namespace Renders

variable {limit : Nat} {e : Expr} {t : Text}

theorem mono {limit' : Nat} (h : Renders limit e t) (hle : limit ≤ limit') :
    Renders limit' e t := by
  induction h generalizing limit' with
  | atom hspells => exact .atom hspells
  | parentheses hinner => exact .parentheses hinner
  | not hoperand => exact .not hoperand
  | binary hfits hleft hright => exact .binary (Nat.le_trans hfits hle) hleft hright
  | padded before after hbefore _ hafter ih => exact .padded before after hbefore (ih hle) hafter

theorem append_blanks (h : Renders limit e t) {blanks : Text}
    (hblanks : ∀ c ∈ blanks, c = ' ' ∨ c = '\t') : Renders limit e (t ++ blanks) :=
  .padded [] blanks (fun c hc => by cases hc) h hblanks

theorem blanks_append (h : Renders limit e t) {blanks : Text}
    (hblanks : ∀ c ∈ blanks, c = ' ' ∨ c = '\t') : Renders limit e (blanks ++ t) := by
  have hpadded := Renders.padded blanks [] hblanks h (fun c hc => by cases hc)
  rwa [List.append_nil] at hpadded

/-- No rendering starts with the character that could make an operator before it longer. -/
theorem exists_head (h : Renders limit e t) : ∃ c u, t = c :: u ∧ c ≠ '=' := by
  induction h with
  | atom hspells =>
    obtain ⟨c, u, rfl, hc⟩ := exists_head_of_spells hspells
    exact ⟨c, u, rfl, ne_of_starts_operand hc (by decide) (by decide)⟩
  | parentheses _ _ => exact ⟨'(', _, rfl, by decide⟩
  | not _ _ => exact ⟨'!', _, rfl, by decide⟩
  | binary _ _ _ ihleft _ =>
    obtain ⟨c, u, rfl, hc⟩ := ihleft
    exact ⟨c, _, rfl, hc⟩
  | padded before after hbefore _ _ ih =>
    obtain ⟨c, u, rfl, hc⟩ := ih
    cases before with
    | nil => exact ⟨c, _, rfl, hc⟩
    | cons d before =>
      refine ⟨d, _, rfl, ?_⟩
      rintro rfl
      exact absurd (hbefore '=' List.mem_cons_self) (by decide)

end Renders

/-! ## A rendering is read -/

/-- The chain once the operands of another one have come. -/
def Level.supplyChain (l : Level) (c : Chain) : Chain :=
  match l.pending with
  | none => ⟨negate l.nots c.first, c.rest⟩
  | some (before, op) => before.append op ⟨negate l.nots c.first, c.rest⟩

theorem Level.supplyChain_single (l : Level) (e : Expr) : l.supplyChain ⟨e, []⟩ = l.supply e := by
  unfold supplyChain supply
  cases l.pending <;> rfl

theorem Level.supplyChain_append (l : Level) (a : Chain) (op : Operator) (b : Chain) :
    l.supplyChain (a.append op b) = (l.supplyChain a).append op b := by
  unfold supplyChain
  cases l.pending with
  | none => rfl
  | some found => simp [Chain.append]

theorem Level.negate_not (n : Nat) (e : Expr) : negate n (.not e) = .not (negate n e) := by
  induction n with
  | zero => rfl
  | succ n ih => rw [negate, ih, negate]

theorem Level.supply_not (l : Level) (e : Expr) :
    ({ l with nots := l.nots + 1 } : Level).supply e = l.supply (.not e) := by
  unfold supply
  cases l.pending with
  | none => simp only [negate_not]; rfl
  | some found => simp only [negate_not]; rfl

/-- The spelling of an operator ends the operand before it. -/
theorem exists_head_spelling (op : Operator) :
    ∃ c u, op.spelling = c :: u ∧ isSpaceOrTab c = false ∧ isWordChar c = false ∧ c ≠ '.' := by
  cases op with
  | or => exact ⟨'|', _, rfl, by decide, by decide, by decide⟩
  | and => exact ⟨'&', _, rfl, by decide, by decide, by decide⟩
  | compare c =>
    cases c with
    | equal => exact ⟨'=', _, rfl, by decide, by decide, by decide⟩
    | notEqual => exact ⟨'!', _, rfl, by decide, by decide, by decide⟩
    | strictEqual => exact ⟨'=', _, rfl, by decide, by decide, by decide⟩
    | strictNotEqual => exact ⟨'!', _, rfl, by decide, by decide, by decide⟩
    | relation r =>
      cases r with
      | less => exact ⟨'<', _, rfl, by decide, by decide, by decide⟩
      | lessEqual => exact ⟨'<', _, rfl, by decide, by decide, by decide⟩
      | greater => exact ⟨'>', _, rfl, by decide, by decide, by decide⟩
      | greaterEqual => exact ⟨'>', _, rfl, by decide, by decide, by decide⟩

theorem skipSpaces_of_head {c : Char} {t : Text} (hc : isSpaceOrTab c = false) :
    skipSpaces (c :: t) = c :: t :=
  List.dropWhile_cons_of_neg (Bool.eq_false_iff.mp hc)

theorem Ends.blanks_append {rest blanks : Text} (h : Ends rest)
    (hblanks : ∀ c ∈ blanks, c = ' ' ∨ c = '\t') : Ends (blanks ++ rest) := by
  cases blanks with
  | nil => exact h
  | cons d blanks =>
    intro c hc
    obtain rfl : d = c := Option.some.inj hc
    rcases hblanks d List.mem_cons_self with rfl | rfl
    · exact ⟨by decide, by decide⟩
    · exact ⟨by decide, by decide⟩

/-- A text is read as the operands of a chain, whatever comes before and behind it. -/
def Reads (t : Text) (c : Chain) : Prop :=
  ∀ outer level rest, Ends rest →
    run (.operand outer level) (t ++ rest) = run (.operator outer (level.supplyChain c)) rest

theorem reads_of_spells {e : Expr} {t : Text} (h : Spells e t) : Reads t ⟨e, []⟩ := by
  intro outer level rest hrest
  obtain ⟨c, u, rfl, hc⟩ := exists_head_of_spells h
  have hblank : isSpaceOrTab c = false := by
    rw [isSpaceOrTab, decide_eq_false (ne_of_starts_operand hc (by decide) (by decide)),
      decide_eq_false (ne_of_starts_operand hc (by decide) (by decide))]
    rfl
  have hnot : (c :: u ++ rest).head? ≠ some '!' := fun h =>
    ne_of_starts_operand hc (by decide) (by decide) (Option.some.inj h)
  have hopen : (c :: u ++ rest).head? ≠ some '(' := fun h =>
    ne_of_starts_operand hc (by decide) (by decide) (Option.some.inj h)
  refine run_of_step (skipSpaces_of_head hblank) ?_
  rw [step_operand hnot hopen, readAtom?_of_spells h hrest, Level.supplyChain_single]

theorem Reads.parentheses {t : Text} {c : Chain} (h : Reads t c) :
    Reads ('(' :: (t ++ [')'])) ⟨c.assemble, []⟩ := by
  intro outer level rest _
  have hclose : Ends (')' :: rest) := by
    intro d hd
    obtain rfl : ')' = d := Option.some.inj hd
    exact ⟨by decide, by decide⟩
  have hopen : run (.operand outer level) ('(' :: (t ++ ')' :: rest)) =
      run (.operand (level :: outer) .start) (t ++ ')' :: rest) :=
    run_of_step rfl (step_operand_open _ _ _)
  have hend : run (.operator (level :: outer) c) (')' :: rest) =
      run (.operator outer (level.supply c.assemble)) rest :=
    run_of_step rfl (step_operator_close _ _ _ _)
  have hinner := h (level :: outer) .start (')' :: rest) hclose
  rw [List.cons_append, List.append_assoc, List.singleton_append, hopen, hinner,
    Level.supplyChain_single]
  exact hend

theorem Reads.not {t : Text} {e : Expr} (h : Reads t ⟨e, []⟩) : Reads ('!' :: t) ⟨.not e, []⟩ := by
  intro outer level rest hrest
  have hmark : run (.operand outer level) ('!' :: (t ++ rest)) =
      run (.operand outer { level with nots := level.nots + 1 }) (t ++ rest) :=
    run_of_step rfl (step_operand_not _ _ _)
  rw [List.cons_append, hmark, h _ _ _ hrest, Level.supplyChain_single, Level.supplyChain_single,
    Level.supply_not]

theorem Reads.append {a b : Text} {ca cb : Chain} {op : Operator} (ha : Reads a ca)
    (hb : Reads b cb) (hhead : ∃ c u, b = c :: u ∧ c ≠ '=') :
    Reads (a ++ (op.spelling ++ b)) (ca.append op cb) := by
  intro outer level rest hrest
  obtain ⟨c, u, hspelling, hblank, hword, hpoint⟩ := exists_head_spelling op
  have hends : Ends (op.spelling ++ (b ++ rest)) := by
    rw [hspelling]
    intro d hd
    obtain rfl : c = d := Option.some.inj hd
    exact ⟨hword, hpoint⟩
  have hread : readOperator? (op.spelling ++ (b ++ rest)) = some (op, b ++ rest) := by
    refine readOperator?_eq_some_iff.mpr ⟨rfl, fun _ hequals => ?_⟩
    obtain ⟨d, v, rfl, hd⟩ := hhead
    exact hd (Option.some.inj hequals)
  have hskip : skipSpaces (op.spelling ++ (b ++ rest)) = op.spelling ++ (b ++ rest) := by
    rw [hspelling]
    exact skipSpaces_of_head hblank
  rw [List.append_assoc, List.append_assoc, ha _ _ _ hends,
    run_of_step hskip (step_operator_of_some hread), hb _ _ _ hrest, Level.supplyChain_append]
  rfl

theorem Reads.padded {t before after : Text} {c : Chain} (h : Reads t c)
    (hbefore : ∀ d ∈ before, d = ' ' ∨ d = '\t') (hafter : ∀ d ∈ after, d = ' ' ∨ d = '\t') :
    Reads (before ++ (t ++ after)) c := by
  intro outer level rest hrest
  rw [List.append_assoc, List.append_assoc,
    run_append_of_blanks _ (fun d hd => isSpaceOrTab_iff.mpr (hbefore d hd)),
    h _ _ _ (hrest.blanks_append hafter),
    run_append_of_blanks _ (fun d hd => isSpaceOrTab_iff.mpr (hafter d hd))]

/-- **A rendering is read as its expression, wherever it stands.** -/
theorem Renders.reads {limit : Nat} {e : Expr} {t : Text} (h : Renders limit e t) :
    ∃ c, Chain.stage limit c = ⟨e, []⟩ ∧ Reads t c := by
  have hsingle : ∀ (n : Nat) (f : Expr), Chain.stage n ⟨f, []⟩ = ⟨f, []⟩ := fun n f =>
    Chain.stage_mono (m := 0) rfl (Nat.zero_le n)
  induction h with
  | atom hspells => exact ⟨_, hsingle _ _, reads_of_spells hspells⟩
  | parentheses _ ih =>
    obtain ⟨c, hstage, hreads⟩ := ih
    have hassemble := c.assemble_eq
    rw [hstage] at hassemble
    have hparentheses := hreads.parentheses
    rw [hassemble] at hparentheses
    exact ⟨_, hsingle _ _, hparentheses⟩
  | not _ ih =>
    obtain ⟨c, hstage, hreads⟩ := ih
    obtain rfl : c = _ := hstage
    exact ⟨_, hsingle _ _, hreads.not⟩
  | binary hfits _ hright ihleft ihright =>
    obtain ⟨ca, hca, hleftReads⟩ := ihleft
    obtain ⟨cb, hcb, hrightReads⟩ := ihright
    refine ⟨ca.append _ cb, ?_, hleftReads.append hrightReads hright.exists_head⟩
    exact Chain.stage_mono (Chain.stage_binary hca hcb) hfits
  | padded before after hbefore _ hafter ih =>
    obtain ⟨c, hstage, hreads⟩ := ih
    exact ⟨c, hstage, hreads.padded hbefore hafter⟩

theorem run_of_renders {e : Expr} {t : Text} (h : Renders 4 e t) :
    run (.operand [] .start) t = .ok e := by
  obtain ⟨c, hstage, hreads⟩ := h.reads
  have hend : Ends [] := fun c hc => by cases hc
  have hrun := hreads [] .start [] hend
  rw [List.append_nil] at hrun
  have hassemble := c.assemble_eq
  rw [hstage] at hassemble
  rw [hrun, run_eq]
  exact congrArg Except.ok hassemble

/-! ## The texts of a chain -/

/-- The text of operators with their right operands. -/
inductive TailText (limit : Nat) : List (Operator × Expr) → Text → Prop
  | nil : TailText limit [] []
  | cons (op : Operator) {e : Expr} {t u : Text} {rest : List (Operator × Expr)}
      (operand : Renders limit e t) (more : TailText limit rest u) :
      TailText limit ((op, e) :: rest) (op.spelling ++ (t ++ u))

/-- The text of a chain: its operands are written so that they may stand under the limit. -/
def ChainText (limit : Nat) (c : Chain) (u : Text) : Prop :=
  ∃ t v, u = t ++ v ∧ Renders limit c.first t ∧ TailText limit c.rest v

theorem TailText.push {limit : Nat} {rest : List (Operator × Expr)} {u : Text}
    (h : TailText limit rest u) (op : Operator) {e : Expr} {t : Text} (ht : Renders limit e t) :
    TailText limit (rest ++ [(op, e)]) (u ++ (op.spelling ++ t)) := by
  induction h with
  | nil =>
    have hlast := TailText.cons op ht .nil
    rwa [List.append_nil] at hlast
  | cons op' hoperand _ ih =>
    have hmore := TailText.cons op' hoperand ih
    simpa only [List.append_assoc, List.cons_append] using hmore

theorem TailText.append_blanks {limit : Nat} {rest : List (Operator × Expr)} {u : Text}
    (h : TailText limit rest u) (hrest : rest ≠ []) {blanks : Text}
    (hblanks : ∀ c ∈ blanks, c = ' ' ∨ c = '\t') : TailText limit rest (u ++ blanks) := by
  induction h with
  | nil => exact absurd rfl hrest
  | cons op hoperand hmore ih =>
    cases hmore with
    | nil =>
      have hlast := TailText.cons op (hoperand.append_blanks hblanks) .nil
      simpa only [List.append_nil, List.append_assoc] using hlast
    | cons _ hnext hlater =>
      have hmore := TailText.cons op hoperand (ih (List.cons_ne_nil _ _))
      simpa only [List.append_assoc] using hmore

namespace ChainText

variable {limit : Nat} {c : Chain} {u : Text}

theorem single {e : Expr} {t : Text} (h : Renders limit e t) : ChainText limit ⟨e, []⟩ t :=
  ⟨t, [], (List.append_nil t).symm, h, .nil⟩

theorem push (h : ChainText limit c u) (op : Operator) {e : Expr} {t : Text}
    (ht : Renders limit e t) : ChainText limit (c.push op e) (u ++ (op.spelling ++ t)) := by
  obtain ⟨first, v, rfl, hfirst, htail⟩ := h
  exact ⟨first, v ++ (op.spelling ++ t), List.append_assoc _ _ _, hfirst, htail.push op ht⟩

theorem append_blanks (h : ChainText limit c u) {blanks : Text}
    (hblanks : ∀ d ∈ blanks, d = ' ' ∨ d = '\t') : ChainText limit c (u ++ blanks) := by
  obtain ⟨first, v, rfl, hfirst, htail⟩ := h
  by_cases hrest : c.rest = []
  · rw [hrest] at htail
    cases htail
    rw [List.append_nil]
    exact ⟨first ++ blanks, [], (List.append_nil _).symm, hfirst.append_blanks hblanks,
      by rw [hrest]; exact .nil⟩
  · exact ⟨first, v ++ blanks, List.append_assoc _ _ _, hfirst, htail.append_blanks hrest hblanks⟩

end ChainText

/-- Joining a level joins the texts: the operand that grows on the left may hold operators of the
level, those on the right may not. -/
theorem chainText_joinFrom {n : Nat} {level : Operator.Binding} (hlevel : level.looseness = n + 1)
    {rest : List (Operator × Expr)} {u : Text} (htail : TailText n rest u) {e : Expr} {t : Text}
    (ht : Renders (n + 1) e t) : ChainText (n + 1) (Chain.joinFrom level e rest) (t ++ u) := by
  induction htail generalizing e t with
  | nil =>
    rw [List.append_nil]
    exact .single ht
  | @cons op next tnext u rest hnext _ ih =>
    rw [Chain.joinFrom]
    split
    · next hop =>
      have hloose : op.looseness = n + 1 := by rw [Operator.looseness, hop, hlevel]
      have hbinary : Renders (n + 1) (.binary op e next) (t ++ (op.spelling ++ tnext)) := by
        refine .binary (Nat.le_of_eq hloose) ?_ ?_
        · rw [hloose]
          exact ht
        · rw [hloose]
          exact hnext
      simpa only [List.append_assoc] using ih hbinary
    · obtain ⟨first, v, htext, hfirst, hmore⟩ := ih (hnext.mono (Nat.le_succ n))
      rw [htext]
      exact ⟨t, _, rfl, ht, .cons op hfirst hmore⟩

/-- **Every level joins the texts of the operands below it.** -/
theorem chainText_stage {c : Chain} {u : Text} (h : ChainText 0 c u) {n : Nat} (hn : n ≤ 4) :
    ChainText n (Chain.stage n c) u := by
  induction n with
  | zero => exact h
  | succ n ih =>
    obtain ⟨t, v, rfl, hfirst, htail⟩ := ih (Nat.le_of_succ_le hn)
    exact chainText_joinFrom (Operator.Binding.looseness_atPlace hn) htail
      (hfirst.mono (Nat.le_succ n))

theorem renders_assemble {c : Chain} {u : Text} (h : ChainText 0 c u) :
    Renders 4 c.assemble u := by
  obtain ⟨t, v, rfl, hfirst, htail⟩ := chainText_stage h (Nat.le_refl 4)
  rw [Chain.rest_stage_four] at htail
  cases htail
  rwa [List.append_nil]

/-! ## What has been read -/

/-- The text of a number of `!`, which may stand before any operand. -/
def Marks (n : Nat) (m : Text) : Prop :=
  ∀ e t, Renders 0 e t → Renders 0 (Level.negate n e) (m ++ t)

/-- The text of an expression of which an operand is still due. -/
def LevelText (l : Level) (u : Text) : Prop :=
  match l.pending with
  | none => Marks l.nots u
  | some (c, op) => ∃ v m, u = v ++ (op.spelling ++ m) ∧ ChainText 0 c v ∧ Marks l.nots m

/-- The text of the levels around the open parentheses. -/
inductive OuterText : List Level → Text → Prop
  | nil : OuterText [] []
  | cons {l : Level} {outer : List Level} {v w : Text} (more : OuterText outer v)
      (level : LevelText l w) : OuterText (l :: outer) (v ++ (w ++ ['(']))

/-- The text that has been read when a state is reached. -/
def Read : State → Text → Prop
  | .operand outer level, u => ∃ v w, u = v ++ w ∧ OuterText outer v ∧ LevelText level w
  | .operator outer chain, u => ∃ v w, u = v ++ w ∧ OuterText outer v ∧ ChainText 0 chain w

theorem Marks.append_blanks {n : Nat} {m : Text} (h : Marks n m) {blanks : Text}
    (hblanks : ∀ c ∈ blanks, c = ' ' ∨ c = '\t') : Marks n (m ++ blanks) := by
  intro e t ht
  rw [List.append_assoc]
  exact h e _ (ht.blanks_append hblanks)

theorem Marks.one_more {n : Nat} {m : Text} (h : Marks n m) : Marks (n + 1) (m ++ ['!']) := by
  intro e t ht
  have hnot := h (.not e) ('!' :: t) (.not ht)
  rw [Level.negate_not] at hnot
  rw [List.append_assoc]
  exact hnot

theorem LevelText.append_blanks {l : Level} {u : Text} (h : LevelText l u) {blanks : Text}
    (hblanks : ∀ c ∈ blanks, c = ' ' ∨ c = '\t') : LevelText l (u ++ blanks) := by
  unfold LevelText at h ⊢
  cases hpending : l.pending with
  | none =>
    rw [hpending] at h
    exact h.append_blanks hblanks
  | some found =>
    rw [hpending] at h
    obtain ⟨v, m, rfl, hchain, hmarks⟩ := h
    exact ⟨v, m ++ blanks, by simp, hchain, hmarks.append_blanks hblanks⟩

theorem LevelText.one_more {l : Level} {u : Text} (h : LevelText l u) :
    LevelText { l with nots := l.nots + 1 } (u ++ ['!']) := by
  unfold LevelText at h ⊢
  cases hpending : l.pending with
  | none =>
    rw [hpending] at h
    exact h.one_more
  | some found =>
    rw [hpending] at h
    obtain ⟨v, m, rfl, hchain, hmarks⟩ := h
    exact ⟨v, m ++ ['!'], by simp, hchain, hmarks.one_more⟩

/-- An operand that comes completes the chain. -/
theorem LevelText.supply {l : Level} {u : Text} (h : LevelText l u) {e : Expr} {t : Text}
    (ht : Renders 0 e t) : ChainText 0 (l.supply e) (u ++ t) := by
  unfold LevelText at h
  unfold Level.supply
  cases hpending : l.pending with
  | none =>
    rw [hpending] at h
    exact .single (h e t ht)
  | some found =>
    rw [hpending] at h
    obtain ⟨v, m, rfl, hchain, hmarks⟩ := h
    have hpush := hchain.push found.2 (hmarks e t ht)
    simpa only [List.append_assoc] using hpush

theorem Read.append_blanks {s : State} {u : Text} (h : Read s u) {blanks : Text}
    (hblanks : ∀ c ∈ blanks, c = ' ' ∨ c = '\t') : Read s (u ++ blanks) := by
  cases s with
  | operand outer level =>
    obtain ⟨v, w, rfl, houter, hlevel⟩ := h
    exact ⟨v, w ++ blanks, List.append_assoc _ _ _, houter, hlevel.append_blanks hblanks⟩
  | operator outer chain =>
    obtain ⟨v, w, rfl, houter, hchain⟩ := h
    exact ⟨v, w ++ blanks, List.append_assoc _ _ _, houter, hchain.append_blanks hblanks⟩

/-- **Every step of reading keeps the text read so far.** -/
theorem Read.advance {s s' : State} {u t rest : Text} (h : Read s u) (hstep : Advance s t s' rest) :
    ∃ token, t = token ++ rest ∧ Read s' (u ++ token) := by
  cases hstep with
  | negation outer level rest =>
    obtain ⟨v, w, rfl, houter, hlevel⟩ := h
    exact ⟨['!'], rfl, v, w ++ ['!'], List.append_assoc _ _ _, houter, hlevel.one_more⟩
  | opening outer level rest =>
    obtain ⟨v, w, rfl, houter, hlevel⟩ := h
    have hstart : LevelText .start [] := fun e t ht => ht
    exact ⟨['('], rfl, v ++ (w ++ ['(']), [], by simp, .cons houter hlevel, hstart⟩
  | atom outer level hread =>
    obtain ⟨v, w, rfl, houter, hlevel⟩ := h
    obtain ⟨token, rfl, hspells⟩ := exists_spells_of_readAtom? hread
    exact ⟨token, rfl, v, w ++ token, List.append_assoc _ _ _, houter,
      hlevel.supply (.atom hspells)⟩
  | @operator outer chain t rest op hread =>
    obtain ⟨v, w, rfl, houter, hchain⟩ := h
    obtain ⟨rfl, -⟩ := readOperator?_eq_some_iff.mp hread
    have hmarks : Marks 0 [] := fun e t ht => ht
    exact ⟨op.spelling, rfl, v, w ++ op.spelling, List.append_assoc _ _ _, houter, w, [], by simp,
      hchain, hmarks⟩
  | closing level outer chain rest =>
    obtain ⟨_, w, rfl, houter, hchain⟩ := h
    cases houter with
    | @cons _ _ v x houter hlevel =>
      have hinner : Renders 0 chain.assemble ('(' :: (w ++ [')'])) :=
        .parentheses (renders_assemble hchain)
      exact ⟨[')'], rfl, v, x ++ '(' :: (w ++ [')']), by simp, houter, hlevel.supply hinner⟩

/-- What has been read is a rendering of the result once reading is done. -/
theorem renders_of_run {s : State} {u t : Text} {e : Expr} (h : Read s u) (hrun : run s t = .ok e) :
    Renders 4 e (u ++ t) := by
  have hblanks : ∀ t : Text, ∀ c ∈ t.takeWhile isSpaceOrTab, c = ' ' ∨ c = '\t' := fun t c hc =>
    isSpaceOrTab_iff.mp (isSpaceOrTab_of_mem_takeWhile hc)
  fun_induction run s t generalizing u with
  | case1 s t e' hdone =>
    cases hrun
    obtain ⟨chain, rfl, hend, rfl⟩ := eq_operator_of_step_eq_done hdone
    obtain ⟨_, w, htext, houter, hchain⟩ := h.append_blanks (hblanks t)
    cases houter
    have hall := takeWhile_append_skipSpaces t
    rw [hend, List.append_nil] at hall
    rw [hall, List.nil_append] at htext
    rw [htext]
    exact renders_assemble hchain
  | case2 s t expected hfail => cases hrun
  | case3 s t s' rest hnext ih =>
    obtain ⟨token, htoken, hread⟩ := (h.append_blanks (hblanks t)).advance (advance_of_step hnext)
    have hrenders := ih hread hrun
    rw [List.append_assoc, List.append_assoc, ← htoken,
      takeWhile_append_skipSpaces] at hrenders
    exact hrenders

/-- **A text is read as an expression exactly if it renders it**; so there is at most one such
expression. -/
theorem parse_eq_ok_iff_renders (s : Text) (e : Expr) :
    (parse s = .ok e ↔ Renders 4 e s) ∧ ∀ e', Renders 4 e s → Renders 4 e' s → e' = e := by
  refine ⟨?_, fun e' h h' => ?_⟩
  · rw [parse_eq_ok_iff]
    constructor
    · intro hrun
      have hstart : Read (.operand [] .start) [] := ⟨[], [], rfl, .nil, fun e t ht => ht⟩
      exact renders_of_run hstart hrun
    · exact run_of_renders
  · have hrun := run_of_renders h
    rw [run_of_renders h'] at hrun
    exact Except.ok.inj hrun

/-- Relations bind tighter than equality, and an operator takes what is left of it as a whole. -/
example : (parse "! a==b<c\t!= d".toList).toOption =
    some (.binary (.compare .notEqual)
      (.binary (.compare .equal) (.not (.identifier ['a']))
        (.binary (.compare (.relation .less)) (.identifier ['b']) (.identifier ['c'])))
      (.identifier ['d'])) := by
  decide +kernel

end ConditionalText.Predicate
