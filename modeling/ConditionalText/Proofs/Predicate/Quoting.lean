import ConditionalText.Proofs.Predicate.Operands

/-!
# Inside and outside quotes

Whether a place in a predicate lies in quotes is told by reading up to it character by character
(`quotingAfter`), without knowing its tokens. So is the number of parentheses that are open there
(`openParentheses`): those in quotes do not count.

* `quotingAfter_append`, `unquoted_append`: a text is read part by part, if the parts before end
  outside quotes.
* `Opens`: a text ends outside quotes and leaves so many parentheses open.
* `opens_of_spells`: an operand other than a parenthesis leaves none open, whatever its quotes hold.
-/

namespace ConditionalText.Predicate

open ConditionalText.Text

/-! ## Places -/

/-- Where a place in a predicate lies: outside quotes, or between quotes of a kind, there maybe
right behind a backslash. -/
inductive Quoting where
  | outside
  | inside (quote : Char)
  | escaped (quote : Char)
  deriving DecidableEq, Repr

/-- Where one more character leads. -/
def Quoting.next : Quoting → Char → Quoting
  | .outside, c => if isQuote c then .inside c else .outside
  | .inside quote, c =>
    if c = '\\' then .escaped quote else if c = quote then .outside else .inside quote
  | .escaped quote, _ => .inside quote

/-- Where a text leads from outside quotes. -/
def quotingAfter (t : Text) : Quoting :=
  t.foldl Quoting.next .outside

theorem quotingAfter_append {a : Text} (ha : quotingAfter a = .outside) (b : Text) :
    quotingAfter (a ++ b) = quotingAfter b := by
  rw [quotingAfter, List.foldl_append]
  exact congrArg (b.foldl Quoting.next) ha

theorem quotingAfter_of_not_isQuote {a : Text} (ha : ∀ c ∈ a, isQuote c = false) :
    quotingAfter a = .outside := by
  induction a with
  | nil => rfl
  | cons c a ih =>
    have hc : quotingAfter [c] = .outside := by
      simp [quotingAfter, Quoting.next, ha c List.mem_cons_self]
    exact (quotingAfter_append hc a).trans (ih fun d hd => ha d (List.mem_cons_of_mem c hd))

/-! ## What stands outside quotes -/

/-- The characters that neither lie in quotes nor are quotes, from a place on. -/
def unquotedFrom (place : Quoting) : Text → Text
  | [] => []
  | c :: t =>
    if place = .outside ∧ place.next c = .outside then c :: unquotedFrom (place.next c) t
    else unquotedFrom (place.next c) t

/-- The characters of a text that neither lie in quotes nor are quotes. -/
def unquoted (t : Text) : Text :=
  unquotedFrom .outside t

theorem unquotedFrom_append (place : Quoting) (a b : Text) :
    unquotedFrom place (a ++ b) =
      unquotedFrom place a ++ unquotedFrom (a.foldl Quoting.next place) b := by
  induction a generalizing place with
  | nil => rfl
  | cons c a ih =>
    rw [List.cons_append, unquotedFrom, unquotedFrom, ih, List.foldl_cons]
    split <;> rfl

theorem unquoted_append {a : Text} (ha : quotingAfter a = .outside) (b : Text) :
    unquoted (a ++ b) = unquoted a ++ unquoted b := by
  have happend := unquotedFrom_append .outside a b
  rwa [← quotingAfter, ha] at happend

theorem unquoted_of_not_isQuote {t : Text} (h : ∀ c ∈ t, isQuote c = false) : unquoted t = t := by
  induction t with
  | nil => rfl
  | cons c t ih =>
    have hnext : Quoting.next .outside c = .outside := by
      simp [Quoting.next, h c List.mem_cons_self]
    rw [unquoted, unquotedFrom, if_pos ⟨rfl, hnext⟩, hnext]
    exact congrArg (c :: ·) (ih fun d hd => h d (List.mem_cons_of_mem c hd))

/-- What stands between quotes leads to the closing one, and that one outside. -/
theorem Quoted.leads {quote : Char} (hquote : quote ≠ '\\') {body value : Text}
    (h : Quoted quote body value) :
    (body ++ [quote]).foldl Quoting.next (.inside quote) = .outside ∧
      unquotedFrom (.inside quote) (body ++ [quote]) = [] := by
  induction h with
  | nil => simp [Quoting.next, unquotedFrom, hquote]
  | @plain c body _ hne hback _ ih =>
    have hnext : Quoting.next (.inside quote) c = .inside quote := by
      rw [Quoting.next, if_neg hback, if_neg hne]
    rw [List.cons_append, List.foldl_cons, unquotedFrom, hnext, if_neg (by simp)]
    exact ih
  | @escaped c body _ _ ih =>
    have hnext : Quoting.next (.inside quote) '\\' = .escaped quote := rfl
    have hnext' : Quoting.next (.escaped quote) c = .inside quote := rfl
    rw [List.cons_append, List.cons_append, List.foldl_cons, List.foldl_cons, unquotedFrom,
      unquotedFrom, hnext, hnext', if_neg (by simp), if_neg (by simp)]
    exact ih

/-! ## Open parentheses -/

/-- The number of parentheses that are open behind a text. -/
def openParentheses (t : Text) : Nat :=
  (unquoted t).count '(' - (unquoted t).count ')'

/-- A text ends outside quotes, and of its parentheses a number are not closed. -/
structure Opens (n : Nat) (t : Text) : Prop where
  outside : quotingAfter t = .outside
  count_eq : (unquoted t).count '(' = (unquoted t).count ')' + n

namespace Opens

variable {m n : Nat} {a b : Text}

theorem openParentheses_eq (h : Opens n a) : openParentheses a = n := by
  rw [openParentheses, h.count_eq, Nat.add_sub_cancel_left]

theorem append (ha : Opens m a) (hb : Opens n b) : Opens (m + n) (a ++ b) := by
  constructor
  · rw [quotingAfter_append ha.outside, hb.outside]
  · rw [unquoted_append ha.outside, List.count_append, List.count_append, ha.count_eq, hb.count_eq]
    omega

theorem opening (ha : Opens n a) : Opens (n + 1) (a ++ ['(']) :=
  ha.append ⟨rfl, rfl⟩

theorem closing (ha : Opens (n + 1) a) : Opens n (a ++ [')']) := by
  have hleft : (unquoted [')']).count '(' = 0 := rfl
  have hright : (unquoted [')']).count ')' = 1 := rfl
  constructor
  · rw [quotingAfter_append ha.outside]
    rfl
  · rw [unquoted_append ha.outside, List.count_append, List.count_append, ha.count_eq, hleft,
      hright]
    omega

end Opens

/-- Whether a character is neither a quote nor a parenthesis. -/
def isInert (c : Char) : Bool :=
  !isQuote c && c != '(' && c != ')'

theorem opens_of_isInert {t : Text} (h : t.all isInert = true) : Opens 0 t := by
  have hinert : ∀ c ∈ t, isQuote c = false ∧ c ≠ '(' ∧ c ≠ ')' := by
    simpa [isInert, and_assoc] using h
  have hunquoted := unquoted_of_not_isQuote fun c hc => (hinert c hc).1
  refine ⟨quotingAfter_of_not_isQuote fun c hc => (hinert c hc).1, ?_⟩
  rw [hunquoted, List.count_eq_zero_of_not_mem fun hc => (hinert _ hc).2.1 rfl,
    List.count_eq_zero_of_not_mem fun hc => (hinert _ hc).2.2 rfl]

theorem isInert_of_isWordChar {c : Char} (h : isWordChar c = true) : isInert c = true := by
  have hne : ∀ d, isWordChar d = false → c ≠ d := by
    rintro d hd rfl
    rw [h] at hd
    cases hd
  simp [isInert, isQuote_eq_false_of_isWordChar h, hne '(' (by decide), hne ')' (by decide)]

theorem isInert_of_isBlank {c : Char} (h : c = ' ' ∨ c = '\t') : isInert c = true := by
  rcases h with rfl | rfl
  · decide
  · decide

/-- An operand other than a parenthesis leaves none open, whatever stands between its quotes. -/
theorem opens_of_spells {e : Expr} {t : Text} (h : Spells e t) : Opens 0 t := by
  have hdigits : ∀ {u : Text}, (∀ c ∈ u, isDigit c = true) → u.all isInert = true := fun h =>
    List.all_eq_true.mpr fun c hc => isInert_of_isWordChar (isWordChar_of_isDigit (h c hc))
  cases h with
  | yes => exact opens_of_isInert (by decide)
  | no => exact opens_of_isInert (by decide)
  | identifier hword _ _ =>
    refine opens_of_isInert (List.all_eq_true.mpr fun c hc => isInert_of_isWordChar ?_)
    cases t with
    | nil => cases hc
    | cons d t =>
      obtain ⟨hd, hall⟩ := Bool.and_eq_true_iff.mp hword
      rcases List.mem_cons.mp hc with rfl | hc
      · exact isWordChar_of_isWordStart hd
      · exact List.all_eq_true.mp hall c hc
  | @string quote body value hquote hbody =>
    obtain ⟨hleads, hnone⟩ := hbody.leads (ne_backslash_of_isQuote hquote)
    have hnext : Quoting.next .outside quote = .inside quote := if_pos hquote
    constructor
    · rw [quotingAfter, List.foldl_cons, hnext, hleads]
    · rw [unquoted, unquotedFrom, hnext, if_neg (by simp), hnone]
      rfl
  | whole _ hwhole _ => exact opens_of_isInert (hdigits hwhole)
  | decimal _ hwhole _ hfraction _ =>
    refine opens_of_isInert ?_
    rw [List.all_append, List.all_cons, hdigits hwhole, hdigits hfraction]
    rfl

end ConditionalText.Predicate
