import ConditionalText.Predicate.Substitution
import ConditionalText.Proofs.Predicate.Token

/-!
# What substituting leaves in place

Substituting goes through a text by quoted runs, words and single characters, reading by tokens.
The two agree on where these end, so that a token can be read before or after substituting.

* `substitute_eq_cons_iff`: characters outside quotes and words stay where they are.
* `readOperator?_substitute`, `skipSpaces_substitute`: so do operators, spaces and tabs.
* `readString?_literalOf`: **the literal of a value is read as that value**, whatever it holds.
* `readString?_substitute`, `readNumber?_substitute`: strings and numbers are read as they were, or
  fail as they did.
-/

namespace ConditionalText.Predicate

open ConditionalText.Text

variable {env : Environment}

/-! ## Piece by piece -/

/-- A character that substituting looks at by itself. -/
def isPlain (c : Char) : Bool :=
  !isQuote c && !isWordChar c

theorem substitute_nil : substitute env [] = [] := by
  rw [substitute]

theorem substitute_of_isQuote {c : Char} (hc : isQuote c = true) (t : Text) :
    substitute env (c :: t) = c :: ((spanQuoted c t).1 ++ substitute env (spanQuoted c t).2) := by
  rw [substitute, if_pos hc, List.cons_append]

theorem substitute_of_isWordChar {c : Char} (hc : isWordChar c = true) (t : Text) :
    substitute env (c :: t) =
      replaceWord env (c :: t.takeWhile isWordChar) ++ substitute env (t.dropWhile isWordChar) := by
  rw [substitute, isQuote_eq_false_of_isWordChar hc, if_neg Bool.false_ne_true, if_pos hc]

theorem substitute_of_isPlain {c : Char} (hc : isPlain c = true) (t : Text) :
    substitute env (c :: t) = c :: substitute env t := by
  simp only [isPlain, Bool.and_eq_true, Bool.not_eq_true'] at hc
  rw [substitute, hc.1, hc.2, if_neg Bool.false_ne_true, if_neg Bool.false_ne_true]

theorem replaceWord_of_isDigit {c : Char} (hc : isDigit c = true) (word : Text) :
    replaceWord env (c :: word) = c :: word :=
  if_pos hc

theorem replaceWord_of_not_isDigit {c : Char} (hc : ¬isDigit c = true) (word : Text) :
    replaceWord env (c :: word) = ((env.get? (c :: word)).map literalOf).getD (c :: word) :=
  if_neg hc

/-- What stands for a word starts as the word does, or is a literal. -/
theorem head?_replaceWord (env : Environment) (c : Char) (word : Text) :
    (replaceWord env (c :: word)).head? = some c ∨
      (replaceWord env (c :: word)).head? = some '"' := by
  by_cases hc : isDigit c = true
  · rw [replaceWord_of_isDigit hc]
    exact .inl rfl
  · rw [replaceWord_of_not_isDigit hc]
    cases env.get? (c :: word) with
    | none => exact .inl rfl
    | some value => exact .inr rfl

/-- Substituting leaves the first character in place, or puts a quote where a word stood. -/
theorem head?_substitute (env : Environment) (c : Char) (t : Text) :
    (substitute env (c :: t)).head? = some c ∨
      isWordChar c = true ∧ (substitute env (c :: t)).head? = some '"' := by
  by_cases hquote : isQuote c = true
  · rw [substitute_of_isQuote hquote]
    exact .inl rfl
  by_cases hword : isWordChar c = true
  · rw [substitute_of_isWordChar hword, List.head?_append]
    rcases head?_replaceWord env c (t.takeWhile isWordChar) with h | h
    · rw [h]
      exact .inl rfl
    · rw [h]
      exact .inr ⟨hword, rfl⟩
  · have hplain : isPlain c = true := by simp [isPlain, hquote, hword]
    rw [substitute_of_isPlain hplain]
    exact .inl rfl

theorem head?_of_head?_substitute {c : Char} {t : Text} (h : (substitute env t).head? = some c) :
    t.head? = some c ∨ c = '"' := by
  cases t with
  | nil =>
    rw [substitute_nil] at h
    cases h
  | cons d t =>
    rcases head?_substitute env d t with hd | ⟨-, hd⟩
    · exact .inl (hd.symm.trans h)
    · exact .inr (Option.some.inj (h.symm.trans hd))

theorem substitute_eq_nil_iff {t : Text} : substitute env t = [] ↔ t = [] := by
  constructor
  · intro h
    cases t with
    | nil => rfl
    | cons c t =>
      have hhead := head?_substitute env c t
      simp [h] at hhead
  · rintro rfl
    exact substitute_nil

/-- **Plain characters stay where they are**, and no others come to stand there. -/
theorem substitute_eq_cons_iff {c : Char} (hc : isPlain c = true) {t r : Text} :
    substitute env t = c :: r ↔ ∃ u, t = c :: u ∧ r = substitute env u := by
  constructor
  · intro h
    rcases head?_of_head?_substitute (congrArg List.head? h) with hhead | rfl
    · obtain ⟨u, rfl⟩ := List.head?_eq_some_iff.mp hhead
      rw [substitute_of_isPlain hc] at h
      exact ⟨u, rfl, (List.cons.inj h).2.symm⟩
    · exact absurd hc (by decide)
  · rintro ⟨u, rfl, rfl⟩
    exact substitute_of_isPlain hc u

theorem substitute_plain_append {a : Text} (ha : ∀ c ∈ a, isPlain c = true) (t : Text) :
    substitute env (a ++ t) = a ++ substitute env t := by
  induction a with
  | nil => rfl
  | cons c a ih =>
    rw [List.cons_append, substitute_of_isPlain (ha c List.mem_cons_self),
      ih fun d hd => ha d (List.mem_cons_of_mem _ hd), List.cons_append]

theorem exists_of_substitute_eq_append {a t r : Text} (ha : ∀ c ∈ a, isPlain c = true)
    (h : substitute env t = a ++ r) : ∃ u, t = a ++ u ∧ r = substitute env u := by
  induction a generalizing t with
  | nil => exact ⟨t, rfl, h.symm⟩
  | cons c a ih =>
    obtain ⟨u, rfl, hu⟩ := (substitute_eq_cons_iff (ha c List.mem_cons_self)).mp h
    obtain ⟨v, rfl, hv⟩ := ih (fun d hd => ha d (List.mem_cons_of_mem _ hd)) hu.symm
    exact ⟨v, rfl, hv⟩

theorem head?_substitute_eq_some_iff {c : Char} (hc : isPlain c = true) {t : Text} :
    (substitute env t).head? = some c ↔ t.head? = some c := by
  simp only [List.head?_eq_some_iff, substitute_eq_cons_iff hc]
  constructor
  · rintro ⟨-, u, rfl, -⟩
    exact ⟨u, rfl⟩
  · rintro ⟨u, rfl⟩
    exact ⟨_, u, rfl, rfl⟩

/-! ## Operators and spaces -/

theorem isPlain_of_mem_spelling (op : Operator) : ∀ c ∈ op.spelling, isPlain c = true := by
  rw [← List.all_eq_true]
  rcases op with _ | _ | _ | _ | _ | _ | r
  case compare.relation => cases r <;> rfl
  all_goals rfl

/-- **Operators stay where they are.** -/
theorem readOperator?_substitute (env : Environment) (t : Text) :
    readOperator? (substitute env t) = (readOperator? t).map (Prod.map id (substitute env)) := by
  refine Option.ext fun ⟨op, rest⟩ => ?_
  have hplain := isPlain_of_mem_spelling op
  rw [readOperator?_eq_some_iff, Option.map_eq_some_iff]
  constructor
  · rintro ⟨ht, hlongest⟩
    obtain ⟨u, rfl, rfl⟩ := exists_of_substitute_eq_append hplain ht
    rw [ne_eq, head?_substitute_eq_some_iff (by decide)] at hlongest
    exact ⟨(op, u), readOperator?_eq_some_iff.mpr ⟨rfl, hlongest⟩, rfl⟩
  · rintro ⟨⟨op', u⟩, hread, hpair⟩
    cases hpair
    obtain ⟨rfl, hlongest⟩ := readOperator?_eq_some_iff.mp hread
    rw [ne_eq, head?_substitute_eq_some_iff (by decide)]
    exact ⟨substitute_plain_append hplain u, hlongest⟩

theorem isPlain_of_isSpaceOrTab {c : Char} (h : isSpaceOrTab c = true) : isPlain c = true := by
  simp only [isSpaceOrTab, Bool.or_eq_true, decide_eq_true_eq] at h
  rcases h with rfl | rfl <;> decide

/-- **Spaces and tabs stay where they are.** -/
theorem skipSpaces_substitute (t : Text) :
    skipSpaces (substitute env t) = substitute env (skipSpaces t) := by
  unfold skipSpaces
  induction t with
  | nil => rw [substitute_nil, List.dropWhile_nil, substitute_nil]
  | cons c t ih =>
    by_cases hc : isSpaceOrTab c = true
    · rw [substitute_of_isPlain (isPlain_of_isSpaceOrTab hc), List.dropWhile_cons_of_pos hc,
        List.dropWhile_cons_of_pos hc, ih]
    · rw [List.dropWhile_cons_of_neg hc]
      cases h : substitute env (c :: t) with
      | nil => rfl
      | cons d r =>
        refine List.dropWhile_cons_of_neg fun hd => hc ?_
        obtain ⟨u, hu, -⟩ := (substitute_eq_cons_iff (isPlain_of_isSpaceOrTab hd)).mp h
        rwa [(List.cons.inj hu).1]

/-! ## Strings -/

theorem readString?_escapeChar (c : Char) (t : Text) :
    readString? '"' (escapeChar c ++ t) =
      (readString? '"' t).map fun (s, after) => (c :: s, after) := by
  by_cases hslash : c = '\\'
  · subst hslash
    exact readString?_backslash ..
  by_cases hquote : c = '"'
  · subst hquote
    exact readString?_backslash ..
  by_cases hfeed : c = '\n'
  · subst hfeed
    exact readString?_backslash ..
  by_cases hreturn : c = '\r'
  · subst hreturn
    exact readString?_backslash ..
  by_cases htab : c = '\t'
  · subst htab
    exact readString?_backslash ..
  · rw [escapeChar, if_neg hslash, if_neg hquote, if_neg hfeed, if_neg hreturn, if_neg htab,
      List.singleton_append, readString?_cons hslash, if_neg hquote]

/-- **The literal of a value is read as that value**, whatever characters it holds. -/
theorem readString?_literalOf (value t : Text) :
    readString? '"' (value.flatMap escapeChar ++ '"' :: t) = some (value, t) := by
  induction value with
  | nil => exact readString?_cons (by decide) t
  | cons c value ih => rw [List.flatMap_cons, List.append_assoc, readString?_escapeChar, ih]; rfl

theorem spanQuoted_append (quote : Char) (t : Text) :
    (spanQuoted quote t).1 ++ (spanQuoted quote t).2 = t := by
  fun_induction spanQuoted quote t with
  | case1 => rfl
  | case2 c t body rest hspan ih =>
    rw [hspan] at ih
    rw [← ih]
    rfl
  | case3 t _ => rfl
  | case4 c t _ _ body rest hspan ih =>
    rw [hspan] at ih
    rw [← ih]
    rfl

/-- Where a string is read, the quoted run is that string, and what follows it makes no difference
to it. -/
theorem exists_spanQuoted_of_readString? {quote : Char} (hquote : quote ≠ '\\') {t s after : Text}
    (h : readString? quote t = some (s, after)) :
    ∃ body, spanQuoted quote t = (body, after) ∧
      ∀ u, readString? quote (body ++ u) = some (s, u) := by
  fun_induction spanQuoted quote t generalizing s with
  | case1 => cases h
  | case2 c t body rest hspan ih =>
    rw [readString?_backslash] at h
    obtain ⟨⟨s, r⟩, hread, hpair⟩ := Option.map_eq_some_iff.mp h
    cases hpair
    obtain ⟨_, hspan', hbody⟩ := ih hread
    cases hspan.symm.trans hspan'
    refine ⟨_, rfl, fun u => ?_⟩
    rw [List.cons_append, List.cons_append, readString?_backslash, hbody]
    rfl
  | case3 t _ =>
    rw [readString?_cons hquote, if_pos rfl] at h
    cases h
    refine ⟨_, rfl, fun u => ?_⟩
    rw [List.singleton_append, readString?_cons hquote, if_pos rfl]
  | case4 c t hlone hc body rest hspan ih =>
    rw [readString?.eq_3 _ _ _ hlone, if_neg hc] at h
    obtain ⟨⟨s, r⟩, hread, hpair⟩ := Option.map_eq_some_iff.mp h
    cases hpair
    -- a backslash here would be the last character, and no string ends with the text
    have hslash : c ≠ '\\' := by
      rintro rfl
      cases t with
      | nil => cases hread
      | cons d t => exact hlone d t rfl rfl
    obtain ⟨_, hspan', hbody⟩ := ih hread
    cases hspan.symm.trans hspan'
    refine ⟨_, rfl, fun u => ?_⟩
    rw [List.cons_append, readString?_cons hslash, if_neg hc, hbody]
    rfl

/-- Where no string can be read, the quoted run goes on to the end. -/
theorem spanQuoted_of_readString?_eq_none {quote : Char} {t : Text}
    (h : readString? quote t = none) : spanQuoted quote t = (t, []) := by
  fun_induction spanQuoted quote t with
  | case1 => rfl
  | case2 c t body rest hspan ih =>
    rw [readString?_backslash, Option.map_eq_none_iff] at h
    cases hspan.symm.trans (ih h)
    rfl
  | case3 t hlone =>
    rw [readString?.eq_3 _ _ _ hlone, if_pos rfl] at h
    cases h
  | case4 c t hlone hc body rest hspan ih =>
    rw [readString?.eq_3 _ _ _ hlone, if_neg hc, Option.map_eq_none_iff] at h
    cases hspan.symm.trans (ih h)
    rfl

/-- **A string is read as it was**, or fails as it did. -/
theorem readString?_substitute {quote : Char} (hquote : isQuote quote = true) (t : Text) :
    readString? quote ((spanQuoted quote t).1 ++ substitute env (spanQuoted quote t).2) =
      (readString? quote t).map (Prod.map id (substitute env)) := by
  have hslash := ne_backslash_of_isQuote hquote
  cases h : readString? quote t with
  | none =>
    rw [spanQuoted_of_readString?_eq_none h, substitute_nil, List.append_nil, h]
    rfl
  | some found =>
    obtain ⟨body, hspan, hbody⟩ := exists_spanQuoted_of_readString? hslash h
    rw [hspan, hbody]
    rfl

/-! ## Numbers -/

theorem touchesWord_substitute (env : Environment) {t : Text} (h : touchesWord t = false) :
    touchesWord (substitute env t) = false := by
  cases t with
  | nil =>
    rw [substitute_nil]
    rfl
  | cons c t =>
    rcases head?_substitute env c t with hc | ⟨hc, -⟩
    · obtain ⟨r, hr⟩ := List.head?_eq_some_iff.mp hc
      rw [hr]
      exact h
    · exact absurd hc (Bool.eq_false_iff.mp h)

/-- What follows digits, before and after substituting: either a word goes on in both texts, or in
none of them and then the second is the first with its variables replaced. -/
def FollowsAlike (env : Environment) (t t' : Text) : Prop :=
  touchesWord t' = touchesWord t ∧ (touchesWord t = false → t' = substitute env t)

theorem followsAlike_substitute {t : Text} (h : touchesWord t = false) :
    FollowsAlike env t (substitute env t) :=
  ⟨by rw [h, touchesWord_substitute env h], fun _ => rfl⟩

/-- Digits are read as they were. -/
theorem takeWhile_isDigit_substitute (env : Environment) {c : Char} (hc : isDigit c = true)
    (t : Text) :
    (substitute env (c :: t)).takeWhile isDigit = (c :: t).takeWhile isDigit ∧
      FollowsAlike env ((c :: t).dropWhile isDigit)
        ((substitute env (c :: t)).dropWhile isDigit) := by
  have hword := isWordChar_of_isDigit hc
  have hsplit : c :: t = (c :: t.takeWhile isWordChar) ++ t.dropWhile isWordChar := by
    rw [List.cons_append, List.takeWhile_append_dropWhile]
  have hrest := touchesWord_dropWhile t
  obtain ⟨htake, hdrop⟩ := takeWhile_append_of_touchesWord (fun _ => isWordChar_of_isDigit) hrest
    (c :: t.takeWhile isWordChar)
  obtain ⟨htake', hdrop'⟩ := takeWhile_append_of_touchesWord (fun _ => isWordChar_of_isDigit)
    (touchesWord_substitute env hrest) (c :: t.takeWhile isWordChar)
  rw [substitute_of_isWordChar hword, replaceWord_of_isDigit hc, htake', hdrop', hsplit, htake,
    hdrop]
  refine ⟨rfl, ?_⟩
  cases hmore : (c :: t.takeWhile isWordChar).dropWhile isDigit with
  | nil => exact followsAlike_substitute hrest
  | cons d more =>
    have hmem : d ∈ c :: t.takeWhile isWordChar :=
      (List.dropWhile_sublist isDigit).subset (by rw [hmore]; exact List.mem_cons_self)
    have hd : isWordChar d = true := isWordChar_of_mem_word hword t d hmem
    refine ⟨rfl, fun h => ?_⟩
    rw [List.cons_append, touchesWord, hd] at h
    cases h

theorem exists_substitute_of_isDigit (env : Environment) {c : Char} (hc : isDigit c = true)
    (t : Text) : ∃ u, substitute env (c :: t) = c :: u := by
  rw [substitute_of_isWordChar (isWordChar_of_isDigit hc), replaceWord_of_isDigit hc]
  exact ⟨_, rfl⟩

/-- A fraction is read as it was. -/
theorem splitFraction_substitute {t t' : Text} (h : FollowsAlike env t t') :
    (splitFraction t').1 = (splitFraction t).1 ∧
      FollowsAlike env (splitFraction t).2 (splitFraction t').2 := by
  by_cases hpoint : ∃ c u, t = '.' :: c :: u ∧ isDigit c = true
  · obtain ⟨c, u, rfl, hc⟩ := hpoint
    obtain ⟨htake, hfollows⟩ := takeWhile_isDigit_substitute env hc u
    obtain ⟨u', hu'⟩ := exists_substitute_of_isDigit env hc u
    rw [h.2 rfl, substitute_of_isPlain (by decide), splitFraction_point_of_isDigit hc, hu',
      splitFraction_point_of_isDigit hc, ← hu']
    exact ⟨htake, hfollows⟩
  · have hpoint' : ¬∃ c u, t' = '.' :: c :: u ∧ isDigit c = true := by
      rintro ⟨c, u', rfl, hc⟩
      obtain ⟨v, rfl, hv⟩ := (substitute_eq_cons_iff (by decide)).mp (h.2 h.1.symm).symm
      rcases head?_of_head?_substitute (congrArg List.head? hv.symm) with hhead | rfl
      · obtain ⟨u, rfl⟩ := List.head?_eq_some_iff.mp hhead
        exact hpoint ⟨c, u, rfl, hc⟩
      · exact absurd hc (by decide)
    rw [splitFraction_of_not_point hpoint, splitFraction_of_not_point hpoint']
    exact ⟨rfl, h⟩

/-- **A number is read as it was**, or fails as it did. -/
theorem readNumber?_substitute {c : Char} (hc : isDigit c = true) (t : Text) :
    readNumber? (substitute env (c :: t)) =
      (readNumber? (c :: t)).map (Prod.map id (substitute env)) := by
  obtain ⟨hwhole, hfollows⟩ := takeWhile_isDigit_substitute env hc t
  obtain ⟨hfraction, htouches, hafter⟩ := splitFraction_substitute hfollows
  unfold readNumber?
  simp only [hwhole, hfraction, htouches]
  cases h : touchesWord (splitFraction ((c :: t).dropWhile isDigit)).2 with
  | true => rfl
  | false => rw [hafter h]; rfl

end ConditionalText.Predicate
