import ConditionalText.Preprocess
import ConditionalText.Proofs.Directive.Lines
import ConditionalText.Proofs.Predicate.Quoting
import ConditionalText.Proofs.Predicate.Substitution
import Mathlib.Data.List.Basic

/-!
# The variables that matter

Which variables a predicate can ask for is seen from its text alone: they are called like the words
in it that stand outside quotes (`NamedIn`). Whether a place lies in quotes is told by reading up to
it character by character (`quotingAfter`), without the runs that substituting goes by.

* `NamedIn.append_left`, `NamedIn.append_right`: a name in a part of a text is a name in the whole,
  if the part ends outside quotes and between words.
* `substitute_congr`: substituting looks up no other word.
* `holdsIn_congr`: nor does a predicate; the blanks around it do not count.
* `Progress.run_congr`: a run asks nothing but the predicates of its directives.
* `preprocess_congr`: **environments that agree on the names in the predicates of a source make the
  same of it**, output or error.
-/

namespace ConditionalText

open ConditionalText.Text

namespace Predicate

/-! ## Names in a predicate -/

/-- Between two texts there is a word that may name a variable: it stands outside quotes, it is a
run of word characters that goes on at neither end, and it does not start with a digit. -/
structure NamedBetween (before word after : Text) : Prop where
  unquoted : quotingAfter before = .outside
  opens : ∃ c ∈ word.head?, isDigit c = false
  isWord : ∀ c ∈ word, isWordChar c = true
  isBehind : ∀ c ∈ before.getLast?, isWordChar c = false
  isBefore : ∀ c ∈ after.head?, isWordChar c = false

/-- A word names a variable in a predicate, if there is one of that name. -/
def NamedIn (word t : Text) : Prop :=
  ∃ before after, t = before ++ word ++ after ∧ NamedBetween before word after

theorem namedBetween_iff {before word after : Text} :
    NamedBetween before word after ↔ quotingAfter before = .outside ∧
      word.head?.any (fun c => !isDigit c) = true ∧ word.all isWordChar = true ∧
      before.getLast?.all (fun c => !isWordChar c) = true ∧
      after.head?.all (fun c => !isWordChar c) = true := by
  simp only [Option.any_eq_true, Option.all_eq_true, List.all_eq_true, Bool.not_eq_true']
  exact ⟨fun ⟨h₁, h₂, h₃, h₄, h₅⟩ => ⟨h₁, h₂, h₃, h₄, h₅⟩,
    fun ⟨h₁, h₂, h₃, h₄, h₅⟩ => ⟨h₁, h₂, h₃, h₄, h₅⟩⟩

instance (before word after : Text) : Decidable (NamedBetween before word after) :=
  decidable_of_iff _ namedBetween_iff.symm

/-- It is enough to look at every offset. -/
theorem namedIn_iff {word t : Text} :
    NamedIn word t ↔ ∃ i ∈ List.range (t.length + 1),
      t = t.take i ++ word ++ t.drop (i + word.length) ∧
        NamedBetween (t.take i) word (t.drop (i + word.length)) := by
  constructor
  · rintro ⟨before, after, rfl, h⟩
    refine ⟨before.length, by simp only [List.mem_range, List.length_append]; omega, ?_⟩
    have htake : (before ++ word ++ after).take before.length = before := by simp
    have hdrop : (before ++ word ++ after).drop (before.length + word.length) = after := by
      rw [← List.length_append, List.drop_left]
    rw [htake, hdrop]
    exact ⟨rfl, h⟩
  · rintro ⟨i, -, ht, h⟩
    exact ⟨_, _, ht, h⟩

instance (word t : Text) : Decidable (NamedIn word t) :=
  decidable_of_iff _ namedIn_iff.symm

theorem not_namedIn_nil (word : Text) : ¬NamedIn word [] := by
  rintro ⟨before, after, ht, h⟩
  obtain ⟨c, hc, -⟩ := h.opens
  have hword : word = [] := by
    have hnil := List.append_eq_nil_iff.mp ht.symm
    exact (List.append_eq_nil_iff.mp hnil.1).2
  rw [hword] at hc
  cases hc

/-! ## Parts of a predicate -/

variable {word t : Text}

/-- A name is a name with a text before it that ends outside quotes, if no word goes on across the
seam. -/
theorem NamedIn.append_left {a : Text} (h : NamedIn word t) (ha : quotingAfter a = .outside)
    (hseam : (∀ c ∈ a.getLast?, isWordChar c = false) ∨ ∀ c ∈ t.head?, isWordChar c = false) :
    NamedIn word (a ++ t) := by
  obtain ⟨before, after, rfl, hname⟩ := h
  refine ⟨a ++ before, after, by simp only [List.append_assoc], ?_, hname.opens, hname.isWord, ?_,
    hname.isBefore⟩
  · rw [quotingAfter_append ha, hname.unquoted]
  · cases before with
    | cons c before =>
      intro d hd
      rw [List.getLast?_append, List.getLast?_cons, Option.some_or] at hd
      exact hname.isBehind d (List.getLast?_cons.trans hd)
    | nil =>
      rw [List.append_nil]
      refine hseam.resolve_right fun hstart => ?_
      -- the word itself would start the text behind the seam
      obtain ⟨c, hc, -⟩ := hname.opens
      obtain ⟨rest, rfl⟩ := List.head?_eq_some_iff.mp hc
      have hno := hstart c rfl
      rw [hname.isWord c List.mem_cons_self] at hno
      cases hno

/-- A name is a name with a text behind it that does not start with a word. -/
theorem NamedIn.append_right {u : Text} (h : NamedIn word t)
    (hu : ∀ c ∈ u.head?, isWordChar c = false) : NamedIn word (t ++ u) := by
  obtain ⟨before, after, rfl, hname⟩ := h
  refine ⟨before, after ++ u, by simp only [List.append_assoc], hname.unquoted, hname.opens,
    hname.isWord, hname.isBehind, ?_⟩
  cases after with
  | nil => exact hu
  | cons c after => exact hname.isBefore

/-! ## Substituting -/

theorem isWordChar_eq_false_of_isQuote {c : Char} (h : isQuote c = true) : isWordChar c = false := by
  cases hc : isWordChar c with
  | false => rfl
  | true =>
    rw [isQuote_eq_false_of_isWordChar hc] at h
    cases h

/-- A quoted run goes on to the end of the text, or it ends with its quote and leads outside. -/
theorem spanQuoted_leads {quote : Char} (hquote : quote ≠ '\\') (t : Text) :
    (spanQuoted quote t).2 = [] ∨
      (spanQuoted quote t).1.foldl Quoting.next (.inside quote) = .outside ∧
        (spanQuoted quote t).1.getLast? = some quote := by
  fun_induction spanQuoted quote t with
  | case1 => exact .inl rfl
  | case2 c t body rest hspan ih =>
    rw [hspan] at ih
    refine ih.imp_right ?_
    rintro ⟨hleads, hlast⟩
    refine ⟨hleads, ?_⟩
    rw [List.getLast?_cons_cons, List.getLast?_cons, hlast]
    rfl
  | case3 t _ =>
    refine .inr ⟨?_, rfl⟩
    simp [Quoting.next, hquote]
  | case4 c t hlone hc body rest hspan ih =>
    rw [hspan] at ih
    by_cases hslash : c = '\\'
    · -- a backslash with nothing behind it
      subst hslash
      cases t with
      | nil =>
        rw [spanQuoted] at hspan
        exact .inl (Prod.mk.inj hspan).2.symm
      | cons d t => exact absurd rfl (hlone d t rfl)
    · refine ih.imp_right ?_
      rintro ⟨hleads, hlast⟩
      constructor
      · rw [List.foldl_cons, Quoting.next, if_neg hslash, if_neg hc, hleads]
      · rw [List.getLast?_cons, hlast]
        rfl

variable {env other : Environment}

theorem replaceWord_congr {c : Char} {word : Text}
    (h : isDigit c = false → env.get? (c :: word) = other.get? (c :: word)) :
    replaceWord env (c :: word) = replaceWord other (c :: word) := by
  by_cases hc : isDigit c = true
  · rw [replaceWord_of_isDigit hc, replaceWord_of_isDigit hc]
  · rw [replaceWord_of_not_isDigit hc, replaceWord_of_not_isDigit hc,
      h (Bool.eq_false_iff.mpr hc)]

/-- **Substituting looks up no word but the names in a text.** -/
theorem substitute_congr (h : ∀ word, NamedIn word t → env.get? word = other.get? word) :
    substitute env t = substitute other t := by
  fun_induction substitute env t with
  | case1 => rw [substitute_nil]
  | case2 c t hquote ih =>
    rw [substitute_of_isQuote hquote, ih]
    · rfl
    · intro word hword
      rcases spanQuoted_leads (ne_backslash_of_isQuote hquote) t with hopen | ⟨hleads, hlast⟩
      · rw [hopen] at hword
        exact absurd hword (not_namedIn_nil word)
      · refine h word ?_
        have hwhole := hword.append_left (a := c :: (spanQuoted c t).1) ?_ (.inl ?_)
        · rwa [List.cons_append, spanQuoted_append] at hwhole
        · rw [quotingAfter, List.foldl_cons, Quoting.next, if_pos hquote, hleads]
        · intro d hd
          rw [List.getLast?_cons, hlast] at hd
          obtain rfl : c = d := Option.some.inj hd
          exact isWordChar_eq_false_of_isQuote hquote
  | case3 c t _ hc ih =>
    have hsplit : c :: t = (c :: t.takeWhile isWordChar) ++ t.dropWhile isWordChar := by
      rw [List.cons_append, List.takeWhile_append_dropWhile]
    have hword := isWordChar_of_mem_word hc t
    have hrest : ∀ d ∈ (t.dropWhile isWordChar).head?, isWordChar d = false :=
      fun d hd => eq_false_of_head?_dropWhile hd
    have hquoting : quotingAfter (c :: t.takeWhile isWordChar) = .outside :=
      quotingAfter_of_not_isQuote fun d hd => isQuote_eq_false_of_isWordChar (hword d hd)
    rw [substitute_of_isWordChar hc, ih]
    · congr 1
      refine replaceWord_congr fun hdigit => h _ ?_
      exact ⟨[], t.dropWhile isWordChar, hsplit, rfl, ⟨c, rfl, hdigit⟩, hword, by simp, hrest⟩
    · intro word hname
      refine h word ?_
      rw [hsplit]
      exact hname.append_left hquoting (.inr hrest)
  | case4 c t hquote hc ih =>
    have hplain : isPlain c = true := by simp [isPlain, hquote, hc]
    rw [substitute_of_isPlain hplain, ih]
    intro word hname
    refine h word (hname.append_left (a := [c]) ?_ (.inl ?_))
    · exact quotingAfter_of_not_isQuote (by simpa using hquote)
    · simpa using hc

/-! ## Deciding -/

/-- A blank is no quote and in no word. -/
theorem isBlank_eq_false_of_isQuote {c : Char} (h : isQuote c = true) : isBlank c = false := by
  simp only [isQuote, Bool.or_eq_true, decide_eq_true_eq] at h
  rcases h with rfl | rfl <;> decide

theorem namedIn_of_trim (h : NamedIn word (trim t)) : NamedIn word t := by
  obtain ⟨lead, trail, ht, hlead, htrail⟩ := exists_trim t
  have hword {c : Char} (hc : isBlank c = true) : isWordChar c = false := by
    cases hw : isWordChar c with
    | false => rfl
    | true =>
      rw [isBlank_eq_false_of_isWordChar hw] at hc
      cases hc
  have hquote {c : Char} (hc : isBlank c = true) : isQuote c = false := by
    cases hq : isQuote c with
    | false => rfl
    | true =>
      rw [isBlank_eq_false_of_isQuote hq] at hc
      cases hc
  rw [ht]
  refine (h.append_left ?_ (.inl fun c hc => ?_)).append_right fun c hc => ?_
  · exact quotingAfter_of_not_isQuote fun c hc => hquote (hlead c hc)
  · exact hword (hlead c (List.mem_of_mem_getLast? hc))
  · exact hword (htrail c (List.mem_of_mem_head? hc))

/-- **A predicate asks for no variable but those it names.** -/
theorem holdsIn_congr (h : ∀ word, NamedIn word t → env.get? word = other.get? word) :
    holdsIn env t = holdsIn other t := by
  rw [holdsIn, substitute_congr fun word hword => h word (namedIn_of_trim hword)]
  rfl

end Predicate

/-! ## Whole sources -/

/-- Only an `if` or an `elif` asks, and it asks its own predicate. -/
theorem Nesting.predicate_of_question? {n : Nesting} {d : Directive} {text : Text}
    (h : n.question? d = some text) :
    (d.tag = .ifTag ∨ d.tag = .elifTag) ∧ d.predicate = some text := by
  unfold question? at h
  split at h
  case h_1 htag => exact ⟨.inl htag, h⟩
  case h_2 htag _ =>
    split at h
    · cases h
    · exact ⟨.inr htag, h⟩
  case h_3 => cases h

/-- **A run asks nothing but the predicates of its directives.** -/
theorem Progress.run_congr {f g : Decider} {items : List Directive.Item}
    (h : ∀ d, .ok d ∈ items → (d.tag = .ifTag ∨ d.tag = .elifTag) →
      ∀ text, d.predicate = some text → f text = g text) (p : Progress) :
    p.run f items = p.run g items := by
  induction items generalizing p with
  | nil => rfl
  | cons item items ih =>
    cases item with
    | error e => rfl
    | ok d =>
      have hafter : p.nesting.after f d = p.nesting.after g d := by
        refine Nesting.after_congr fun text htext => ?_
        obtain ⟨htag, hpredicate⟩ := Nesting.predicate_of_question? htext
        exact h d List.mem_cons_self htag text hpredicate
      have hmore := ih fun d hd => h d (List.mem_cons_of_mem _ hd)
      simp only [run, step, hafter, hmore]

/-- Two environments have the same to say about a source: they agree on every name in the predicate
of an `if` or `elif` of it. A word that is defined in neither is agreed on. -/
def Environment.AgreeOn (env other : Environment) (source : Text) : Prop :=
  ∀ d, .ok d ∈ Directive.items source → (d.tag = .ifTag ∨ d.tag = .elifTag) →
    ∀ text, d.predicate = some text →
      ∀ word, Predicate.NamedIn word text → env.get? word = other.get? word

/-- **Environments that agree on the names in the predicates of a source make the same of it**:
text, offsets and number of bytes removed, or the same error. -/
theorem preprocess_congr {env other : Environment} {source : Text} (h : env.AgreeOn other source) :
    preprocess env source = preprocess other source := by
  have hrun : Progress.start.run (Predicate.holdsIn env) (Directive.items source) =
      Progress.start.run (Predicate.holdsIn other) (Directive.items source) :=
    Progress.run_congr
      (fun d hd htag text htext => Predicate.holdsIn_congr (h d hd htag text htext)) _
  rw [preprocess, preprocess, hrun]

/-- A source with `FAST` in its predicate, in another word and quoted, but not as a name. -/
def quotingSource : Text :=
  "//#if FASTER == \"\\\"FAST\"\nb\n//#endif\n".toList

theorem preprocess_congr_quotingSource :
    let env : Environment := .ofList [("FASTER".toList, "FAST".toList)]
    let other := env.insert "FAST".toList "1".toList
    env ≠ other ∧ env.AgreeOn other quotingSource ∧
      preprocess env quotingSource = preprocess other quotingSource ∧
      preprocess other quotingSource =
        .ok ⟨"//#if FASTER == \"\\\"FAST\"//#endif\n".toList, ⟨[⟨0, 0⟩, ⟨24, 27⟩], 33⟩, 3⟩ := by
  intro env other
  have hitems : Directive.items quotingSource =
      [.ok ⟨.ifTag, some "FASTER == \"\\\"FAST\"".toList, ⟨0, 24⟩⟩,
        .ok ⟨.endifTag, none, ⟨27, 35⟩⟩] := by decide +kernel
  have hunnamed : ¬Predicate.NamedIn "FAST".toList "FASTER == \"\\\"FAST\"".toList := by
    decide +kernel
  have hagree : env.AgreeOn other quotingSource := by
    intro d hd _ text htext word hword
    rw [Table.get?_insert, if_neg]
    rintro rfl
    rw [hitems] at hd
    rcases List.mem_cons.mp hd with hif | hmore
    · obtain rfl := Except.ok.inj hif
      obtain rfl := Option.some.inj htext
      exact hunnamed hword
    · obtain rfl := Except.ok.inj (List.mem_singleton.mp hmore)
      cases htext
  exact ⟨by decide +kernel, hagree, preprocess_congr hagree, by decide +kernel⟩

end ConditionalText
