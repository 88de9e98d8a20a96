import ConditionalText.Files.Tree
import ConditionalText.Proofs.Directive.Lines

/-!
# Paths by their components

What a path leads to is told by its components (`Path.components`), but paths are put together and
taken apart as texts. Here the two are tied: what joining does to the components, and what the
parent and the ancestors of a path have of them.

* `components_join`: joining appends the components.
* `join_joinWith`: joining names that have been put together is joining them one by one.
* `fileName?_join_name`: a name joined to a path is its file name.
* `exists_parted`: the parent of a path has its components but the last one and dots.
* `ofPieces_isPrefix`: an ancestor is an initial part of the path as it is spelled, so that whatever
  is wrong with it is wrong with the path.
-/

namespace ConditionalText.Files

open ConditionalText.Text

/-- A name that a file or directory can have. -/
structure IsName (name : Text) : Prop where
  nonempty : name ≠ []
  noSlash : '/' ∉ name
  noZero : '\x00' ∉ name
  notDot : name ≠ dot
  notDotDot : name ≠ dotDot
  short : byteLength name ≤ FileTree.maxNameBytes

theorem isName_iff {name : Text} :
    IsName name ↔ name ≠ [] ∧ '/' ∉ name ∧ '\x00' ∉ name ∧ name ≠ dot ∧ name ≠ dotDot ∧
      byteLength name ≤ FileTree.maxNameBytes :=
  ⟨fun ⟨h₁, h₂, h₃, h₄, h₅, h₆⟩ => ⟨h₁, h₂, h₃, h₄, h₅, h₆⟩,
    fun ⟨h₁, h₂, h₃, h₄, h₅, h₆⟩ => ⟨h₁, h₂, h₃, h₄, h₅, h₆⟩⟩

instance (name : Text) : Decidable (IsName name) :=
  decidable_of_iff _ isName_iff.symm

/-! ## Pieces -/

/-- Pieces without the separator are found again. -/
theorem pieces_joinWith {separator : Char} {ps : List Text} (hps : ps ≠ [])
    (h : ∀ p ∈ ps, separator ∉ p) : pieces separator (joinWith separator ps) = ps := by
  induction ps with
  | nil => exact absurd rfl hps
  | cons p ps ih =>
    have hp := pieces_of_not_mem (h p List.mem_cons_self)
    cases ps with
    | nil => exact hp
    | cons q ps =>
      change pieces separator (p ++ separator :: joinWith separator (q :: ps)) = _
      rw [pieces_append, hp, ih (List.cons_ne_nil q ps) fun r hr => h r (List.mem_cons_of_mem _ hr)]
      rfl

theorem joinWith_isPrefix (separator : Char) (ps qs : List Text) :
    joinWith separator ps <+: joinWith separator (ps ++ qs) := by
  induction ps with
  | nil => exact List.nil_prefix
  | cons p ps ih =>
    cases ps with
    | nil =>
      cases qs with
      | nil => exact List.prefix_refl _
      | cons q qs => exact List.prefix_append p _
    | cons q ps =>
      change p ++ separator :: joinWith separator (q :: ps) <+:
        p ++ separator :: joinWith separator (q :: ps ++ qs)
      exact (List.prefix_append_right_inj p).mpr (List.cons_prefix_cons.mpr ⟨rfl, ih⟩)

namespace Path

/-- Pieces that count as components, dots among them. -/
def solid (ps : List Text) : List Text :=
  ps.filter fun piece => !piece.isEmpty

theorem solid_append (ps qs : List Text) : solid (ps ++ qs) = solid ps ++ solid qs :=
  List.filter_append ..

theorem components_eq_solid (p : Path) : p.components = solid (pieces '/' p) := rfl

theorem mem_components {p : Path} {c : Text} (h : c ∈ p.components) :
    c ≠ [] ∧ '/' ∉ c := by
  obtain ⟨hpiece, hne⟩ := List.mem_filter.mp h
  exact ⟨by simpa using hne, not_mem_of_mem_pieces hpiece⟩

theorem isAbsolute_cons (c : Char) (p : Path) : isAbsolute (c :: p) = (c == '/') := by
  by_cases hc : c = '/'
  · subst hc
    rfl
  · rw [beq_false_of_ne hc]
    unfold isAbsolute
    split
    · next h => exact absurd (List.cons.inj h).1 hc
    · rfl

/-- The pieces behind the root hold all components. -/
theorem solid_piecesReversed (p : Path) : solid (piecesReversed p).reverse = p.components := by
  unfold piecesReversed
  rw [List.reverse_reverse]
  cases p with
  | nil => rfl
  | cons c p =>
    rw [isAbsolute_cons]
    by_cases hc : c = '/'
    · subst hc
      have hpieces := pieces_append '/' [] p
      rw [List.nil_append] at hpieces
      rw [components_eq_solid, hpieces]
      rfl
    · rw [beq_false_of_ne hc]
      rfl

theorem not_mem_of_mem_piecesReversed {p : Path} {piece : Text} (h : piece ∈ piecesReversed p) :
    '/' ∉ piece :=
  not_mem_of_mem_pieces (List.mem_reverse.mp h)

/-! ## Joining -/

variable {p q : Path} {name : Text}

theorem isAbsolute_of_noSlash (h : '/' ∉ q) : isAbsolute q = false := by
  unfold isAbsolute
  split
  · exact absurd List.mem_cons_self h
  · rfl

theorem isAbsolute_append (hp : p ≠ []) (q : Path) : isAbsolute (p ++ q) = isAbsolute p := by
  cases p with
  | nil => exact absurd rfl hp
  | cons c p => rw [List.cons_append, isAbsolute_cons, isAbsolute_cons]

theorem endsInSlash_iff : endsInSlash p = true ↔ ∃ r, p = r ++ ['/'] := by
  rw [endsInSlash, beq_iff_eq, List.getLast?_eq_some_iff]

/-- A relative path below another one stands behind it or, as it is spelled, behind a slash. -/
theorem join_eq (hp : p ≠ []) (hq : isAbsolute q = false) :
    ∃ r, p.join q = r ++ '/' :: q ∧ (p = r ∨ p = r ++ ['/']) := by
  have hempty : p.isEmpty = false := by simpa using hp
  unfold join
  rw [hq, hempty]
  by_cases hslash : endsInSlash p = true
  · obtain ⟨r, rfl⟩ := endsInSlash_iff.mp hslash
    exact ⟨r, by simp [hslash], .inr rfl⟩
  · exact ⟨p, by simp [hslash], .inl rfl⟩

theorem join_nil_left (q : Path) : join [] q = q := by
  simp [join]

/-- **Joining appends the components.** -/
theorem components_join (p : Path) (hq : isAbsolute q = false) :
    (p.join q).components = p.components ++ q.components := by
  by_cases hp : p = []
  · rw [hp, join_nil_left]
    rfl
  · obtain ⟨r, hjoin, hr⟩ := join_eq hp hq
    rw [hjoin, components_eq_solid, pieces_append, solid_append]
    rcases hr with rfl | rfl
    · rfl
    · rw [components_eq_solid, pieces_append, solid_append]
      exact congrArg (· ++ _) (List.append_nil _).symm

theorem isAbsolute_join (hp : p ≠ []) (hq : isAbsolute q = false) :
    isAbsolute (p.join q) = isAbsolute p := by
  obtain ⟨r, hjoin, hr⟩ := join_eq hp hq
  rw [hjoin]
  rcases hr with rfl | rfl
  · exact isAbsolute_append hp _
  · rw [List.append_cons, isAbsolute_append hp]

theorem components_of_noSlash (hne : name ≠ []) (h : '/' ∉ name) : components name = [name] := by
  have hsolid : name.isEmpty = false := by simpa using hne
  rw [components_eq_solid, pieces_of_not_mem h]
  simp [solid, hsolid]

theorem components_of_isName (h : IsName name) : components name = [name] :=
  components_of_noSlash h.nonempty h.noSlash

theorem isAbsolute_of_isName (h : IsName name) : isAbsolute name = false :=
  isAbsolute_of_noSlash h.noSlash

theorem components_join_name (p : Path) (h : IsName name) :
    (p.join name).components = p.components ++ [name] := by
  rw [components_join p (isAbsolute_of_isName h), components_of_isName h]

theorem join_ne_nil (p : Path) (hq : q ≠ []) : p.join q ≠ [] := by
  unfold join
  split
  · exact hq
  · split
    · simp [hq]
    · simp

theorem endsInSlash_join_name (p : Path) (h : IsName name) : endsInSlash (p.join name) = false := by
  rw [Bool.eq_false_iff]
  intro hslash
  obtain ⟨r, hr⟩ := endsInSlash_iff.mp hslash
  have hlast : (p.join name).getLast? = name.getLast? := by
    unfold join
    split
    · rfl
    · split
      · rw [List.getLast?_append, List.getLast?_eq_some_getLast h.nonempty, Option.some_or]
      · rw [List.getLast?_append, List.getLast?_cons, List.getLast?_eq_some_getLast h.nonempty]
        rfl
  rw [hr, List.getLast?_concat] at hlast
  exact h.noSlash (List.mem_of_getLast? hlast.symm)

theorem join_append_name (p : Path) (h : IsName name) (hq : isAbsolute q = false) :
    p.join (name ++ '/' :: q) = (p.join name).join q := by
  have hbelow : isAbsolute (name ++ '/' :: q) = false := by
    rw [isAbsolute_append h.nonempty, isAbsolute_of_isName h]
  have houter : (p.join name).join q = p.join name ++ '/' :: q := by
    have hempty : (p.join name).isEmpty = false := by simpa using join_ne_nil p h.nonempty
    rw [join, hq, hempty, endsInSlash_join_name p h]
    rfl
  rw [houter, join, join, hbelow, isAbsolute_of_isName h, Bool.false_or]
  split
  · rfl
  · split
    · rw [List.append_assoc]
    · rw [List.append_assoc, List.cons_append]

/-- **Joining names put together is joining them one by one.** -/
theorem join_joinWith (p : Path) {names : List Text} (hnames : names ≠ [])
    (h : ∀ name ∈ names, IsName name) :
    p.join (joinWith '/' names) = names.foldl join p := by
  induction names generalizing p with
  | nil => exact absurd rfl hnames
  | cons name names ih =>
    have hname := h name List.mem_cons_self
    have hmore : ∀ n ∈ names, IsName n := fun n hn => h n (List.mem_cons_of_mem _ hn)
    cases names with
    | nil => rfl
    | cons next names =>
      have hnext := hmore next List.mem_cons_self
      have hrelative : isAbsolute (joinWith '/' (next :: names)) = false := by
        cases names with
        | nil => exact isAbsolute_of_isName hnext
        | cons n names =>
          change isAbsolute (next ++ _) = false
          rw [isAbsolute_append hnext.nonempty, isAbsolute_of_isName hnext]
      change p.join (name ++ '/' :: joinWith '/' (next :: names)) = _
      rw [join_append_name p hname hrelative, ih (p.join name) (List.cons_ne_nil _ _) hmore]
      rfl

theorem foldl_join_concat (p : Path) (names : List Text) (name : Text) :
    (names ++ [name]).foldl join p = (names.foldl join p).join name :=
  List.foldl_append ..

theorem components_foldl_join (p : Path) {names : List Text} (h : ∀ name ∈ names, IsName name) :
    (names.foldl join p).components = p.components ++ names := by
  induction names generalizing p with
  | nil => exact (List.append_nil _).symm
  | cons name names ih =>
    rw [List.foldl_cons, ih _ fun n hn => h n (List.mem_cons_of_mem _ hn),
      components_join_name p (h name List.mem_cons_self), List.append_assoc]
    rfl

theorem isAbsolute_foldl_join (hp : p ≠ []) {names : List Text} (h : ∀ name ∈ names, IsName name) :
    isAbsolute (names.foldl join p) = isAbsolute p := by
  induction names generalizing p with
  | nil => rfl
  | cons name names ih =>
    have hname := h name List.mem_cons_self
    rw [List.foldl_cons, ih (join_ne_nil p hname.nonempty)
      fun n hn => h n (List.mem_cons_of_mem _ hn), isAbsolute_join hp (isAbsolute_of_isName hname)]

theorem foldl_join_ne_nil (hp : p ≠ []) {names : List Text} (h : ∀ name ∈ names, IsName name) :
    names.foldl join p ≠ [] := by
  induction names generalizing p with
  | nil => exact hp
  | cons name names ih =>
    exact ih (join_ne_nil p (h name List.mem_cons_self).nonempty)
      fun n hn => h n (List.mem_cons_of_mem _ hn)

theorem isPrefix_join (p : Path) (hq : isAbsolute q = false) : p <+: p.join q := by
  by_cases hp : p = []
  · rw [hp]
    exact List.nil_prefix
  · obtain ⟨r, hjoin, rfl | rfl⟩ := join_eq hp hq
    · exact ⟨'/' :: q, hjoin.symm⟩
    · exact ⟨q, by rw [hjoin, List.append_assoc]; rfl⟩

theorem isPrefix_foldl_join (p : Path) {names : List Text} (h : ∀ name ∈ names, IsName name) :
    p <+: names.foldl join p := by
  induction names generalizing p with
  | nil => exact List.prefix_refl p
  | cons name names ih =>
    have hname := isAbsolute_of_isName (h name List.mem_cons_self)
    exact (isPrefix_join p hname).trans (ih _ fun n hn => h n (List.mem_cons_of_mem _ hn))

theorem not_mem_join {c : Char} (hc : c ≠ '/') (hp : c ∉ p) (hq : c ∉ q) : c ∉ p.join q := by
  unfold join
  split
  · exact hq
  · split
    · simp [hp, hq]
    · simp [hp, hq, hc]

theorem not_mem_foldl_join (hp : '\x00' ∉ p) {names : List Text} (h : ∀ name ∈ names, IsName name) :
    '\x00' ∉ names.foldl join p := by
  induction names generalizing p with
  | nil => exact hp
  | cons name names ih =>
    exact ih (not_mem_join (by decide) hp (h name List.mem_cons_self).noZero)
      fun n hn => h n (List.mem_cons_of_mem _ hn)

/-! ## The last component -/

theorem counts_of_isName (h : IsName name) (absolute : Bool) (before : List Text) :
    counts absolute name before = true := by
  have hne : name.isEmpty = false := by simpa using h.nonempty
  have hdot : (name != dot) = true := by simpa using h.notDot
  rw [counts, hne, hdot]
  rfl

theorem trimPieces_isSuffix (absolute : Bool) (ps : List Text) : trimPieces absolute ps <:+ ps := by
  induction ps with
  | nil => exact List.suffix_refl _
  | cons piece before ih =>
    rw [trimPieces]
    split
    · exact List.suffix_refl _
    · exact ih.trans (List.suffix_cons piece before)

/-- What is left ends in a piece that counts. -/
theorem counts_of_trimPieces {absolute : Bool} {ps before : List Text} {piece : Text}
    (h : trimPieces absolute ps = piece :: before) : counts absolute piece before = true := by
  induction ps with
  | nil => cases h
  | cons first rest ih =>
    rw [trimPieces] at h
    split at h
    · next hcounts =>
      cases h
      exact hcounts
    · exact ih h

theorem solid_singleton_of_counts {absolute : Bool} {piece : Text} {before : List Text}
    (h : counts absolute piece before = true) : solid [piece] = [piece] := by
  simp [solid, (Bool.and_eq_true_iff.mp h).1]

/-- A dot counts only at the start. -/
theorem eq_nil_of_counts_dot {absolute : Bool} {before : List Text}
    (h : counts absolute dot before = true) : before = [] := by
  have hstart := (Bool.and_eq_true_iff.mp h).2
  exact And.left (by simpa using hstart)

/-- The pieces that do not count hold nothing but dots. -/
theorem solid_reverse_eq (absolute : Bool) (ps : List Text) :
    ∃ dots, solid ps.reverse = solid (trimPieces absolute ps).reverse ++ dots ∧
      ∀ d ∈ dots, d = dot := by
  induction ps with
  | nil => exact ⟨[], rfl, by simp⟩
  | cons piece before ih =>
    rw [trimPieces]
    split
    · exact ⟨[], (List.append_nil _).symm, by simp⟩
    · next hcounts =>
      obtain ⟨dots, hdots, hall⟩ := ih
      refine ⟨dots ++ solid [piece], ?_, fun d hd => ?_⟩
      · rw [List.reverse_cons, solid_append, hdots, List.append_assoc]
      · rcases List.mem_append.mp hd with hd | hd
        · exact hall d hd
        · -- it does not count although it is not empty
          obtain ⟨hmem, hsolid⟩ := List.mem_filter.mp hd
          obtain rfl := List.mem_singleton.mp hmem
          by_cases hdot : d = dot
          · exact hdot
          · have hne : (d != dot) = true := by simpa using hdot
            exact absurd (by rw [counts, hsolid, hne]; rfl) hcounts

/-- What stands before a name at the end of a path. -/
theorem piecesReversed_join_name (p : Path) (h : IsName name) :
    ∃ before, piecesReversed (p.join name) = name :: before ∧
      solid before.reverse = p.components := by
  have hpieces : ∃ init, pieces '/' (if isAbsolute (p.join name) then (p.join name).tail
      else p.join name) = init ++ [name] := by
    by_cases hp : p = []
    · rw [hp, join_nil_left, isAbsolute_of_isName h]
      exact ⟨[], pieces_of_not_mem h.noSlash⟩
    · obtain ⟨r, hjoin, -⟩ := join_eq hp (isAbsolute_of_isName h)
      rw [hjoin]
      cases r with
      | nil => exact ⟨[], pieces_of_not_mem h.noSlash⟩
      | cons c r =>
        split
        · rw [List.cons_append, List.tail_cons, pieces_append, pieces_of_not_mem h.noSlash]
          exact ⟨_, rfl⟩
        · rw [pieces_append, pieces_of_not_mem h.noSlash]
          exact ⟨_, rfl⟩
  obtain ⟨init, hinit⟩ := hpieces
  refine ⟨init.reverse, by rw [piecesReversed, hinit, List.reverse_concat], ?_⟩
  have hcomponents := solid_piecesReversed (p.join name)
  rw [piecesReversed, List.reverse_reverse, hinit, solid_append, components_join_name p h]
    at hcomponents
  have hname : solid [name] = [name] := by
    have hne : name.isEmpty = false := by simpa using h.nonempty
    simp [solid, hne]
  rw [hname] at hcomponents
  rw [List.reverse_reverse]
  exact List.append_cancel_right hcomponents

theorem splitLast?_join_name (p : Path) (h : IsName name) :
    ∃ before, splitLast? (p.join name) = some (name, before) ∧
      (name :: before) = piecesReversed (p.join name) ∧ solid before.reverse = p.components := by
  obtain ⟨before, hpieces, hsolid⟩ := piecesReversed_join_name p h
  refine ⟨before, ?_, hpieces.symm, hsolid⟩
  rw [splitLast?, hpieces, trimPieces, if_pos (counts_of_isName h _ _)]

/-- **A name joined to a path is its file name.** -/
theorem fileName?_join_name (p : Path) (h : IsName name) : fileName? (p.join name) = some name := by
  obtain ⟨before, hsplit, -, -⟩ := splitLast?_join_name p h
  have hdot : (name == dot) = false := by simpa using h.notDot
  have hdotDot : (name == dotDot) = false := by simpa using h.notDotDot
  rw [fileName?, hsplit]
  simp [hdot, hdotDot]

theorem extension?_join_name (p : Path) (h : IsName name) :
    extension? (p.join name) = extension? name := by
  have hname : fileName? name = some name := by
    have := fileName?_join_name [] h
    rwa [join_nil_left] at this
  rw [extension?, extension?, fileName?_join_name p h, hname]

/-! ## Ancestors -/

theorem components_ofPieces (absolute : Bool) {ps : List Text} (h : ∀ piece ∈ ps, '/' ∉ piece) :
    (ofPieces absolute ps).components = solid ps.reverse := by
  have hjoined : components (joinWith '/' ps.reverse) = solid ps.reverse := by
    cases hps : ps.reverse with
    | nil => rfl
    | cons piece more =>
      rw [components_eq_solid, ← hps, pieces_joinWith (by simp [hps])
        fun q hq => h q (List.mem_reverse.mp hq)]
  cases absolute with
  | false => exact hjoined
  | true =>
    have hslash := pieces_append '/' [] (joinWith '/' ps.reverse)
    change solid (pieces '/' ([] ++ '/' :: joinWith '/' ps.reverse)) = _
    rw [hslash, solid_append]
    exact hjoined

/-- **An ancestor is an initial part of the path.** -/
theorem ofPieces_isPrefix {ps : List Text} (h : ps <:+ piecesReversed p) :
    ofPieces (isAbsolute p) ps <+: p := by
  have hpieces : ps.reverse <+: pieces '/' (if isAbsolute p then p.tail else p) := by
    have := List.reverse_prefix.mpr h
    rwa [piecesReversed, List.reverse_reverse] at this
  obtain ⟨more, hmore⟩ := hpieces
  have hjoined : joinWith '/' ps.reverse <+: if isAbsolute p then p.tail else p := by
    have := joinWith_isPrefix '/' ps.reverse more
    rwa [hmore, joinWith_pieces] at this
  unfold ofPieces
  cases habsolute : isAbsolute p with
  | false =>
    rw [habsolute] at hjoined
    exact hjoined
  | true =>
    rw [habsolute] at hjoined
    cases p with
    | nil => cases habsolute
    | cons c p =>
      have hc : c = '/' := by simpa [isAbsolute_cons] using habsolute
      rw [hc]
      exact List.cons_prefix_cons.mpr ⟨rfl, hjoined⟩

theorem isAbsolute_ofPieces {ps : List Text} (h : ps <:+ piecesReversed p) :
    isAbsolute (ofPieces (isAbsolute p) ps) = isAbsolute p := by
  obtain ⟨more, hmore⟩ := ofPieces_isPrefix h
  by_cases hnil : ofPieces (isAbsolute p) ps = []
  · rw [hnil]
    cases habsolute : isAbsolute p with
    | false => rfl
    | true =>
      rw [habsolute] at hnil
      cases hnil
  · rw [← isAbsolute_append hnil more, hmore]

theorem exists_pieces_of_mem_ancestorsOf {absolute : Bool} {ps : List Text} {a : Path}
    (h : a ∈ ancestorsOf absolute ps) : ∃ qs, qs <:+ ps ∧ a = ofPieces absolute qs := by
  induction ps with
  | nil => cases h
  | cons piece before ih =>
    have hbefore : a ∈ ancestorsOf absolute before →
        ∃ qs, qs <:+ piece :: before ∧ a = ofPieces absolute qs := fun hmem =>
      (ih hmem).imp fun _ hqs => ⟨hqs.1.trans (List.suffix_cons piece before), hqs.2⟩
    rw [ancestorsOf] at h
    split at h
    · rcases List.mem_cons.mp h with rfl | hmem
      · exact ⟨piece :: before, List.suffix_refl _, rfl⟩
      · exact hbefore hmem
    · exact hbefore h

/-- **The ancestors of a path stand on the way to it**: they start where it starts, and their
components are the first of its own. -/
theorem components_of_mem_ancestors {a : Path} (h : a ∈ p.ancestors) :
    a.components <+: p.components ∧ a.isAbsolute = p.isAbsolute := by
  unfold ancestors at h
  split at h
  · cases h
  rcases List.mem_cons.mp h with rfl | hmem
  · exact ⟨List.prefix_refl _, rfl⟩
  · unfold splitLast? at hmem
    split at hmem
    · cases hmem
    next last before htrim =>
    obtain ⟨qs, hqs, rfl⟩ := exists_pieces_of_mem_ancestorsOf hmem
    have hsuffix : qs <:+ piecesReversed p :=
      hqs.trans <| (List.suffix_cons last before).trans (htrim ▸ trimPieces_isSuffix _ _)
    refine ⟨?_, isAbsolute_ofPieces hsuffix⟩
    rw [components_ofPieces _ fun piece hpiece =>
        not_mem_of_mem_piecesReversed (hsuffix.subset hpiece), ← solid_piecesReversed p]
    exact (List.reverse_prefix.mpr hsuffix).filter _

/-! ## Parents -/

/-- A path and its parent: behind the parent there are dots, the last component and dots again. -/
structure Parted (p parent : Path) (gap : List Text) (last : Text) (behind : List Text) : Prop where
  components : p.components = parent.components ++ gap ++ last :: behind
  gapDots : ∀ d ∈ gap, d = dot
  behindDots : ∀ d ∈ behind, d = dot
  isPrefix : parent <+: p
  isAbsolute : parent.isAbsolute = p.isAbsolute
  /-- A dot is the last component of a path only if it is the only one. -/
  start : last = dot → parent.components = [] ∧ gap = []
  /-- The parent does not end in a dot that could be left out. -/
  trimmed : parent.components.getLast? = some dot → parent.components = [dot]
  fileName : p.fileName? = if last == dot || last == dotDot then none else some last

theorem exists_parted {parent : Path} (h : p.parent? = some parent) :
    ∃ gap last behind, Parted p parent gap last behind := by
  cases hpieces : trimPieces p.isAbsolute p.piecesReversed with
  | nil => simp [parent?, splitLast?, hpieces] at h
  | cons last before =>
    have hsplit : splitLast? p = some (last, before) := by rw [splitLast?, hpieces]
    rw [parent?, hsplit] at h
    cases h
    have hcounts := counts_of_trimPieces hpieces
    have hbefore : last :: before <:+ p.piecesReversed := hpieces ▸ trimPieces_isSuffix _ _
    have hparent : trimPieces p.isAbsolute before <:+ p.piecesReversed :=
      (trimPieces_isSuffix _ before).trans ((List.suffix_cons last before).trans hbefore)
    have hcomponents : (ofPieces p.isAbsolute (trimPieces p.isAbsolute before)).components =
        solid (trimPieces p.isAbsolute before).reverse :=
      components_ofPieces _ fun piece hpiece =>
        not_mem_of_mem_piecesReversed (hparent.subset hpiece)
    obtain ⟨behind, hall, hbehind⟩ := solid_reverse_eq p.isAbsolute p.piecesReversed
    obtain ⟨gap, hrest, hgap⟩ := solid_reverse_eq p.isAbsolute before
    refine ⟨gap, last, behind, ?_, hgap, hbehind, ofPieces_isPrefix hparent,
      isAbsolute_ofPieces hparent, ?_, ?_, ?_⟩
    · rw [hcomponents, ← solid_piecesReversed p, hall, hpieces, List.reverse_cons, solid_append,
        solid_singleton_of_counts hcounts, hrest, List.append_assoc, List.append_assoc,
        List.append_assoc]
      rfl
    · rintro rfl
      obtain rfl := eq_nil_of_counts_dot hcounts
      rw [hcomponents]
      exact ⟨rfl, List.append_eq_nil_iff.mp hrest.symm |>.2⟩
    · rw [hcomponents]
      intro hlast
      cases htrim : trimPieces p.isAbsolute before with
      | nil =>
        rw [htrim] at hlast
        cases hlast
      | cons piece more =>
        have hpiece := counts_of_trimPieces htrim
        rw [htrim, List.reverse_cons, solid_append, solid_singleton_of_counts hpiece,
          List.getLast?_concat] at hlast
        cases hlast
        obtain rfl := eq_nil_of_counts_dot hpiece
        rfl
    · rw [fileName?, hsplit]

/-- A path with a file name has a parent. -/
theorem exists_parted_of_fileName? (h : p.fileName? = some name) :
    ∃ parent gap behind, p.parent? = some parent ∧ Parted p parent gap name behind ∧
      name ≠ dot ∧ name ≠ dotDot := by
  cases hsplit : splitLast? p with
  | none => simp [fileName?, hsplit] at h
  | some r =>
    have hparent : p.parent? = some (ofPieces p.isAbsolute (trimPieces p.isAbsolute r.2)) := by
      rw [parent?, hsplit]
      rfl
    obtain ⟨gap, last, behind, hparted⟩ := exists_parted hparent
    have hlast := hparted.fileName
    rw [h] at hlast
    split at hlast
    · cases hlast
    · next hname =>
      cases hlast
      rw [Bool.or_eq_true, not_or, beq_iff_eq, beq_iff_eq] at hname
      exact ⟨_, gap, behind, hparent, hparted, hname.1, hname.2⟩

theorem mem_components_of_fileName? (h : p.fileName? = some name) : name ∈ p.components := by
  obtain ⟨parent, gap, behind, -, hparted, -, -⟩ := exists_parted_of_fileName? h
  rw [hparted.components]
  simp

theorem not_mem_of_fileName? (h : p.fileName? = some name) : '/' ∉ name :=
  (mem_components (mem_components_of_fileName? h)).2

/-- A component that is no dots, however long it is. -/
structure IsPlain (name : Text) : Prop where
  nonempty : name ≠ []
  noSlash : '/' ∉ name
  notDot : name ≠ dot
  notDotDot : name ≠ dotDot

theorem IsPlain.components_join (h : IsPlain name) (p : Path) :
    (p.join name).components = p.components ++ [name] := by
  rw [Path.components_join p (isAbsolute_of_noSlash h.noSlash),
    components_of_noSlash h.nonempty h.noSlash]

theorem IsPlain.isAbsolute_join (h : IsPlain name) (p : Path) :
    (p.join name).isAbsolute = p.isAbsolute := by
  have hrelative := isAbsolute_of_noSlash h.noSlash
  by_cases hp : p = []
  · rw [hp, join_nil_left, hrelative]
    rfl
  · exact Path.isAbsolute_join hp hrelative

/-- The map of an output is named after it. -/
theorem isPlain_mapName (h : p.fileName? = some name) : IsPlain (name ++ ".map".toList) := by
  have hlast : (name ++ ".map".toList).getLast? = some 'p' := by
    rw [List.getLast?_append]
    rfl
  refine ⟨by simp, ?_, fun hdot => ?_, fun hdotDot => ?_⟩
  · rw [List.mem_append, not_or]
    exact ⟨not_mem_of_fileName? h, by decide⟩
  · rw [hdot] at hlast
    exact absurd hlast (by decide)
  · rw [hdotDot] at hlast
    exact absurd hlast (by decide)

theorem withFileName_eq {parent : Path} (hname : p.fileName? = some name)
    (hparent : p.parent? = some parent) (other : Text) :
    p.withFileName other = parent.join other := by
  rw [withFileName, hname, hparent]
  rfl

/-- Only dots have no parent. -/
theorem components_of_parent?_eq_none (h : p.parent? = none) : ∀ c ∈ p.components, c = dot := by
  cases hpieces : trimPieces p.isAbsolute p.piecesReversed with
  | cons last before => simp [parent?, splitLast?, hpieces] at h
  | nil =>
    obtain ⟨dots, hall, hdots⟩ := solid_reverse_eq p.isAbsolute p.piecesReversed
    rw [solid_piecesReversed, hpieces] at hall
    rw [hall]
    exact hdots

/-- A path that ends in a name has that as its file name. -/
theorem fileName?_of_getLast?_components (h : p.components.getLast? = some name) (hdot : name ≠ dot)
    (hdotDot : name ≠ dotDot) : p.fileName? = some name := by
  cases hparent : p.parent? with
  | none => exact absurd (components_of_parent?_eq_none hparent name (List.mem_of_getLast? h)) hdot
  | some parent =>
    obtain ⟨gap, last, behind, hparted⟩ := exists_parted hparent
    rw [hparted.components, List.getLast?_append, List.getLast?_cons, Option.some_or] at h
    cases hlast : behind.getLast? with
    | none =>
      rw [hlast] at h
      obtain rfl : last = name := Option.some.inj h
      rw [hparted.fileName, if_neg (by simp [hdot, hdotDot])]
    | some d =>
      -- behind the last component there are dots only
      rw [hlast] at h
      obtain rfl : d = name := Option.some.inj h
      exact absurd (hparted.behindDots d (List.mem_of_getLast? hlast)) hdot

end Path

end ConditionalText.Files
