import ConditionalText.Proofs.Files.Writing

/-!
# Walking a directory

A walk visits the names of a directory one after another (`walkFrom_succ`), goes into directories and
preprocesses files. Whatever it does it does to the output directory: it writes below it and creates
directories on the way. It ends at a directory that cannot be resolved, and what it has done so far
stays.

* `visit_directory`: a directory is walked, unless it cannot be resolved or is the output directory.
* `Kept.walkFrom`: **what every preprocessed file keeps, a walk keeps, also one that fails.**
* `walkFrom_writes`: what a walk writes.
* `walkFrom_fuel`: the depth of the tree is enough, since directories that the walk could enter are
  never created deeper than those it has entered.
* `exec_processDirectory`: preprocessing a directory step by step.
-/

namespace ConditionalText.Files

open ConditionalText.Text

namespace Setup

variable {s : Setup} {w : Walk} {t t' : FileTree} {source output : Path} {src q : Place}
  {below : List Text} {name : Text}

/-! ## Step by step -/

/-- Work that has come to a summary and a tree without failing. -/
def arrived (st : Summary × FileTree) : Except FileError Summary × FileTree :=
  (.ok st.1, st.2)

@[simp] theorem arrived_snd (st : Summary × FileTree) : (arrived st).2 = st.2 := rfl

/-- Notes what came of one more file. -/
def note (action : Action Summary) (st : Summary × FileTree) : Summary × FileTree :=
  match action.exec st.2 with
  | (.ok more, t) => (st.1.merge more, t)
  | (.error e, t) => (st.1.addError e.message, t)

@[simp] theorem note_snd (action : Action Summary) (st : Summary × FileTree) :
    (note action st).2 = (action.exec st.2).2 := by
  rw [note]
  rcases action.exec st.2 with ⟨e | more, t⟩
  · rfl
  · rfl

theorem exec_record (action : Action Summary) (st : Summary × FileTree) :
    (record action st.1).exec st.2 = arrived (note action st) := by
  rw [record, Action.exec_tryCatch, Action.exec_bind, note]
  rcases action.exec st.2 with ⟨e | more, t⟩
  · rfl
  · rfl

/-- A walk from a summary and a tree. -/
def walkFrom (s : Setup) (w : Walk) (fuel : Nat) (dir : Path) (place : Place) (below : List Text)
    (st : Summary × FileTree) : Except FileError Summary × FileTree :=
  (s.walk w fuel dir place below st.1).exec st.2

/-- What a walk does with a name in a directory. -/
def visit (s : Setup) (w : Walk) (fuel : Nat) (dir : Path) (below : List Text)
    (st : Summary × FileTree) (name : Text) : Except FileError Summary × FileTree :=
  if st.2.isDirectory (dir.join name) then
    match st.2.resolve (dir.join name) with
    | .error e => (.error (.os e), st.2)
    | .ok here =>
      if here = w.place then arrived st
      else s.walkFrom w fuel (dir.join name) here (below ++ [name]) st
  else if s.config.picks (dir.join name) then
    arrived (note (s.processFile (dir.join name) (s.outputPath w below name)) st)
  else arrived st

/-- What a walk does with some names in a directory, up to the first that ends it. -/
def visitAll (s : Setup) (w : Walk) (fuel : Nat) (dir : Path) (below : List Text) :
    List Text → Summary × FileTree → Except FileError Summary × FileTree
  | [], st => arrived st
  | name :: names, st =>
    match s.visit w fuel dir below st name with
    | (.ok summary, t) => s.visitAll w fuel dir below names (summary, t)
    | (.error e, t) => (.error e, t)

/-- **A walk visits the names of a directory one after another.** -/
theorem walkFrom_succ (fuel : Nat) (dir : Path) (place : Place) (below : List Text)
    (st : Summary × FileTree) :
    s.walkFrom w (fuel + 1) dir place below st =
      s.visitAll w fuel dir below (st.2.names place) st := by
  rw [walkFrom, walk, Action.exec_bind, Action.exec_get]
  simp only
  generalize st.2.names place = names
  induction names generalizing st with
  | nil => rfl
  | cons name names ih =>
    have hvisit : (do
        if (← get).isDirectory (dir.join name) then
          let here ← Action.resolve (dir.join name)
          if here = w.place then return st.1
          else s.walk w fuel (dir.join name) here (below ++ [name]) st.1
        else if s.config.picks (dir.join name) then
          record (s.processFile (dir.join name) (s.outputPath w below name)) st.1
        else return st.1 : Action Summary).exec st.2 = s.visit w fuel dir below st name := by
      rw [Action.exec_bind, Action.exec_get, visit]
      simp only
      split
      · rw [Action.exec_bind, Action.exec_resolve]
        cases st.2.resolve (dir.join name) with
        | error e => rfl
        | ok here =>
          simp only
          split
          · rfl
          · rfl
      · split
        · exact exec_record _ st
        · rfl
    rw [List.foldlM_cons, Action.exec_bind, visitAll, hvisit]
    rcases s.visit w fuel dir below st name with ⟨e | summary, t⟩
    · rfl
    · exact ih (summary, t)

/-! ## Outputs -/

/-- What an output keeps of the names that lead to its source. -/
def kept (s : Setup) (below : List Text) : List Text :=
  if s.config.keepStructure then below else []

theorem mem_of_mem_kept {c : Text} (h : c ∈ s.kept below) : c ∈ below := by
  unfold kept at h
  split at h
  · exact h
  · cases h

theorem length_kept_le (s : Setup) (below : List Text) : (s.kept below).length ≤ below.length := by
  unfold kept
  split
  · exact Nat.le_refl _
  · exact Nat.zero_le _

theorem isName_of_mem_concat (hbelow : ∀ c ∈ below, IsName c) (hname : IsName name) :
    ∀ c ∈ below ++ [name], IsName c := by
  intro c hc
  rcases List.mem_append.mp hc with hc | hc
  · exact hbelow c hc
  · rw [List.mem_singleton.mp hc]
    exact hname

/-- An output is joined name by name. -/
theorem outputPath_eq (hbelow : ∀ c ∈ below, IsName c) (hname : IsName name) :
    s.outputPath w below name = ((s.kept below).foldl Path.join w.output).join name := by
  rw [outputPath, kept]
  split
  · rw [Path.join_joinWith w.output (by simp) (isName_of_mem_concat hbelow hname),
      List.foldl_concat]
  · rfl

theorem components_outputPath (hbelow : ∀ c ∈ below, IsName c) (hname : IsName name) :
    (s.outputPath w below name).components = w.output.components ++ (s.kept below ++ [name]) := by
  have hkept : ∀ c ∈ s.kept below, IsName c := fun c hc => hbelow c (mem_of_mem_kept hc)
  rw [outputPath_eq hbelow hname, Path.components_join_name _ hname,
    Path.components_foldl_join _ hkept, List.append_assoc]

/-- The source and the output directory of a walk are there. -/
structure Underway (t : FileTree) (source : Path) (src : Place) (w : Walk) : Prop where
  wellFormed : t.WellFormed
  source : t.Leads source src
  output : t.Leads w.output w.place

variable {files dirs : Place → Prop}

theorem Underway.of_writes (h : Underway t source src w) (hwrites : t.Writes files dirs t') :
    Underway t' source src w where
  wellFormed := hwrites.wellFormed
  source := h.source.mono (fun _ => hwrites.directory) hwrites.current
  output := h.output.mono (fun _ => hwrites.directory) hwrites.current

section Outputs

variable (h : Underway t source src w) (hbelow : ∀ c ∈ below, IsName c) (hname : IsName name)
include h hbelow hname

theorem Underway.origin_outputPath : t.origin (s.outputPath w below name) = t.origin w.output := by
  have hkept : ∀ c ∈ s.kept below, IsName c := fun c hc => hbelow c (mem_of_mem_kept hc)
  rw [outputPath_eq hbelow hname]
  refine FileTree.origin_of_isAbsolute ?_
  rw [Path.isAbsolute_join (Path.foldl_join_ne_nil h.output.nonempty hkept)
    (Path.isAbsolute_of_isName hname), Path.isAbsolute_foldl_join h.output.nonempty hkept]

/-- An output goes up again only where its directory is. -/
theorem Underway.forward_outputPath :
    t.Forward (t.origin (s.outputPath w below name)) (s.outputPath w below name).components := by
  refine ⟨w.output.components, s.kept below ++ [name], w.place,
    components_outputPath hbelow hname, ?_, h.output.directory, fun hmem => ?_⟩
  · rw [h.origin_outputPath hbelow hname]
    exact h.output.descend
  · rcases List.mem_append.mp hmem with hmem | hmem
    · exact (hbelow _ (mem_of_mem_kept hmem)).notDotDot rfl
    · exact hname.notDotDot (List.mem_singleton.mp hmem).symm

theorem Underway.target_outputPath :
    t.target (s.outputPath w below name) = w.place ++ s.kept below ++ [name] := by
  have hnames : ∀ c ∈ s.kept below ++ [name], IsName c :=
    isName_of_mem_concat (fun c hc => hbelow c (mem_of_mem_kept hc)) hname
  rw [FileTree.target, h.origin_outputPath hbelow hname, components_outputPath hbelow hname,
    List.foldl_append, ← (FileTree.eq_of_descend h.output.descend).1,
    FileTree.foldl_follow_of_isName _ hnames, List.append_assoc]

theorem Underway.parted_outputPath :
    ∃ parent gap behind, (s.outputPath w below name).parent? = some parent ∧
      Path.Parted (s.outputPath w below name) parent gap name behind ∧
      t.target parent = w.place ++ s.kept below := by
  have hfileName : (s.outputPath w below name).fileName? = some name := by
    rw [outputPath_eq hbelow hname]
    exact Path.fileName?_join_name _ hname
  obtain ⟨parent, gap, behind, hparent, hparted, -, -⟩ := Path.exists_parted_of_fileName? hfileName
  have htarget := FileTree.target_of_parted (t := t) hparted
  rw [h.target_outputPath hbelow hname, FileTree.follow_of_isName _ hname] at htarget
  exact ⟨parent, gap, behind, hparent, hparted, (List.append_cancel_right htarget).symm⟩

theorem Underway.target_parent_outputPath {parent : Path}
    (hparent : (s.outputPath w below name).parent? = some parent) :
    t.target parent = w.place ++ s.kept below := by
  obtain ⟨parent', -, -, hparent', -, htarget⟩ := h.parted_outputPath (s := s) hbelow hname
  rw [hparent] at hparent'
  cases hparent'
  exact htarget

/-- Every output stands in the directory that is kept. -/
theorem Underway.target_of_mem_outputPaths {p : Path}
    (hp : p ∈ s.outputPaths (s.outputPath w below name)) :
    ∃ last, t.target p = w.place ++ s.kept below ++ [last] := by
  obtain ⟨parent, gap, behind, hparent, hparted, htarget⟩ := h.parted_outputPath hbelow hname
  have hself := h.target_outputPath (s := s) hbelow hname
  have hfileName : (s.outputPath w below name).fileName? = some name := by
    rw [outputPath_eq hbelow hname]
    exact Path.fileName?_join_name _ hname
  unfold outputPaths at hp
  rw [hfileName] at hp
  split at hp
  · rcases List.mem_cons.mp hp with rfl | hp
    · refine ⟨name ++ ".map".toList, ?_⟩
      rw [Path.withFileName_eq hfileName hparent,
        FileTree.target_join (Path.isPlain_mapName hfileName), htarget]
    · rw [List.mem_singleton.mp hp]
      exact ⟨name, hself⟩
  · rw [List.mem_singleton.mp hp]
    exact ⟨name, hself⟩

/-- What a file of a walk writes. -/
theorem Underway.processFile_writes (p : Path) :
    t.Writes (fun q => ∃ last, q = w.place ++ s.kept below ++ [last])
      (· <+: w.place ++ s.kept below)
      ((s.processFile p (s.outputPath w below name)).exec t).2 := by
  refine (Setup.processFile_writes h.wellFormed (h.forward_outputPath hbelow hname)).mono ?_ ?_
  · rintro q ⟨p, hp, rfl⟩
    exact h.target_of_mem_outputPaths hbelow hname hp
  · rintro q ⟨parent, hparent, hq⟩
    rwa [h.target_parent_outputPath hbelow hname hparent] at hq

end Outputs

/-! ## Whole walks -/

/-- Where a walk may go: not into an output directory below its source. -/
def Walkable (src : Place) (w : Walk) (place : Place) : Prop :=
  src <+: place ∧ (w.place <+: place → w.place <+: src)

theorem Walkable.concat {place : Place} (h : Walkable src w place)
    (hne : place ++ [name] ≠ w.place) :
    Walkable src w (place ++ [name]) := by
  refine ⟨h.1.trans (List.prefix_append _ _), fun hplace => h.2 ?_⟩
  rcases List.prefix_concat_iff.mp hplace with heq | hplace
  · exact absurd heq.symm hne
  · exact hplace

section Induction

/-- What is needed to show that a walk keeps something: the directories are there, and every
preprocessed file keeps it. -/
structure Kept (s : Setup) (source : Path) (src : Place) (w : Walk) (Inv : FileTree → Prop) :
    Prop where
  underway : ∀ u, Inv u → Underway u source src w
  file : ∀ u below name, Inv u → (∀ c ∈ below, IsName c) → IsName name →
    Walkable src w (src ++ below) → u.node? (src ++ below) = some .directory →
    Inv ((s.processFile ((below.foldl Path.join source).join name)
      (s.outputPath w below name)).exec u).2

/-- Where a walk is: in a directory that it may enter. -/
structure Within (src : Place) (w : Walk) (below : List Text) (t : FileTree) : Prop where
  names : ∀ c ∈ below, IsName c
  walkable : Walkable src w (src ++ below)
  directory : t.node? (src ++ below) = some .directory

theorem Within.of_writes (h : Within src w below t) (hwrites : t.Writes files dirs t') :
    Within src w below t' :=
  ⟨h.names, h.walkable, hwrites.directory h.directory⟩

section Directory

variable {fuel : Nat} {st : Summary × FileTree} (hunder : Underway st.2 source src w)
  (hwithin : Within src w below st.2) (hname : IsName name)
  (hdirectory : st.2.isDirectory ((below.foldl Path.join source).join name) = true)
include hunder hwithin hname hdirectory

/-- The walk may go on in a directory, unless it is the output directory. -/
theorem Within.concat (hne : src ++ (below ++ [name]) ≠ w.place) :
    Within src w (below ++ [name]) st.2 where
  names := isName_of_mem_concat hwithin.names hname
  walkable := by
    rw [← List.append_assoc] at hne ⊢
    exact hwithin.walkable.concat hne
  directory := by
    have hleads := hunder.source.foldl_join hunder.wellFormed hwithin.directory
    rw [← List.append_assoc]
    exact ((hleads.isDirectory_join hname).mp hdirectory).2

/-- **A directory is walked**, unless it cannot be resolved or is the output directory. -/
theorem visit_directory :
    s.visit w fuel (below.foldl Path.join source) below st name =
      if st.2.resolvable ((below ++ [name]).foldl Path.join source) then
        if src ++ (below ++ [name]) = w.place then arrived st
        else s.walkFrom w fuel ((below ++ [name]).foldl Path.join source) (src ++ (below ++ [name]))
          (below ++ [name]) st
      else (.error (.os .nameTooLong), st.2) := by
  have hleads := hunder.source.foldl_join hunder.wellFormed hwithin.directory
  rw [visit, if_pos hdirectory, FileTree.resolve_of_locate (hleads.locate_join hname hdirectory),
    Path.foldl_join_concat, List.append_assoc]
  split
  · next e hresolve =>
    split at hresolve
    · cases hresolve
    · next hlong =>
      cases hresolve
      rw [if_neg hlong]
  · next here hresolve =>
    split at hresolve
    · next hshort =>
      cases hresolve
      rw [if_pos hshort]
    · cases hresolve

end Directory

variable {Inv : FileTree → Prop} (hkept : Kept s source src w Inv)
include hkept

theorem Kept.visit {fuel : Nat} {st : Summary × FileTree} (hst : Inv st.2)
    (hwithin : Within src w below st.2) (hname : IsName name)
    (hwalk : ∀ below st, Inv st.2 → Within src w below st.2 →
      Inv (s.walkFrom w fuel (below.foldl Path.join source) (src ++ below) below st).2 ∧
        st.2.Writes (fun _ => True) (fun _ => True)
          (s.walkFrom w fuel (below.foldl Path.join source) (src ++ below) below st).2) :
    Inv (s.visit w fuel (below.foldl Path.join source) below st name).2 ∧
      st.2.Writes (fun _ => True) (fun _ => True)
        (s.visit w fuel (below.foldl Path.join source) below st name).2 := by
  have hunder := hkept.underway _ hst
  have hsame : Inv st.2 ∧ st.2.Writes (fun _ => True) (fun _ => True) st.2 :=
    ⟨hst, hunder.wellFormed.writes_refl⟩
  by_cases hdirectory : st.2.isDirectory ((below.foldl Path.join source).join name) = true
  · rw [visit_directory hunder hwithin hname hdirectory]
    split
    · split
      · exact hsame
      · next hne => exact hwalk _ st hst (hwithin.concat hunder hname hdirectory hne)
    · exact hsame
  · rw [Setup.visit, if_neg hdirectory]
    split
    · rw [arrived_snd, note_snd]
      exact ⟨hkept.file _ below name hst hwithin.names hname hwithin.walkable hwithin.directory,
        (hunder.processFile_writes hwithin.names hname _).mono (fun _ _ => trivial)
          fun _ _ => trivial⟩
    · exact hsame

/-- **What every preprocessed file keeps, a walk keeps**, also one that fails. -/
theorem Kept.walkFrom (fuel : Nat) (below : List Text) (st : Summary × FileTree) (hst : Inv st.2)
    (hwithin : Within src w below st.2) :
    Inv (s.walkFrom w fuel (below.foldl Path.join source) (src ++ below) below st).2 ∧
      st.2.Writes (fun _ => True) (fun _ => True)
        (s.walkFrom w fuel (below.foldl Path.join source) (src ++ below) below st).2 := by
  induction fuel generalizing below st with
  | zero => exact ⟨hst, (hkept.underway _ hst).wellFormed.writes_refl⟩
  | succ fuel ih =>
    rw [walkFrom_succ]
    have hnames : ∀ name ∈ st.2.names (src ++ below), IsName name := fun name hname =>
      (hkept.underway _ hst).wellFormed.isName_of_mem_names hname
    -- the names have been listed; the tree changes while they are visited
    generalize st.2.names (src ++ below) = names at hnames
    induction names generalizing st with
    | nil => exact ⟨hst, (hkept.underway _ hst).wellFormed.writes_refl⟩
    | cons name names ihnames =>
      have hvisit := hkept.visit hst hwithin (hnames name List.mem_cons_self) ih
      rw [visitAll]
      rcases hresult : s.visit w fuel (below.foldl Path.join source) below st name with
        ⟨e | summary, t⟩
      · rwa [hresult] at hvisit
      · rw [hresult] at hvisit
        obtain ⟨hinv, hwrites⟩ := hvisit
        obtain ⟨hinv', hwrites'⟩ := ihnames (summary, t) hinv (hwithin.of_writes hwrites)
          fun n hn => hnames n (List.mem_cons_of_mem name hn)
        exact ⟨hinv', hwrites.trans hwrites'⟩

end Induction

theorem within_nil (h : Underway t source src w) : Within src w [] t where
  names := by simp
  walkable := by
    rw [List.append_nil]
    exact ⟨List.prefix_refl src, id⟩
  directory := by
    rw [List.append_nil]
    exact h.source.directory

/-- What a walk writes: files below the output directory, and the directories above them. -/
theorem walkFrom_writes (h : Underway t source src w) (fuel : Nat) (summary : Summary) :
    t.Writes (w.place <+: ·) (fun q => q <+: w.place ∨ w.place <+: q)
      (s.walkFrom w fuel source src [] (summary, t)).2 := by
  have hkept : Kept s source src w fun u => Underway u source src w ∧
      t.Writes (w.place <+: ·) (fun q => q <+: w.place ∨ w.place <+: q) u := by
    refine ⟨fun u hu => hu.1, fun u below name hu hbelow hname _ _ => ?_⟩
    have hone := hu.1.processFile_writes (s := s) hbelow hname
      ((below.foldl Path.join source).join name)
    refine ⟨hu.1.of_writes hone, hu.2.trans (hone.mono ?_ ?_)⟩
    · rintro q ⟨last, rfl⟩
      rw [List.append_assoc]
      exact List.prefix_append _ _
    · intro q hq
      exact List.prefix_or_prefix_of_prefix hq (List.prefix_append _ _)
  have hwalk := hkept.walkFrom fuel [] (summary, t) ⟨h, h.wellFormed.writes_refl⟩ (within_nil h)
  rw [List.append_nil] at hwalk
  exact hwalk.1.2

/-! ## Depth -/

/-- No directory that a walk may enter is longer than a bound. -/
def Bounded (src : Place) (w : Walk) (bound : Nat) (t : FileTree) : Prop :=
  ∀ q, Walkable src w q → t.node? q = some .directory → q.length ≤ bound

theorem bounded_depth (t : FileTree) : Bounded src w t.depth t := by
  intro q _ hq
  exact FileTree.length_le_depth (by rw [hq]; rfl)

/-- An output stands no deeper below the source directory than its source. -/
theorem kept_bounded (s : Setup) (source : Path) (src : Place) (w : Walk) (bound : Nat) :
    Kept s source src w fun u => Underway u source src w ∧ Bounded src w bound u := by
  refine ⟨fun u hu => hu.1, fun u below name hu hbelow hname hwalkable hdirectory => ?_⟩
  have hone := hu.1.processFile_writes (s := s) hbelow hname
    ((below.foldl Path.join source).join name)
  refine ⟨hu.1.of_writes hone, fun q hq hnode => ?_⟩
  rcases hone.node q with hsame | ⟨-, -, content, hfile⟩ | ⟨hstarts, hnone, -⟩
  · exact hu.2 q hq (hsame ▸ hnode)
  · rw [hfile] at hnode
    cases hnode
  · rcases List.prefix_or_prefix_of_prefix hstarts (List.prefix_append _ _) with habove | habove
    · -- above the output directory everything exists
      rw [hu.1.wellFormed.directory_of_prefix habove hu.1.output.directory] at hnone
      cases hnone
    · have hsource := (hq.2 habove).length_le
      have hhere := hu.2 _ hwalkable hdirectory
      have hlength := hstarts.length_le
      have := length_kept_le s below
      rw [List.length_append] at hhere hlength
      omega

/-- A name is visited alike at two depths if a directory of this name is walked alike. -/
theorem visit_fuel {fuel fuel' : Nat} {st : Summary × FileTree} (hunder : Underway st.2 source src w)
    (hwithin : Within src w below st.2) (hname : IsName name)
    (hwalk : Within src w (below ++ [name]) st.2 →
      s.walkFrom w fuel ((below ++ [name]).foldl Path.join source) (src ++ (below ++ [name]))
          (below ++ [name]) st =
        s.walkFrom w fuel' ((below ++ [name]).foldl Path.join source) (src ++ (below ++ [name]))
          (below ++ [name]) st) :
    s.visit w fuel (below.foldl Path.join source) below st name =
      s.visit w fuel' (below.foldl Path.join source) below st name := by
  by_cases hdirectory : st.2.isDirectory ((below.foldl Path.join source).join name) = true
  · rw [visit_directory hunder hwithin hname hdirectory,
      visit_directory hunder hwithin hname hdirectory]
    split
    · split
      · rfl
      · next hne => exact hwalk (hwithin.concat hunder hname hdirectory hne)
    · rfl
  · rw [visit, visit, if_neg hdirectory, if_neg hdirectory]

/-- **Any two depths that are enough give the same walk.** -/
theorem walkFrom_fuel {bound : Nat} (fuel fuel' : Nat) (below : List Text) (st : Summary × FileTree)
    (hunder : Underway st.2 source src w) (hbounded : Bounded src w bound st.2)
    (hwithin : Within src w below st.2) (hfuel : bound < fuel + (src ++ below).length)
    (hfuel' : bound < fuel' + (src ++ below).length) :
    s.walkFrom w fuel (below.foldl Path.join source) (src ++ below) below st =
      s.walkFrom w fuel' (below.foldl Path.join source) (src ++ below) below st := by
  have hlength := hbounded _ hwithin.walkable hwithin.directory
  induction fuel generalizing fuel' below st with
  | zero => omega
  | succ fuel ih =>
    cases fuel' with
    | zero => omega
    | succ fuel' =>
      rw [walkFrom_succ, walkFrom_succ]
      have hnames : ∀ name ∈ st.2.names (src ++ below), IsName name := fun name hname =>
        hunder.wellFormed.isName_of_mem_names hname
      generalize st.2.names (src ++ below) = names at hnames
      induction names generalizing st with
      | nil => rfl
      | cons name names ihnames =>
        have hname := hnames name List.mem_cons_self
        have hkept := kept_bounded s source src w bound
        have hvisit := visit_fuel (s := s) hunder hwithin hname fun hnext =>
          ih fuel' (below ++ [name]) st hunder hbounded hnext (by simp at hfuel ⊢; omega)
            (by simp at hfuel' ⊢; omega) (hbounded _ hnext.walkable hnext.directory)
        have hafter := hkept.visit ⟨hunder, hbounded⟩ hwithin hname (hkept.walkFrom fuel)
        rw [visitAll, visitAll, ← hvisit]
        rcases hresult : s.visit w fuel (below.foldl Path.join source) below st name with
          ⟨e | summary, t⟩
        · rfl
        · rw [hresult] at hafter
          obtain ⟨⟨hunder', hbounded'⟩, hwrites⟩ := hafter
          exact ihnames (summary, t) hunder' hbounded' (hwithin.of_writes hwrites)
            fun n hn => hnames n (List.mem_cons_of_mem name hn)

/-! ## Whole directories -/

/-- **Preprocessing a directory**: the output directory is created, and the source directory is
walked. -/
theorem exec_processDirectory (s : Setup) (source output : Path) (t : FileTree) :
    (s.processDirectory source output).exec t =
      if t.isDirectory source then
        match t.makeDirectories output with
        | (.error e, t₁) => (.error (.os e), t₁)
        | (.ok (), t₁) =>
          match t₁.resolve output, t₁.locate source with
          | .error e, _ => (.error (.resolve output e), t₁)
          | _, .error _ => (.error (.missingDirectory source), t₁)
          | .ok out, .ok src => s.walkFrom ⟨output, out⟩ (t₁.depth + 1) source src [] (.empty, t₁)
      else (.error (.missingDirectory source), t) := by
  rw [processDirectory, Action.exec_bind, Action.exec_get]
  simp only
  cases t.isDirectory source with
  | false => rfl
  | true =>
    simp only [Bool.not_true, Bool.false_eq_true, if_false, if_true, Action.exec_bind,
      Action.exec_makeDirectories]
    rcases t.makeDirectories output with ⟨e | _, t₁⟩
    · rfl
    · simp only [Action.exec_get]
      cases t₁.resolve output with
      | error e => rfl
      | ok out =>
        cases t₁.locate source with
        | error e => rfl
        | ok src => rfl

/-- Once the output directory has been created, the walk can start. -/
theorem underway_of_makeDirectories {t₁ : FileTree} (h : t.WellFormed)
    (hdirectory : t.isDirectory source = true) (hne : output ≠ [])
    (hmake : t.makeDirectories output = (.ok (), t₁)) :
    t₁.locate output = .ok (t.target output) ∧ t₁.locate source = .ok (t.target source) ∧
      Underway t₁ source (t.target source) ⟨output, t.target output⟩ := by
  obtain ⟨hwrites, hleads⟩ := h.makeDirectories_leads hne hmake
  obtain ⟨place, hcheck, hdescend, hplace⟩ := FileTree.isDirectory_iff.mp hdirectory
  obtain ⟨hzero, -, hnonempty⟩ := FileTree.checkPath_eq_ok_iff.mp hcheck
  have hsource : t.Leads source (t.target source) := by
    obtain rfl := (FileTree.eq_of_descend hdescend).1
    exact ⟨hzero, hnonempty, hdescend, hplace⟩
  have hsource' := hsource.mono (fun _ => hwrites.directory) hwrites.current
  refine ⟨hleads.locate ?_, hsource'.locate hcheck, hwrites.wellFormed, hsource', hleads⟩
  cases hcheck : FileTree.checkPath output with
  | ok _ => rfl
  | error e =>
    have hempty : output.isEmpty = false := by simpa using hne
    rw [FileTree.makeDirectories_of_checkPath hcheck, hempty] at hmake
    cases hmake

/-- Once the output directory has been created, the source directory is walked if the output directory
can be resolved. -/
theorem exec_processDirectory_of_makeDirectories {t₁ : FileTree} (h : t.WellFormed)
    (hdirectory : t.isDirectory source = true) (hne : output ≠ [])
    (hmake : t.makeDirectories output = (.ok (), t₁)) :
    (s.processDirectory source output).exec t =
      if t₁.resolvable output then
        s.walkFrom ⟨output, t.target output⟩ (t₁.depth + 1) source (t.target source) [] (.empty, t₁)
      else (.error (.resolve output .nameTooLong), t₁) := by
  obtain ⟨hlocate, hsource, -⟩ := underway_of_makeDirectories h hdirectory hne hmake
  rw [exec_processDirectory, if_pos hdirectory, hmake]
  simp only [FileTree.resolve_of_locate hlocate, hsource]
  cases t₁.resolvable output with
  | false => rfl
  | true => rfl

/-- What preprocessing a directory writes: files below the output directory, and the directories
above them. -/
theorem processDirectory_writes (h : t.WellFormed) (hout : dotDot ∉ output.components) :
    t.Writes (t.target output <+: ·) (fun q => q <+: t.target output ∨ t.target output <+: q)
      ((s.processDirectory source output).exec t).2 := by
  have hmade : t.Writes (t.target output <+: ·)
      (fun q => q <+: t.target output ∨ t.target output <+: q) (t.makeDirectories output).2 :=
    (h.makeDirectories_writes (FileTree.forward_of_not_mem (h.node?_origin output) hout)).mono
      (fun _ => False.elim) fun _ => .inl
  by_cases hdirectory : t.isDirectory source = true
  · rcases hmake : t.makeDirectories output with ⟨e | _, t₁⟩
    · rw [exec_processDirectory, if_pos hdirectory, hmake]
      rwa [hmake] at hmade
    · rw [hmake] at hmade
      by_cases hne : output = []
      · subst hne
        rw [exec_processDirectory, if_pos hdirectory, hmake]
        exact hmade
      · obtain ⟨-, -, hunder⟩ := underway_of_makeDirectories h hdirectory hne hmake
        rw [exec_processDirectory_of_makeDirectories h hdirectory hne hmake]
        split
        · exact hmade.trans (walkFrom_writes hunder (t₁.depth + 1) .empty)
        · exact hmade
  · rw [exec_processDirectory, if_neg hdirectory]
    exact h.writes_refl

end Setup

end ConditionalText.Files
