import ConditionalText.Proofs.Files.Listing
import ConditionalText.Proofs.Files.Summary
import Mathlib.Data.List.Induction

/-!
# Preprocessing a directory is preprocessing its files

What becomes of a file of a directory is told by what it held at the start (`Setup.outcome`), and its
output stands below the output directory where the file stands below the source directory. A run
writes these outputs and no other file, and its summary counts them.

The run loops over the files that are there at the start. After some of them the tree holds their
outputs, directories above them, and everything else as it was (`Setup.Done`); so the next one is
read as it was at the start, and nothing stands in the way of its output.

* `Setup.Underway.exec_processFile`: a file whose output has nothing in its way.
* `Setup.Done.stepFile`: one more file.
* `Setup.processDirectory_pointwise`: **the run of a directory.**
-/

namespace ConditionalText.Files

open ConditionalText.Text

namespace Setup

open FileTree

variable {s : Setup} {w : Walk} {t u : FileTree} {source p : Path} {src q : Place}
  {below : List Text} {name : Text} {content : Content}

/-! ## One file -/

/-- What becomes of what a file holds: its output, or an error that names the file. -/
def outcome (s : Setup) (p : Path) : Content → Except FileError Output
  | .binary _ => .error (.read p .notUtf8)
  | .text source =>
    match preprocess s.env source with
    | .error e => .error (.preprocess p (Text.locate source e.offset) e)
    | .ok out => .ok out

/-- A file is read and preprocessed by what it holds. -/
theorem map_processText (hread : t.read p = .ok content) :
    (s.processText t p).map Prod.snd = s.outcome p content := by
  rw [processText, hread]
  cases content with
  | binary bytes => rfl
  | text source =>
    rw [outcome]
    simp only
    cases preprocess s.env source with
    | error e => rfl
    | ok out => rfl

theorem processText_of_error {e : FileError} (hread : t.read p = .ok content)
    (h : s.outcome p content = .error e) : s.processText t p = .error e := by
  rw [← map_processText hread] at h
  cases hprocess : s.processText t p with
  | error e' =>
    rw [hprocess] at h
    cases h
    rfl
  | ok r =>
    rw [hprocess] at h
    cases h

theorem processText_of_ok {out : Output} (hread : t.read p = .ok content)
    (h : s.outcome p content = .ok out) : ∃ text, s.processText t p = .ok (text, out) := by
  rw [← map_processText hread] at h
  cases hprocess : s.processText t p with
  | error e' =>
    rw [hprocess] at h
    cases h
  | ok r =>
    rw [hprocess] at h
    cases h
    exact ⟨r.1, rfl⟩

/-- Behind what exists of it the parent of an output has the names that are kept. -/
theorem Underway.components_parent (h : Underway u source src w) (hkeep : s.kept below = below)
    (hbelow : ∀ c ∈ below, IsName c) (hname : IsName name) {parent : Path}
    (hparent : (s.outputPath w below name).parent? = some parent) :
    ∃ existing, parent.components = existing ++ below ∧
      u.descend (u.origin parent) existing = .ok w.place := by
  obtain ⟨parent', gap, behind, hparent', hparted, -⟩ := h.parted_outputPath (s := s) hbelow hname
  rw [hparent] at hparent'
  cases hparent'
  have horigin : u.origin parent = u.origin w.output := by
    rw [origin_of_isAbsolute hparted.isAbsolute, h.origin_outputPath hbelow hname]
  have hcomponents := hparted.components
  rw [components_outputPath hbelow hname, hkeep, ← List.append_assoc] at hcomponents
  -- nothing but the name can stand at the end
  have hbehind : behind = [] := by
    rcases List.eq_nil_or_concat' behind with hnil | ⟨init, d, rfl⟩
    · exact hnil
    · have hd := hparted.behindDots d (by simp)
      have hlast := congrArg List.getLast? hcomponents
      rw [← List.cons_append, ← List.append_assoc, List.getLast?_concat,
        List.getLast?_concat] at hlast
      cases hlast
      exact absurd hd hname.notDot
  subst hbehind
  have hinit : w.output.components ++ below = parent.components ++ gap :=
    List.append_cancel_right hcomponents
  have hdescend := h.output.descend
  rw [horigin]
  by_cases hnil : below = []
  · subst hnil
    rw [List.append_nil] at hinit
    refine ⟨parent.components, (List.append_nil _).symm, ?_⟩
    rw [hinit, descend_append] at hdescend
    cases hway : u.descend (u.origin w.output) parent.components with
    | error e =>
      rw [hway] at hdescend
      cases hdescend
    | ok q =>
      rw [hway] at hdescend
      rw [(eq_of_descend hdescend).1, foldl_follow_dots _ hparted.gapDots]
  · have hgap : gap = [] := by
      rcases List.eq_nil_or_concat' gap with hgap | ⟨init, d, rfl⟩
      · exact hgap
      · obtain ⟨front, c, rfl⟩ := (List.eq_nil_or_concat' below).resolve_left hnil
        have hlast := congrArg List.getLast? hinit
        rw [← List.append_assoc, ← List.append_assoc, List.getLast?_concat,
          List.getLast?_concat] at hlast
        cases hlast
        exact absurd (hparted.gapDots d (by simp)) (hbelow d (by simp)).notDot
    subst hgap
    rw [List.append_nil] at hinit
    exact ⟨w.output.components, hinit.symm, hdescend⟩

section OneFile

variable (h : Underway u source src w) (hkeep : s.config.keepStructure = true)
  (hbelow : ∀ c ∈ below, IsName c) (hname : IsName name)
  (hshort : byteLength ((below ++ [name]).foldl Path.join w.output) ≤ maxPathBytes)
  (hfree : u.FileFree w.place below)
include h hkeep hbelow hname hshort hfree

/-- The directory of an output is created if no file is in the way. -/
theorem Underway.makeParent_ok :
    ∃ u₁, u.makeParent (s.outputPath w below name) = (.ok (), u₁) ∧ Underway u₁ source src w ∧
      ∀ q, u₁.node? q = if q <+: w.place ++ below then some .directory else u.node? q := by
  have hkept : s.kept below = below := by rw [kept, if_pos hkeep]
  obtain ⟨parent, gap, behind, hparent, hparted, htarget⟩ :=
    h.parted_outputPath (s := s) hbelow hname
  have hforward := h.forward_outputPath (s := s) hbelow hname
  have hwrites := h.wellFormed.makeParent_writes hforward
  have hok : (u.makeParent (s.outputPath w below name)).1 = .ok () := by
    rw [makeParent, hparent]
    simp only
    cases hcheck : checkPath parent with
    | error e =>
      rw [makeDirectories_of_checkPath hcheck]
      by_cases hnil : parent = []
      · rw [hnil]
        rfl
      · have hnames := isName_of_mem_concat hbelow hname
        have hwhole : checkPath (s.outputPath w below name) = .ok () := by
          rw [outputPath_of_keepStructure hkeep hbelow hname]
          exact checkPath_eq_ok_iff.mpr ⟨Path.not_mem_foldl_join h.output.noZero hnames, hshort,
            Path.foldl_join_ne_nil h.output.nonempty hnames⟩
        rw [checkPath_of_isPrefix hwhole hparted.isPrefix hnil] at hcheck
        cases hcheck
    | ok _ =>
      obtain ⟨existing, hcomponents, hdescend⟩ :=
        h.components_parent hkept hbelow hname hparent
      rw [h.wellFormed.makeDirectories_eq (hforward.of_parent hparent) hcheck, hcomponents,
        makeAlong_append hdescend h.output.directory]
      exact makeAlong_of_names hbelow hfree
  rcases hmake : u.makeParent (s.outputPath w below name) with ⟨e | _, u₁⟩
  · rw [hmake] at hok
    cases hok
  · rw [hmake] at hwrites
    have hdirectory := h.wellFormed.directory_of_makeParent hparent hmake
    rw [htarget, hkept] at hdirectory
    refine ⟨u₁, rfl, h.of_writes hwrites, fun q => ?_⟩
    split
    · next hq => exact hwrites.wellFormed.directory_of_prefix hq hdirectory
    · next hq =>
      rcases hwrites.node q with hsame | ⟨hfalse, -⟩ | ⟨⟨parent', hparent', hstarts⟩, -⟩
      · exact hsame
      · exact hfalse.elim
      · rw [h.target_parent_outputPath hbelow hname hparent', hkept] at hstarts
        exact absurd hstarts hq

/-- **A file whose output has nothing in its way** is preprocessed into it. -/
theorem Underway.exec_processFile (hmaps : s.config.sourceMaps = false)
    (hnode : u.node? (w.place ++ (below ++ [name])) ≠ some .directory)
    (hread : u.read p = .ok content) {out : Output} (hout : s.outcome p content = .ok out) :
    ∃ u', (s.processFile p (s.outputPath w below name)).exec u = (.ok (summaryOf out), u') ∧
      ∀ q, u'.node? q =
        if q = w.place ++ (below ++ [name]) then some (.file (.text out.text))
        else if q <+: w.place ++ below then some .directory else u.node? q := by
  obtain ⟨text, htext⟩ := processText_of_ok hread hout
  obtain ⟨u₁, hmake, hunder, hdirs⟩ := h.makeParent_ok hkeep hbelow hname hshort hfree
  have hdirectory : u₁.node? (w.place ++ below) = some .directory := by
    rw [hdirs, if_pos (List.prefix_refl _)]
  have hleads := hunder.output.foldl_join hunder.wellFormed hdirectory
  have hnode' : u₁.node? (w.place ++ below ++ [name]) ≠ some .directory := by
    rw [hdirs, if_neg, List.append_assoc]
    · exact hnode
    · intro hstarts
      have hlength := hstarts.length_le
      simp only [List.length_append, List.length_singleton] at hlength
      omega
  have hpath := outputPath_of_keepStructure (w := w) hkeep hbelow hname
  rw [Path.foldl_join_concat] at hpath hshort
  have hwrite := hleads.write_join hname hshort hnode' (.text out.text)
  have houtputs : s.outputs p (s.outputPath w below name) text out =
      .ok [(s.outputPath w below name, out.text)] := by
    rw [outputs, hmaps]
    rfl
  refine ⟨u₁.setNode (w.place ++ below ++ [name]) (.file (.text out.text)), ?_, fun q => ?_⟩
  · rw [Setup.exec_processFile, htext]
    simp only [hmake, houtputs, writeAll]
    rw [hpath, hwrite]
  · rw [node?_setNode_concat, hdirs, List.append_assoc]

end OneFile

/-! ## The loop -/

/-- What a run of a directory needs so that every file gets its output: outputs are kept in the
places of their sources, without maps; the output directory is the source directory, or it is not
above it and has no files; no directory stands where an output is to stand; and no path is too long,
neither as it is spelled nor, where a directory is resolved, as an absolute one. -/
structure Clear (s : Setup) (source : Path) (src : Place) (w : Walk) (t : FileTree) : Prop where
  underway : Underway t source src w
  keepStructure : s.config.keepStructure = true
  noMaps : s.config.sourceMaps = false
  place : w.place = src ∨ ¬ w.place <+: src ∧
    ∀ below content, t.node? (w.place ++ below) ≠ some (.file content)
  free : ∀ below content, Picked s t src w below content →
    t.node? (w.place ++ below) ≠ some .directory
  short : ∀ below, Met t src w below → (∃ name ∈ below.getLast?, s.config.picks name = true) →
    byteLength (below.foldl Path.join source) ≤ maxPathBytes
  resolvable : ∀ below, Met t src w below → below ≠ [] →
    t.isDirectory (below.foldl Path.join source) = true →
    t.resolvable (below.foldl Path.join source) = true
  shortOutput : ∀ below content, Picked s t src w below content →
    byteLength (below.foldl Path.join w.output) ≤ maxPathBytes

/-- The names of a file that is picked. -/
theorem Picked.exists_concat (h : Picked s t src w below content) (ht : t.WellFormed) :
    ∃ init name, below = init ++ [name] ∧ (∀ c ∈ init, IsName c) ∧ IsName name ∧
      t.node? (src ++ init) = some .directory := by
  obtain ⟨name, hlast, -⟩ := h.wanted
  obtain ⟨init, rfl⟩ := List.getLast?_eq_some_iff.mp hlast
  have hnames : ∀ c ∈ init ++ [name], IsName c :=
    ht.isName_of_mem fun _ => by rw [h.file]; rfl
  refine ⟨init, name, rfl, fun c hc => hnames c (List.mem_append_left _ hc),
    hnames name (List.mem_append_right _ List.mem_cons_self), ?_⟩
  refine ht.parent (src ++ init) name ?_
  rw [List.append_assoc, h.file]
  rfl

/-- No file that is picked stands below another one. -/
theorem Picked.eq_of_isPrefix {below' : List Text} {content' : Content}
    (h : Picked s t src w below content) (h' : Picked s t src w below' content')
    (ht : t.WellFormed) (hstarts : below <+: below') : below = below' := by
  obtain ⟨rest, rfl⟩ := hstarts
  by_cases hrest : rest = []
  · rw [hrest, List.append_nil]
  · have hfile := h'.file
    rw [← List.append_assoc, ht.eq_none_of_append (by rw [h.file]; simp) hrest] at hfile
    cases hfile

section Clear

variable (hclear : Clear s source src w t)
include hclear

/-- No place that a walk may enter is the place of an output, unless its source is there. -/
theorem Clear.ne_output (hq : Walkable src w q) :
    w.place = src ∨ ¬ w.place <+: q :=
  hclear.place.imp_right fun hplace hstarts => hplace.1 (hq.2 hstarts)

/-- The effect of a file that is picked: its output, and directories above it. -/
theorem Clear.stepFile_writes {st : Summary × FileTree} (hst : Underway st.2 source src w)
    {init : List Text} (hinit : ∀ c ∈ init, IsName c) (hname : IsName name) (content : Content) :
    st.2.Writes (· = w.place ++ (init ++ [name])) (· <+: w.place ++ init)
      (s.stepFile source w st (init ++ [name], content)).2 := by
  have hkept : s.kept init = init := by rw [kept, if_pos hclear.keepStructure]
  rw [stepFile, note_snd, ← outputPath_of_keepStructure hclear.keepStructure hinit hname]
  refine (processFile_writes hst.wellFormed (hst.forward_outputPath hinit hname)).mono ?_ ?_
  · rintro q ⟨p, hp, rfl⟩
    rw [outputPaths, hclear.noMaps] at hp
    rw [List.mem_singleton.mp hp, hst.target_outputPath hinit hname, hkept, List.append_assoc]
  · rintro q ⟨parent, hparent, hq⟩
    rwa [hst.target_parent_outputPath hinit hname hparent, hkept] at hq

/-- A walk finds the same directories and files after a file has been preprocessed. -/
theorem Clear.mirrors_stepFile {st : Summary × FileTree} {f : List Text × Content}
    (hst : Mirrors source src w t st.2) (hf : Picked s t src w f.1 f.2) :
    Mirrors source src w t (s.stepFile source w st f).2 := by
  obtain ⟨names, content⟩ := f
  obtain ⟨init, name, rfl, hinit, hname, hdirectory⟩ := hf.exists_concat hclear.underway.wellFormed
  have hwrites := hclear.stepFile_writes hst.underway hinit hname content
  have hsame {q : Place} (hq : Walkable src w q) :
      (s.stepFile source w st (init ++ [name], content)).2.node? q = st.2.node? q ∨
        (∃ c, t.node? q = some (.file c)) ∧
          ∃ c, (s.stepFile source w st (init ++ [name], content)).2.node? q = some (.file c) := by
    rcases hwrites.node q with hsame | ⟨rfl, -, hfile⟩ | ⟨hstarts, hnone, -⟩
    · exact .inl hsame
    · rcases hclear.ne_output hq with heq | hne
      · rw [heq] at hfile ⊢
        exact .inr ⟨⟨content, hf.file⟩, hfile⟩
      · exact absurd (List.prefix_append _ _) hne
    · -- directories on the way to an output are there already
      exfalso
      rcases List.prefix_or_prefix_of_prefix hstarts (List.prefix_append _ _) with habove | habove
      · rw [hst.underway.wellFormed.directory_of_prefix habove hst.underway.output.directory]
          at hnone
        cases hnone
      · rcases hclear.ne_output hq with heq | hne
        · rw [heq] at hstarts
          have hdir := hclear.underway.wellFormed.directory_of_prefix hstarts hdirectory
          rw [(hst.directory q hq).mpr hdir] at hnone
          cases hnone
        · exact hne habove
  refine ⟨hst.underway.of_writes hwrites, hwrites.current.trans hst.current, fun q hq => ?_,
    fun q hq => ?_⟩
  · rcases hsame hq with hsame | ⟨⟨c, hc⟩, c', hc'⟩
    · rw [hsame]
      exact hst.directory q hq
    · rw [hc, hc']
      simp
  · rcases hsame hq with hsame | ⟨⟨c, hc⟩, c', hc'⟩
    · rw [hsame]
      exact hst.isSome q hq
    · rw [hc, hc']
      rfl

theorem Clear.loops : Loops s source src w t where
  keepStructure := hclear.keepStructure
  short := hclear.short
  resolvable := hclear.resolvable
  file _ _ := hclear.mirrors_stepFile

end Clear

/-- What a run has done after some files: their outputs are there, with directories above them, and
everything else is as it was at the start. -/
structure Done (s : Setup) (source : Path) (src : Place) (w : Walk) (t : FileTree)
    (files : List (List Text × Content)) (u : FileTree) : Prop where
  mirrors : Mirrors source src w t u
  output : ∀ f ∈ files, ∀ out, s.outcome (f.1.foldl Path.join source) f.2 = .ok out →
    u.node? (w.place ++ f.1) = some (.file (.text out.text))
  other : ∀ q, (∀ f ∈ files, ∀ out, s.outcome (f.1.foldl Path.join source) f.2 = .ok out →
      q ≠ w.place ++ f.1) →
    u.node? q = t.node? q ∨
      t.node? q = none ∧ u.node? q = some .directory ∧
        ∃ f ∈ files, q <+: w.place ++ f.1 ∧ q ≠ w.place ++ f.1

/-- The summary of one file. -/
def part (s : Setup) (source : Path) (f : List Text × Content) : Summary :=
  match s.outcome (f.1.foldl Path.join source) f.2 with
  | .ok out => summaryOf out
  | .error e => .ofError e.message

section Step

variable {files : List (List Text × Content)} {f : List Text × Content}
  (hclear : Clear s source src w t) (hdone : Done s source src w t files u)
  (hf : Picked s t src w f.1 f.2) (hnew : ∀ g ∈ files, g.1 ≠ f.1)

include hclear hdone hf hnew in
/-- The next file holds what it held at the start. -/
theorem Done.node_source : u.node? (src ++ f.1) = some (.file f.2) := by
  have hne : ∀ g ∈ files, ∀ out, s.outcome (g.1.foldl Path.join source) g.2 = .ok out →
      src ++ f.1 ≠ w.place ++ g.1 := by
    intro g hg out _ heq
    rcases hclear.ne_output hf.walkable with hplace | hplace
    · rw [hplace] at heq
      exact hnew g hg (List.append_cancel_left heq).symm
    · exact hplace (heq ▸ List.prefix_append _ _)
  rcases hdone.other _ hne with hsame | ⟨hnone, -⟩
  · rw [hsame, hf.file]
  · rw [hf.file] at hnone
    cases hnone

include hclear hdone hf hnew in
/-- The next file reads as it did at the start. -/
theorem Done.read_source : u.read (f.1.foldl Path.join source) = .ok f.2 := by
  obtain ⟨init, name, hnames, -, hname, hdirectory⟩ := hf.exists_concat hclear.underway.wellFormed
  have hunder := hdone.mirrors.underway
  have hnode := hdone.node_source hclear hf hnew
  have hwalkable : Walkable src w (src ++ init) := by
    refine ⟨List.prefix_append _ _, fun hstarts => hf.walkable.2 (hstarts.trans ?_)⟩
    rw [hnames, ← List.append_assoc]
    exact List.prefix_append _ _
  have hleads := hunder.source.foldl_join hunder.wellFormed
    ((hdone.mirrors.directory _ hwalkable).mpr hdirectory)
  have hshort := hclear.short f.1 hf.met hf.wanted
  rw [hnames, Path.foldl_join_concat] at hshort ⊢
  rw [hnames, ← List.append_assoc] at hnode
  exact hleads.read_join hname hshort hnode

variable (hfiles : ∀ g ∈ files, Picked s t src w g.1 g.2)
include hclear hdone hf hnew hfiles

omit hdone in
/-- On the way to the next output nothing has been written. -/
theorem Clear.ne_output_of_isPrefix {before : List Text} (hbefore : before <+: f.1) :
    ∀ g ∈ files, ∀ out, s.outcome (g.1.foldl Path.join source) g.2 = .ok out →
      w.place ++ before ≠ w.place ++ g.1 := by
  intro g hg out _ heq
  rw [List.append_cancel_left heq] at hbefore
  exact hnew g hg ((hfiles g hg).eq_of_isPrefix hf hclear.underway.wellFormed hbefore)

/-- No file stands above the next output. -/
theorem Done.not_file_of_isPrefix (hstarts : q <+: w.place ++ f.1) (hne : q ≠ w.place ++ f.1)
    (c : Content) : u.node? q ≠ some (.file c) := by
  rcases List.prefix_or_prefix_of_prefix hstarts (List.prefix_append w.place f.1) with
    habove | ⟨before, rfl⟩
  · have hunder := hdone.mirrors.underway
    rw [hunder.wellFormed.directory_of_prefix habove hunder.output.directory]
    simp
  rw [List.prefix_append_right_inj] at hstarts
  rcases hdone.other _ (hclear.ne_output_of_isPrefix hf hnew hfiles hstarts) with
    hsame | ⟨-, hdirectory, -⟩
  · rw [hsame]
    rcases hclear.place with hplace | ⟨-, hnone⟩
    · -- above a file of the source directory there are directories
      obtain ⟨rest, hrest⟩ := hstarts
      have hrest' : rest ≠ [] := by
        rintro rfl
        exact hne (by rw [← hrest, List.append_nil])
      have hfile := hf.file
      rw [← hrest, ← List.append_assoc] at hfile
      rw [hplace, hclear.underway.wellFormed.directory_of_append hrest' (by rw [hfile]; rfl)]
      simp
    · exact hnone before c
  · rw [hdirectory]
    simp

/-- No directory stands where the next output is to stand. -/
theorem Done.node_output : u.node? (w.place ++ f.1) ≠ some .directory := by
  rcases hdone.other _ (hclear.ne_output_of_isPrefix hf hnew hfiles (List.prefix_refl _)) with
    hsame | ⟨-, -, g, hg, hstarts, -⟩
  · rw [hsame]
    exact hclear.free f.1 f.2 hf
  · -- a file would stand below a file
    rw [List.prefix_append_right_inj] at hstarts
    exact absurd (hf.eq_of_isPrefix (hfiles g hg) hclear.underway.wellFormed hstarts)
      (Ne.symm (hnew g hg))

/-- The next file is preprocessed by what it held at the start. -/
theorem Done.exec_processFile :
    (∃ e, s.outcome (f.1.foldl Path.join source) f.2 = .error e ∧
        (s.processFile (f.1.foldl Path.join source) (f.1.foldl Path.join w.output)).exec u =
          (.error e, u)) ∨
      ∃ out u', s.outcome (f.1.foldl Path.join source) f.2 = .ok out ∧
        (s.processFile (f.1.foldl Path.join source) (f.1.foldl Path.join w.output)).exec u =
          (.ok (summaryOf out), u') ∧
        ∀ q, u'.node? q =
          if q = w.place ++ f.1 then some (.file (.text out.text))
          else if q <+: w.place ++ f.1 then some .directory else u.node? q := by
  have hread := hdone.read_source hclear hf hnew
  cases hout : s.outcome (f.1.foldl Path.join source) f.2 with
  | error e =>
    refine .inl ⟨e, rfl, ?_⟩
    rw [Setup.exec_processFile, processText_of_error hread hout]
  | ok out =>
    have hnode := hdone.node_output hclear hf hnew hfiles
    obtain ⟨init, name, hnames, hinit, hname, -⟩ := hf.exists_concat hclear.underway.wellFormed
    have hshort := hclear.shortOutput f.1 f.2 hf
    have hfree : u.FileFree w.place init := by
      refine fileFree_of_names hinit fun before hbefore c => ?_
      have hstarts : w.place ++ before <+: w.place ++ f.1 := by
        rw [List.prefix_append_right_inj, hnames]
        exact hbefore.trans (List.prefix_append _ _)
      refine hdone.not_file_of_isPrefix hclear hf hnew hfiles hstarts (fun heq => ?_) c
      rw [List.append_cancel_left heq, hnames] at hbefore
      have hlength := hbefore.length_le
      simp only [List.length_append, List.length_singleton] at hlength
      omega
    rw [hnames] at hshort hnode
    obtain ⟨u', hexec, hnodes⟩ := hdone.mirrors.underway.exec_processFile hclear.keepStructure
      hinit hname hshort hfree hclear.noMaps hnode hread hout
    rw [outputPath_of_keepStructure hclear.keepStructure hinit hname, ← hnames] at hexec
    refine .inr ⟨out, u', rfl, hexec, fun q => ?_⟩
    rw [hnodes, ← hnames]
    split
    · rfl
    · next hne =>
      have hiff : q <+: w.place ++ init ↔ q <+: w.place ++ f.1 := by
        rw [hnames, ← List.append_assoc, List.prefix_concat_iff, List.append_assoc, ← hnames,
          or_iff_right hne]
      simp only [hiff]

/-- The output of the next file is added to what a run has done. -/
theorem Done.of_write {u' : FileTree} {out : Output} (hmirrors : Mirrors source src w t u')
    (hout : s.outcome (f.1.foldl Path.join source) f.2 = .ok out)
    (hnodes : ∀ q, u'.node? q =
      if q = w.place ++ f.1 then some (.file (.text out.text))
      else if q <+: w.place ++ f.1 then some .directory else u.node? q) :
    Done s source src w t (files ++ [f]) u' where
  mirrors := hmirrors
  output g hg out' hout' := by
    rw [hnodes]
    rcases List.mem_append.mp hg with hg | hg
    · have hne : ¬ w.place ++ g.1 <+: w.place ++ f.1 := by
        rw [List.prefix_append_right_inj]
        intro hstarts
        exact hnew g hg ((hfiles g hg).eq_of_isPrefix hf hclear.underway.wellFormed hstarts)
      have hne' : w.place ++ g.1 ≠ w.place ++ f.1 := fun heq => hne (heq ▸ List.prefix_refl _)
      rw [if_neg hne', if_neg hne]
      exact hdone.output g hg out' hout'
    · rw [List.mem_singleton.mp hg] at hout' ⊢
      rw [hout] at hout'
      cases hout'
      rw [if_pos rfl]
  other q hq := by
    have hne : q ≠ w.place ++ f.1 := hq f (by simp) out hout
    rw [hnodes, if_neg hne]
    have hold := hdone.other q fun g hg => hq g (List.mem_append_left _ hg)
    split
    · next hstarts =>
      -- a directory above the output is new, or it was there before
      rcases hold with hsame | ⟨hnone, -, -⟩
      · cases hnode : t.node? q with
        | none => exact .inr ⟨rfl, rfl, f, by simp, hstarts, hne⟩
        | some node =>
          cases node with
          | directory => exact .inl rfl
          | file c =>
            exact absurd (hsame.trans hnode)
              (hdone.not_file_of_isPrefix hclear hf hnew hfiles hstarts hne c)
      · exact .inr ⟨hnone, rfl, f, by simp, hstarts, hne⟩
    · refine hold.imp_right ?_
      rintro ⟨hnone, hdirectory, g, hg, hstarts⟩
      exact ⟨hnone, hdirectory, g, List.mem_append_left _ hg, hstarts⟩

/-- **One more file**: its output is written if it has one, and its summary is added. -/
theorem Done.stepFile (summary : Summary) :
    Done s source src w t (files ++ [f]) (s.stepFile source w (summary, u) f).2 ∧
      (s.stepFile source w (summary, u) f).1 = summary.merge (s.part source f) := by
  rcases hdone.exec_processFile hclear hf hnew hfiles with
    ⟨e, hout, hexec⟩ | ⟨out, u', hout, hexec, hnodes⟩
  · have hstep : s.stepFile source w (summary, u) f = (summary.addError e.message, u) := by
      rw [Setup.stepFile, note, hexec]
    rw [hstep, part, hout]
    refine ⟨⟨hdone.mirrors, fun g hg out' hout' => ?_, fun q hq => ?_⟩,
      Summary.addError_eq summary e.message⟩
    · rcases List.mem_append.mp hg with hg | hg
      · exact hdone.output g hg out' hout'
      · rw [List.mem_singleton.mp hg, hout] at hout'
        cases hout'
    · refine (hdone.other q fun g hg => hq g (List.mem_append_left _ hg)).imp_right ?_
      rintro ⟨hnone, hdirectory, g, hg, hstarts⟩
      exact ⟨hnone, hdirectory, g, List.mem_append_left _ hg, hstarts⟩
  · have hstep : s.stepFile source w (summary, u) f = (summary.merge (summaryOf out), u') := by
      rw [Setup.stepFile, note, hexec]
    have hmirrors : Mirrors source src w t (s.stepFile source w (summary, u) f).2 :=
      hclear.mirrors_stepFile hdone.mirrors hf
    rw [hstep] at hmirrors
    rw [hstep, part, hout]
    exact ⟨hdone.of_write hclear hf hnew hfiles hmirrors hout hnodes, rfl⟩

end Step

theorem Clear.done_nil (hclear : Clear s source src w t) : Done s source src w t [] t where
  mirrors := ⟨hclear.underway, rfl, fun _ _ => Iff.rfl, fun _ _ => rfl⟩
  output f hf := by cases hf
  other _ _ := .inl rfl

/-- **One file after another**: their outputs are written, and their summaries are put together. -/
theorem Clear.foldl_stepFile (hclear : Clear s source src w t) (files : List (List Text × Content))
    (hfiles : ∀ f ∈ files, Picked s t src w f.1 f.2)
    (hdistinct : files.Pairwise fun f g => f.1 ≠ g.1) :
    Done s source src w t files (files.foldl (s.stepFile source w) (.empty, t)).2 ∧
      (files.foldl (s.stepFile source w) (.empty, t)).1 =
        (files.map (s.part source)).foldl Summary.merge .empty := by
  -- on the last file, since what is done grows at its end
  induction files using List.reverseRecOn with
  | nil => exact ⟨hclear.done_nil, rfl⟩
  | append_singleton files f ih =>
    rw [List.pairwise_append] at hdistinct
    have hearlier : ∀ g ∈ files, Picked s t src w g.1 g.2 := fun g hg =>
      hfiles g (List.mem_append_left _ hg)
    obtain ⟨hdone, hsummary⟩ := ih hearlier hdistinct.1
    obtain ⟨hdone', hsummary'⟩ := hdone.stepFile hclear (hfiles f (by simp))
      (fun g hg => hdistinct.2.2 g hg f List.mem_cons_self) hearlier
      (files.foldl (s.stepFile source w) (.empty, t)).1
    rw [List.foldl_concat, List.map_append, List.map_singleton, List.foldl_concat, ← hsummary]
    exact ⟨hdone', hsummary'⟩

/-! ## The summary -/

/-- The outputs of the files that have one. -/
def successes (s : Setup) (source : Path) (files : List (List Text × Content)) : List Output :=
  files.filterMap fun f => (s.outcome (f.1.foldl Path.join source) f.2).toOption

/-- The errors of the files that have no output. -/
def failures (s : Setup) (source : Path) (files : List (List Text × Content)) : List FileError :=
  files.filterMap fun f =>
    match s.outcome (f.1.foldl Path.join source) f.2 with
    | .ok _ => none
    | .error e => some e

section Totals

variable {f : List Text × Content} (files : List (List Text × Content))

theorem successes_failures_of_ok {out : Output}
    (h : s.outcome (f.1.foldl Path.join source) f.2 = .ok out) :
    s.successes source (f :: files) = out :: s.successes source files ∧
      s.failures source (f :: files) = s.failures source files := by
  constructor
  · rw [successes, List.filterMap_cons, h]
    rfl
  · rw [failures, List.filterMap_cons, h]
    rfl

theorem successes_failures_of_error {e : FileError}
    (h : s.outcome (f.1.foldl Path.join source) f.2 = .error e) :
    s.successes source (f :: files) = s.successes source files ∧
      s.failures source (f :: files) = e :: s.failures source files := by
  constructor
  · rw [successes, List.filterMap_cons, h]
    rfl
  · rw [failures, List.filterMap_cons, h]
    rfl

/-- Every file has an output or an error. -/
theorem length_successes_add_length_failures :
    (s.successes source files).length + (s.failures source files).length = files.length := by
  induction files with
  | nil => rfl
  | cons f files ih =>
    cases hout : s.outcome (f.1.foldl Path.join source) f.2 with
    | error e =>
      obtain ⟨hsuccesses, hfailures⟩ := successes_failures_of_error files hout
      rw [hsuccesses, hfailures, List.length_cons, List.length_cons]
      omega
    | ok out =>
      obtain ⟨hsuccesses, hfailures⟩ := successes_failures_of_ok files hout
      rw [hsuccesses, hfailures, List.length_cons, List.length_cons]
      omega

/-- The summary of some files counts their outputs and lists their errors. -/
theorem foldl_merge_part :
    (files.map (s.part source)).foldl Summary.merge .empty =
      { processed := (s.successes source files).length
        changed := (s.successes source files).countP fun out => !out.isUnchanged
        removedBytes := ((s.successes source files).map Output.removedBytes).sum
        errors := (s.failures source files).map FileError.message } := by
  rw [Summary.foldl_merge]
  simp only [Summary.empty, Nat.zero_add, List.nil_append]
  induction files with
  | nil => rfl
  | cons f files ih =>
    obtain ⟨hprocessed, hchanged, hremoved, herrors⟩ := Summary.mk.inj ih
    simp only [List.map_cons, List.sum_cons, List.flatMap_cons, hprocessed, hchanged, hremoved,
      herrors]
    cases hout : s.outcome (f.1.foldl Path.join source) f.2 with
    | error e =>
      obtain ⟨hsuccesses, hfailures⟩ := successes_failures_of_error files hout
      rw [hsuccesses, hfailures, part, hout]
      simp [Summary.ofError]
    | ok out =>
      obtain ⟨hsuccesses, hfailures⟩ := successes_failures_of_ok files hout
      rw [hsuccesses, hfailures, part, hout]
      cases hsame : out.isUnchanged with
      | false => simp [summaryOf, hsame, Nat.add_comm]
      | true => simp [summaryOf, hsame, Nat.add_comm]

end Totals

/-! ## The run -/

section Run

variable {t₁ : FileTree} {output : Path} {out : Place}

/-- Where only directories appear, the files stay. -/
theorem file_iff_of_writes {dirs : Place → Prop} (h : t.Writes (fun _ => False) dirs t₁) :
    t₁.node? q = some (.file content) ↔ t.node? q = some (.file content) := by
  rcases h.node q with hsame | ⟨hfalse, -⟩ | ⟨-, hnone, hdirectory⟩
  · rw [hsame]
  · exact hfalse.elim
  · rw [hnone, hdirectory]
    simp

theorem picked_congr_of_writes {dirs : Place → Prop} (h : t.Writes (fun _ => False) dirs t₁) :
    Picked s t₁ src w below content ↔ Picked s t src w below content :=
  ⟨fun hpicked => ⟨(file_iff_of_writes h).mp hpicked.file, hpicked.wanted, hpicked.walkable⟩,
    fun hpicked => ⟨(file_iff_of_writes h).mpr hpicked.file, hpicked.wanted, hpicked.walkable⟩⟩

/-- Below a place without names there is no file, unless one stands there. -/
theorem not_file_of_names_eq_nil {place : Place} (h : t.WellFormed) (hnames : t.names place = [])
    (hplace : ∀ content, t.node? place ≠ some (.file content)) (below : List Text)
    (content : Content) :
    t.node? (place ++ below) ≠ some (.file content) := by
  intro hfile
  cases below with
  | nil =>
    rw [List.append_nil] at hfile
    exact hplace content hfile
  | cons name below =>
    have hsome : (t.node? (place ++ [name])).isSome := by
      rw [List.append_cons] at hfile
      by_cases hbelow : below = []
      · rw [hbelow, List.append_nil] at hfile
        rw [hfile]
        rfl
      · rw [h.directory_of_append hbelow (by rw [hfile]; rfl)]
        rfl
    have hmem := mem_names_iff.mpr hsome
    rw [hnames] at hmem
    cases hmem

/-- What a run of a directory comes to, in terms of the tree at its start: the files are those that
are picked there, each once, and each is preprocessed by what it holds there. The outputs stand below
the output directory where the files stand below the source directory; no other file is written, and
the summary counts the outputs and lists the errors. -/
structure Pointwise (s : Setup) (source : Path) (src : Place) (w : Walk) (t : FileTree)
    (files : List (List Text × Content)) (summary : Summary) (t' : FileTree) : Prop where
  distinct : (files.map Prod.fst).Nodup
  picked : ∀ below content, (below, content) ∈ files ↔ Picked s t src w below content
  output : ∀ f ∈ files, ∀ out, s.outcome (f.1.foldl Path.join source) f.2 = .ok out →
    t'.node? (w.place ++ f.1) = some (.file (.text out.text))
  other : ∀ q, (∀ f ∈ files, ∀ out, s.outcome (f.1.foldl Path.join source) f.2 = .ok out →
      q ≠ w.place ++ f.1) →
    ∀ content, t'.node? q = some (.file content) ↔ t.node? q = some (.file content)
  processed : summary.processed = (s.successes source files).length
  changed : summary.changed = (s.successes source files).countP fun out => !out.isUnchanged
  removedBytes : summary.removedBytes = ((s.successes source files).map Output.removedBytes).sum
  errors : summary.errors = (s.failures source files).map FileError.message
  total : summary.processed + summary.errors.length = files.length

/-- A walk with nothing in its way has done all that it has listed. -/
theorem Clear.pointwise_walkFrom (hclear : Clear s source src w t) :
    ∃ summary t', s.walkFrom w (t.depth + 1) source src [] (.empty, t) = (.ok summary, t') ∧
      Pointwise s source src w t (s.listing w t (t.depth + 1) src []) summary t' := by
  have hunder := hclear.underway
  have hmem (below : List Text) (content : Content) :
      (below, content) ∈ s.listing w t (t.depth + 1) src [] ↔ Picked s t src w below content :=
    mem_listing_iff hunder.wellFormed hunder.source.directory hunder.output.directory
  have hdistinct := pairwise_listing s w t (t.depth + 1) src []
  have hwalk := hclear.loops.walkFrom_eq hunder (t.depth + 1) [] (.empty, t)
    hclear.done_nil.mirrors (within_nil hunder)
  rw [List.append_nil, List.foldl_nil] at hwalk
  obtain ⟨hdone, hsummary⟩ := hclear.foldl_stepFile _ (fun f hf => (hmem f.1 f.2).mp hf) hdistinct
  rw [foldl_merge_part] at hsummary
  refine ⟨_, _, hwalk, ?_⟩
  rw [hsummary]
  exact
    { distinct := List.pairwise_map.mpr hdistinct
      picked := hmem
      output := hdone.output
      other := fun q hq content => by
        rcases hdone.other q hq with hsame | ⟨hnone, hdirectory, -⟩
        · rw [hsame]
        · rw [hnone, hdirectory]
          simp
      processed := rfl
      changed := rfl
      removedBytes := rfl
      errors := rfl
      total := by
        rw [List.length_map]
        exact length_successes_add_length_failures _ }

/-- What holds of a run from where the output directory has been created holds from the start. -/
theorem Pointwise.of_writes {dirs : Place → Prop} {files : List (List Text × Content)}
    {summary : Summary} {t' : FileTree} (hwrites : t.Writes (fun _ => False) dirs t₁)
    (h : Pointwise s source src w t₁ files summary t') :
    Pointwise s source src w t files summary t' :=
  { h with
    picked := fun below content => (h.picked below content).trans (picked_congr_of_writes hwrites)
    other := fun q hq content => (h.other q hq content).trans (file_iff_of_writes hwrites) }

/-- **Preprocessing a directory is preprocessing its files**, if the output directory can be created
and resolved and is the source directory or a new or empty one that is not above it, no output finds a
directory in its place, and no path is too long. That is asked of the paths of sources and outputs,
and of the absolute paths on the way to every directory that is met. -/
theorem processDirectory_pointwise (h : t.WellFormed) (hkeep : s.config.keepStructure = true)
    (hmaps : s.config.sourceMaps = false) (hsrc : t.locate source = .ok src)
    (hdirectory : t.node? src = some .directory)
    (hmake : t.makeDirectories output = (.ok (), t₁)) (hout : t₁.resolve output = .ok out)
    (hplace : out = src ∨ ¬ out <+: src ∧ t.names out = [])
    (hfree : ∀ below content, Picked s t src ⟨output, out⟩ below content →
      t₁.node? (out ++ below) ≠ some .directory)
    (hshort : ∀ below, Met t₁ src ⟨output, out⟩ below →
      (∃ name ∈ below.getLast?, s.config.picks name = true) →
      byteLength (below.foldl Path.join source) ≤ maxPathBytes)
    (hshortOutput : ∀ below content, Picked s t src ⟨output, out⟩ below content →
      byteLength (below.foldl Path.join output) ≤ maxPathBytes)
    (hresolvable : ∀ below, Met t₁ src ⟨output, out⟩ below → below ≠ [] →
      t₁.isDirectory (below.foldl Path.join source) = true →
      t₁.resolvable (below.foldl Path.join source) = true) :
    ∃ files summary t', (s.processDirectory source output).exec t = (.ok summary, t') ∧
      Pointwise s source src ⟨output, out⟩ t files summary t' := by
  obtain ⟨hlocate, hresolve⟩ := resolve_eq_ok_iff.mp hout
  have hdir : t.isDirectory source = true := by
    rw [isDirectory, hsrc]
    simp [hdirectory]
  have hne : output ≠ [] := by
    rintro rfl
    cases hlocate
  obtain ⟨hlocate', -, hunder⟩ := underway_of_makeDirectories h hdir hne hmake
  obtain ⟨hwrites, -⟩ := h.makeDirectories_leads hne hmake
  obtain rfl : src = t.target source := (eq_of_descend (locate_eq_ok_iff.mp hsrc).2.1).1
  rw [hlocate] at hlocate'
  cases hlocate'
  have hclear : Clear s source (t.target source) ⟨output, t.target output⟩ t₁ :=
    { underway := hunder
      keepStructure := hkeep
      noMaps := hmaps
      place := hplace.imp_right <| And.imp_right fun hnames below content hfile => by
        refine not_file_of_names_eq_nil h hnames (fun c hc => ?_) below content
          ((file_iff_of_writes hwrites).mp hfile)
        have hfile' := (file_iff_of_writes hwrites).mpr hc
        rw [hunder.output.directory] at hfile'
        cases hfile'
      free := fun below content hpicked =>
        hfree below content ((picked_congr_of_writes hwrites).mp hpicked)
      short := hshort
      resolvable := hresolvable
      shortOutput := fun below content hpicked =>
        hshortOutput below content ((picked_congr_of_writes hwrites).mp hpicked) }
  obtain ⟨summary, t', hwalk, hpointwise⟩ := hclear.pointwise_walkFrom
  refine ⟨_, summary, t', ?_, hpointwise.of_writes hwrites⟩
  rw [exec_processDirectory_of_makeDirectories h hdir hne hmake, if_pos hresolve, hwalk]

end Run

/-! ### Some runs -/

/-- A directory with one file. -/
def oneFile : FileTree where
  nodes := .ofList
    [(["s".toList], .directory), (["s".toList, "x.js".toList], .file (.text "x\n".toList))]
  current := []

/-- An output directory inside the source directory, spelled in a roundabout way. -/
def insideOutput : Path := "s/../s/out".toList

theorem processDirectory_pointwise_inside :
    oneFile.WellFormed ∧
      Picked ⟨.empty, .default⟩ oneFile ["s".toList] ⟨insideOutput, ["s".toList, "out".toList]⟩
        ["x.js".toList] (.text "x\n".toList) ∧
      ∃ files summary t', ((⟨.empty, .default⟩ : Setup).processDirectory "s".toList
          insideOutput).exec oneFile = (.ok summary, t') ∧
        Pointwise ⟨.empty, .default⟩ "s".toList ["s".toList]
          ⟨insideOutput, ["s".toList, "out".toList]⟩ oneFile files summary t' := by
  have hpicked : Picked ⟨.empty, .default⟩ oneFile ["s".toList]
      ⟨insideOutput, ["s".toList, "out".toList]⟩ ["x.js".toList] (.text "x\n".toList) :=
    ⟨by decide +kernel, ⟨"x.js".toList, by decide +kernel⟩, by decide +kernel, by decide +kernel⟩
  have hmake : oneFile.makeDirectories insideOutput =
      (.ok (), (oneFile.makeDirectories insideOutput).2) := by decide +kernel
  have hmem {t : FileTree} {below : List Text} (hsome : (t.node? (["s".toList] ++ below)).isSome) :
      ["s".toList] ++ below ∈ t.nodes.keys := (mem_keys_iff (List.cons_ne_nil _ _)).mpr hsome
  refine ⟨by decide +kernel, hpicked, processDirectory_pointwise (by decide +kernel) rfl rfl
    (by decide +kernel) (by decide +kernel) hmake (by decide +kernel) (.inr (by decide +kernel))
    (fun below content h => ?_) (fun below hmet _ => ?_) (fun below content h => ?_)
    fun below hmet _ _ => ?_⟩
  · have hfree : ∀ key ∈ oneFile.nodes.keys, oneFile.node? key ≠ some .directory →
        (oneFile.makeDirectories insideOutput).2.node? (["s".toList, "out".toList] ++ key.tail) ≠
          some .directory := by
      decide +kernel
    exact hfree _ (hmem (by rw [h.file]; rfl)) (by rw [h.file]; simp)
  · have hshort : ∀ key ∈ (oneFile.makeDirectories insideOutput).2.nodes.keys,
        byteLength (key.tail.foldl Path.join "s".toList) ≤ maxPathBytes := by
      decide +kernel
    exact hshort _ (hmem hmet.1)
  · have hshort : ∀ key ∈ oneFile.nodes.keys,
        byteLength (key.tail.foldl Path.join insideOutput) ≤ maxPathBytes := by
      decide +kernel
    exact hshort _ (hmem (by rw [h.file]; rfl))
  · have hresolvable : ∀ key ∈ (oneFile.makeDirectories insideOutput).2.nodes.keys,
        (oneFile.makeDirectories insideOutput).2.resolvable
          (key.tail.foldl Path.join "s".toList) = true := by
      decide +kernel
    exact hresolvable _ (hmem hmet.1)

/-- A directory with an absolute path that is nearly as long as a path can be: it has 4093 bytes. -/
def deepDirectory : Place :=
  List.replicate 16 (List.replicate 63 '😀') ++ [List.replicate 11 '😀']

/-- A directory with a directory and a file, deep down. -/
def deepTree : FileTree where
  nodes := .ofList <|
    (List.range deepDirectory.length).map (fun n => (deepDirectory.take (n + 1), .directory)) ++
    [(deepDirectory ++ ["s".toList], .directory),
     (deepDirectory ++ ["s".toList, "d".toList], .directory),
     (deepDirectory ++ ["s".toList, "x.js".toList], .file (.text "x\n".toList))]
  current := deepDirectory

/-- A source directory `s` and an output directory `o`, as they are spelled. -/
structure SampleRun where
  tree : FileTree
  source : Path
  output : Path

def SampleRun.sourcePlace (r : SampleRun) : Place := r.tree.current ++ ["s".toList]

def SampleRun.outputPlace (r : SampleRun) : Place := r.tree.current ++ ["o".toList]

/-- An output directory that leaves a directory in the place of an output as it is created, one with so
long a path that nothing can be named below it, a source directory with such a path, and one with a
directory whose absolute path is too long. -/
def badRuns : List SampleRun :=
  [⟨oneFile, "s".toList, "o/x.js/../../o".toList⟩,
   ⟨oneFile, "s".toList, 'o' :: List.replicate 4092 '/'⟩,
   ⟨oneFile, 's' :: List.replicate 4092 '/', "o".toList⟩,
   ⟨deepTree, "s".toList, "o".toList⟩]

/-- A run whose output is missing is not what it should be. -/
theorem not_pointwise_of_node {files : List (List Text × Content)} {summary : Summary} {out : Output}
    (hpicked : Picked s t src w below content)
    (hout : s.outcome (below.foldl Path.join source) content = .ok out)
    (hnode : ∀ c, u.node? (w.place ++ below) ≠ some (.file c)) :
    ¬ Pointwise s source src w t files summary u := fun h =>
  hnode _ (h.output (below, content) ((h.picked below content).mpr hpicked) out hout)

section LongPath

-- some of the paths are as long as a path can be, and they are followed character by character
set_option maxRecDepth 100000

/-- **A run can go wrong although its output directory is a new one**: nothing is written if a
directory is in the way or a path is too long. -/
theorem processDirectory_not_pointwise :
    oneFile.WellFormed ∧ deepTree.WellFormed ∧
    ∀ r ∈ badRuns, r.tree.locate r.source = .ok r.sourcePlace ∧
      r.tree.node? r.sourcePlace = some .directory ∧ (r.tree.makeDirectories r.output).1 = .ok () ∧
      (r.tree.makeDirectories r.output).2.resolve r.output = .ok r.outputPlace ∧
      ¬ r.outputPlace <+: r.sourcePlace ∧ r.tree.node? r.outputPlace = none ∧
      ¬ ∃ files summary t', ((⟨.empty, .default⟩ : Setup).processDirectory r.source r.output).exec
          r.tree = (.ok summary, t') ∧
        Pointwise ⟨.empty, .default⟩ r.source r.sourcePlace ⟨r.output, r.outputPlace⟩ r.tree files
          summary t' := by
  have hstart : ∀ r ∈ badRuns, r.tree.locate r.source = .ok r.sourcePlace ∧
      r.tree.node? r.sourcePlace = some .directory ∧ (r.tree.makeDirectories r.output).1 = .ok () ∧
      (r.tree.makeDirectories r.output).2.resolve r.output = .ok r.outputPlace ∧
      ¬ r.outputPlace <+: r.sourcePlace ∧ r.tree.node? r.outputPlace = none := by
    decide +kernel
  have hrun : ∀ r ∈ badRuns,
      r.tree.node? (r.sourcePlace ++ ["x.js".toList]) = some (.file (.text "x\n".toList)) ∧
        ¬ r.outputPlace <+: r.sourcePlace ++ ["x.js".toList] ∧
        (((⟨.empty, .default⟩ : Setup).processDirectory r.source r.output).exec r.tree).2.node?
          (r.outputPlace ++ ["x.js".toList]) ∈ [none, some .directory] := by
    decide +kernel
  refine ⟨by decide +kernel, by decide +kernel, fun r hr => ?_⟩
  obtain ⟨hlocate, hdirectory, hmake, hout, hnotAbove, hnew⟩ := hstart r hr
  refine ⟨hlocate, hdirectory, hmake, hout, hnotAbove, hnew, ?_⟩
  rintro ⟨files, summary, t', hexec, hpointwise⟩
  obtain ⟨hfile, hwalkable, hnode⟩ := hrun r hr
  have hpicked : Picked ⟨.empty, .default⟩ r.tree r.sourcePlace ⟨r.output, r.outputPlace⟩
      ["x.js".toList] (.text "x\n".toList) :=
    ⟨hfile, ⟨"x.js".toList, by decide +kernel⟩, List.prefix_append _ _,
      fun hstarts => absurd hstarts hwalkable⟩
  obtain ⟨out, houtcome⟩ : ∃ out, (⟨.empty, .default⟩ : Setup).outcome
      (["x.js".toList].foldl Path.join r.source) (.text "x\n".toList) = .ok out := ⟨_, rfl⟩
  refine not_pointwise_of_node hpicked houtcome (fun c hfile => ?_) hpointwise
  rw [hexec] at hnode
  change t'.node? (r.outputPlace ++ ["x.js".toList]) = some (.file c) at hfile
  rw [hfile] at hnode
  simp at hnode

end LongPath

end Setup

end ConditionalText.Files
