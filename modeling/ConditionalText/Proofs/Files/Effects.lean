import ConditionalText.Proofs.Files.Writing
import ConditionalText.Proofs.Preprocess.Checked
import ConditionalText.Proofs.SourceMap.Decoding

/-!
# What preprocessing one file does to a tree

`FileTree.Writes` tells at which places work on files may leave something. Here it is told what is
left there, of a single file and on any tree: the way to the output is filled up with directories
(`FileTree.Gains`), the outputs hold their texts, and nothing else changes.

* `standsIn_sourceMap`: the segments of a map stand in the text of the output.
* `gains_makeParent`: creating directories creates them on the way to the output.
* `holds_writeAll`: files written one after another to different places are all there.
* `withMapComment_eq`: the comment that names the map stands behind the text.
* `processFile_effects`: **a source that fails changes nothing; a run that succeeds leaves its
  outputs, and everything else as it was.**
-/

namespace ConditionalText

open ConditionalText.Text

/-- **The segments of the map of an output stand in its text.** -/
theorem standsIn_sourceMap {env : Environment} {source : Text} {out : Output}
    (h : preprocess env source = .ok out) (labels : SourceMap.Labels) :
    ∃ ms, SourceMap.decode (out.sourceMap source labels).mappings = some ms ∧
      ∀ m ∈ ms, m.StandsIn out.text := by
  obtain ⟨p, -, -, rfl, hsettled⟩ := exists_settled_of_preprocess h
  exact SourceMap.standsIn_of_decode fun s hs => (hsettled.leaves.fitsIn_kept s hs).2

namespace Files

namespace FileTree

variable {t t' t'' : FileTree} {p : Path} {dirs : Place → Prop}

/-! ## Directories on the way -/

/-- The places that the way to a path comes by, the last of them where it leads. -/
def OnWay (t : FileTree) (p : Path) (q : Place) : Prop :=
  ∃ cs, cs <+: p.components ∧ q = cs.foldl follow (t.origin p)

theorem onWay_of_mem_ancestors {a : Path} (h : a ∈ p.ancestors) : t.OnWay p (t.target a) := by
  obtain ⟨hcomponents, habsolute⟩ := Path.components_of_mem_ancestors h
  exact ⟨a.components, hcomponents, by rw [target, origin_of_isAbsolute habsolute]⟩

/-- From one tree to another directories appear at some places, where nothing was before; everything
else stays. -/
structure Gains (dirs : Place → Prop) (t t' : FileTree) : Prop where
  current : t'.current = t.current
  node : ∀ q, t'.node? q = t.node? q ∨
    (dirs q ∧ t.node? q = none ∧ t'.node? q = some .directory)

theorem Gains.refl (t : FileTree) : Gains dirs t t :=
  ⟨rfl, fun _ => .inl rfl⟩

theorem Gains.trans (h : Gains dirs t t') (h' : Gains dirs t' t'') : Gains dirs t t'' where
  current := h'.current.trans h.current
  node q := by
    rcases h'.node q with hsame | ⟨hdirs, hnone, hnew⟩
    · rw [hsame]
      exact h.node q
    · rcases h.node q with hsame | ⟨-, -, hthere⟩
      · exact .inr ⟨hdirs, hsame ▸ hnone, hnew⟩
      · rw [hthere] at hnone
        cases hnone

/-- A directory is created where its path leads. -/
theorem gains_of_makeDirectory (h : t.makeDirectory p = .ok t') (hp : dirs (t.target p)) :
    Gains dirs t t' := by
  obtain ⟨cs, name, place, -, hcomponents, hdescend, -, hdot, hdotDot, -, hnone, rfl⟩ :=
    exists_of_makeDirectory h
  have htarget : t.target p = place ++ [name] := by
    rw [target, hcomponents, List.foldl_concat, ← (eq_of_descend hdescend).1,
      follow_of_ne place hdot hdotDot]
  refine ⟨rfl, fun q => ?_⟩
  rw [node?_setNode_concat]
  split
  · next hq =>
    subst hq
    exact .inr ⟨htarget ▸ hp, hnone, rfl⟩
  · exact .inl rfl

/-- Creating directories creates them where their paths lead. -/
theorem gains_makeAncestors {paths : List Path} (h : ∀ p ∈ paths, dirs (t.target p)) :
    Gains dirs t (t.makeAncestors paths).2 := by
  refine makeAncestors_induction (.refl t) fun p hp u u' hgains hmake => ?_
  refine hgains.trans (gains_of_makeDirectory hmake ?_)
  rw [target_congr hgains.current]
  exact h p hp

theorem gains_makeParent {parent : Path} (hparent : p.parent? = some parent) :
    Gains (t.OnWay parent) t (t.makeParent p).2 := by
  rw [makeParent, hparent]
  exact gains_makeAncestors fun a => onWay_of_mem_ancestors

/-! ## Files that have been written -/

/-- A file is written where its path leads, and its path has a file name. -/
theorem eq_setNode_of_write {content : Content} (h : t.write p content = .ok t') :
    (∃ name, p.fileName? = some name) ∧ t.target p ≠ [] ∧
      t' = t.setNode (t.target p) (.file content) := by
  obtain ⟨name, place, -, hlast, hdot, hdotDot, -, htarget, -, -, rfl⟩ := exists_of_write h
  rw [htarget]
  exact ⟨⟨name, Path.fileName?_of_getLast?_components hlast hdot hdotDot⟩, by simp, rfl⟩

theorem writeAll_cons_eq_ok {text : Text} {more : List (Path × Text)}
    (h : t.writeAll ((p, text) :: more) = (.ok (), t')) :
    ∃ u, t.write p (.text text) = .ok u ∧ u.writeAll more = (.ok (), t') := by
  rw [writeAll] at h
  split at h
  · cases h
  · next u hwrite => exact ⟨u, hwrite, h⟩

/-- What is left by writing some files: each of them where its path leads, and the rest as it was. -/
structure Holds (files : List (Path × Text)) (t t' : FileTree) : Prop where
  current : t'.current = t.current
  named : ∀ file ∈ files, ∃ name, Path.fileName? file.1 = some name
  file : ∀ file ∈ files, t'.node? (t.target file.1) = some (.file (.text file.2))
  other : ∀ q, (∀ file ∈ files, q ≠ t.target file.1) → t'.node? q = t.node? q

/-- **Files written one after another to different places are all there.** -/
theorem holds_writeAll {files : List (Path × Text)} (h : t.writeAll files = (.ok (), t'))
    (hapart : (files.map fun file => t.target file.1).Nodup) : Holds files t t' := by
  induction files generalizing t with
  | nil =>
    obtain rfl : t = t' := (Prod.mk.inj h).2
    exact ⟨rfl, by simp, by simp, fun q _ => rfl⟩
  | cons file more ih =>
    obtain ⟨p, text⟩ := file
    obtain ⟨u, hwrite, hmore⟩ := writeAll_cons_eq_ok h
    obtain ⟨hname, hne, rfl⟩ := eq_setNode_of_write hwrite
    have hcurrent : (t.setNode (t.target p) (.file (.text text))).current = t.current := rfl
    rw [List.map_cons, List.nodup_cons] at hapart
    have hrest := ih hmore (by simpa only [target_congr hcurrent] using hapart.2)
    have hlater : ∀ file ∈ more, t.target p ≠ t.target file.1 := fun file hfile heq =>
      hapart.1 (List.mem_map.mpr ⟨file, hfile, heq.symm⟩)
    refine ⟨hrest.current, ?_, ?_, fun q hq => ?_⟩
    · exact List.forall_mem_cons.mpr ⟨hname, hrest.named⟩
    · refine List.forall_mem_cons.mpr ⟨?_, fun file hfile => ?_⟩
      · rw [hrest.other _ fun file hfile => target_congr hcurrent _ ▸ hlater file hfile,
          node?_setNode hne, if_pos rfl]
      · rw [← target_congr hcurrent]
        exact hrest.file file hfile
    · obtain ⟨hq, hqmore⟩ := List.forall_mem_cons.mp hq
      rw [hrest.other q fun file hfile => target_congr hcurrent _ ▸ hqmore file hfile,
        node?_setNode hne, if_neg hq]

end FileTree

/-! ## The comment that names a map -/

/-- The line that names the map of an output, behind the text of the output. -/
def mapLine (text name : Text) : Text :=
  (if text ≠ [] ∧ text.getLast? ≠ some '\n' then ['\n'] else []) ++
    "//# sourceMappingURL=".toList ++ name ++ ".map".toList ++ ['\n']

theorem withMapComment_eq (text name : Text) :
    withMapComment text (name ++ ".map".toList) = text ++ mapLine text name := by
  unfold withMapComment mapLine SourceMap.linkComment
  generalize "//# sourceMappingURL=".toList = link
  generalize ".map".toList = suffix
  cases text with
  | nil => simp
  | cons c text =>
    by_cases hend : (c :: text).getLast? = some '\n'
    · simp [hend]
    · simp [hend]

/-! ## One file -/

namespace Setup

variable {s : Setup} {t t' : FileTree} {source output : Path} {text : Text} {out : Output}

theorem processText_eq_ok_iff :
    s.processText t source = .ok (text, out) ↔
      t.read source = .ok (.text text) ∧ preprocess s.env text = .ok out := by
  unfold processText
  cases t.read source with
  | error e => simp
  | ok content =>
    cases content with
    | binary bytes => simp
    | text source =>
      simp only
      cases hout : preprocess s.env source with
      | error e =>
        simp only [reduceCtorEq, false_iff, not_and, Except.ok.injEq, Content.text.injEq]
        rintro rfl
        rw [hout]
        simp
      | ok result =>
        simp only [Except.ok.injEq, Prod.mk.injEq, Content.text.injEq]
        constructor
        · rintro ⟨rfl, rfl⟩
          exact ⟨rfl, hout⟩
        · rintro ⟨rfl, hresult⟩
          rw [hout] at hresult
          exact ⟨rfl, Except.ok.inj hresult⟩

/-- What it takes to preprocess a file. -/
theorem exists_of_processFile {summary : Summary}
    (h : (s.processFile source output).exec t = (.ok summary, t')) :
    ∃ text out t₁ files, s.processText t source = .ok (text, out) ∧
      t.makeParent output = (.ok (), t₁) ∧ s.outputs source output text out = .ok files ∧
      t₁.writeAll files = (.ok (), t') ∧ summary = summaryOf out := by
  rw [exec_processFile] at h
  split at h
  · cases h
  next text out hprocess =>
  split at h
  · cases h
  next t₁ hparent =>
  split at h
  · cases h
  next files hfiles =>
  split at h
  · cases h
  next t₂ hwritten =>
  obtain ⟨hsummary, rfl⟩ := Prod.mk.inj h
  exact ⟨text, out, t₁, files, hprocess, hparent, hfiles, hwritten, (Except.ok.inj hsummary).symm⟩

/-! ### The files that are written -/

/-- The text of an output's file. -/
def written (s : Setup) (out : Output) (name : Text) : Text :=
  if s.config.sourceMaps then out.text ++ mapLine out.text name else out.text

/-- The map of an output that comes from a source. -/
def mapOf (s : Setup) (source : Path) (text : Text) (out : Output) (name : Text) : SourceMap :=
  out.sourceMap text
    { file := some name, sourceName := source, includeContent := s.config.embedSources }

theorem isPrefix_written (s : Setup) (out : Output) (name : Text) :
    out.text <+: s.written out name := by
  unfold written
  split
  · exact List.prefix_append _ _
  · exact List.prefix_refl _

theorem outputs_of_fileName? {name : Text} (h : output.fileName? = some name) :
    s.outputs source output text out = .ok
      (if s.config.sourceMaps then
        [(output.withFileName (name ++ ".map".toList), (s.mapOf source text out name).toJson),
          (output, s.written out name)]
      else [(output, s.written out name)]) := by
  unfold outputs written
  split
  · rw [fileName, h, ← withMapComment_eq]
    rfl
  · rfl

/-- An output and its map stand in one directory. -/
theorem target_of_fileName? {name : Text} (h : output.fileName? = some name) (t : FileTree) :
    ∃ parent, output.parent? = some parent ∧ t.target output = t.target parent ++ [name] ∧
      t.target (output.withFileName (name ++ ".map".toList)) =
        t.target parent ++ [name ++ ".map".toList] := by
  obtain ⟨parent, gap, behind, hparent, hparted, hdot, hdotDot⟩ :=
    Path.exists_parted_of_fileName? h
  refine ⟨parent, hparent, ?_, ?_⟩
  · rw [FileTree.target_of_parted hparted, FileTree.follow_of_ne _ hdot hdotDot]
  · rw [Path.withFileName_eq h hparent, FileTree.target_join (Path.isPlain_mapName h)]

/-- No output is written over another one. -/
theorem nodup_outputs {files : List (Path × Text)}
    (h : s.outputs source output text out = .ok files) (t : FileTree) :
    (files.map fun file => t.target file.1).Nodup := by
  have hmap : files.map (fun file => t.target file.1) = (s.outputPaths output).map t.target := by
    rw [← map_fst_outputs h, List.map_map]
    rfl
  rw [hmap, outputPaths]
  split
  · split
    · exact List.nodup_nil
    · next name hname =>
      obtain ⟨parent, -, houtput, hmapped⟩ := target_of_fileName? hname t
      rw [List.map_cons, List.map_cons, houtput, hmapped]
      simp
  · simp

/-- What a preprocessed file leaves: its text where the output is to stand and, if asked for, its map
beside it; directories on the way to them where nothing was; and everything else as it was. -/
structure Leaves (s : Setup) (source : Path) (text : Text) (out : Output) (parent : Path)
    (name : Text) (t t' : FileTree) : Prop where
  current : t'.current = t.current
  output : t'.node? (t.target parent ++ [name]) = some (.file (.text (s.written out name)))
  map : s.config.sourceMaps = true →
    t'.node? (t.target parent ++ [name ++ ".map".toList]) =
      some (.file (.text (s.mapOf source text out name).toJson))
  other : ∀ q, q ≠ t.target parent ++ [name] →
    (s.config.sourceMaps = true → q ≠ t.target parent ++ [name ++ ".map".toList]) →
    t'.node? q = t.node? q ∨
      (t.OnWay parent q ∧ t.node? q = none ∧ t'.node? q = some .directory)

/-- **Every run that succeeds leaves its outputs and nothing else.** -/
theorem leaves_of_processFile {summary : Summary}
    (h : (s.processFile source output).exec t = (.ok summary, t')) :
    ∃ text out parent name, t.read source = .ok (.text text) ∧ preprocess s.env text = .ok out ∧
      output.parent? = some parent ∧ output.fileName? = some name ∧
      s.Leaves source text out parent name t t' ∧ summary = summaryOf out := by
  obtain ⟨text, out, t₁, files, hprocess, hmake, hfiles, hwritten, hsummary⟩ :=
    exists_of_processFile h
  obtain ⟨hread, hout⟩ := processText_eq_ok_iff.mp hprocess
  have hholds := FileTree.holds_writeAll hwritten (nodup_outputs hfiles t₁)
  have hnamed : ∃ name, output.fileName? = some name := by
    unfold outputs at hfiles
    split at hfiles
    · unfold fileName at hfiles
      split at hfiles
      · next name hname => exact ⟨name, hname⟩
      · cases hfiles
    · cases hfiles
      exact hholds.named _ List.mem_cons_self
  obtain ⟨name, hname⟩ := hnamed
  obtain ⟨parent, hparent, houtput, hmap⟩ := target_of_fileName? hname t
  have hgains := FileTree.gains_makeParent hparent (t := t)
  rw [hmake] at hgains
  obtain rfl : _ = files := Except.ok.inj ((outputs_of_fileName? hname).symm.trans hfiles)
  have hplace (p : Path) : t₁.target p = t.target p := FileTree.target_congr hgains.current p
  refine ⟨text, out, parent, name, hread, hout, hparent, hname, ?_, hsummary⟩
  refine ⟨hholds.current.trans hgains.current, ?_, fun hmaps => ?_, fun q hq hqmap => ?_⟩
  · rw [← houtput, ← hplace]
    exact hholds.file (output, s.written out name) (by split <;> simp)
  · rw [← hmap, ← hplace]
    exact hholds.file (_, _) (by rw [if_pos hmaps]; exact List.mem_cons_self)
  · rw [hholds.other q ?_]
    · exact hgains.node q
    · intro file hfile
      rw [hplace]
      split at hfile
      · next hmaps =>
        rcases List.mem_cons.mp hfile with rfl | hfile
        · rw [hmap]
          exact hqmap hmaps
        · rw [List.mem_singleton.mp hfile, houtput]
          exact hq
      · rw [List.mem_singleton.mp hfile, houtput]
        exact hq

/-- **What preprocessing a file does, on every tree and with any paths.** If the source cannot be
read as a text, or its text cannot be preprocessed, that is the error and the tree is the same.
Whenever a summary is returned, the source has been preprocessed, and its outputs are all that has
changed but for directories on the way to them. The file of the output starts with the text, and
every segment of the map stands at a character of the file. The summary counts one file, and it
counts it as changed if bytes have been removed. -/
theorem processFile_effects (s : Setup) (source output : Path) (t : FileTree) :
    (∀ e, t.read source = .error e →
      (s.processFile source output).exec t = (.error (.read source (.os e)), t)) ∧
    (∀ bytes, t.read source = .ok (.binary bytes) →
      (s.processFile source output).exec t = (.error (.read source .notUtf8), t)) ∧
    (∀ text e, t.read source = .ok (.text text) → preprocess s.env text = .error e →
      (s.processFile source output).exec t =
        (.error (.preprocess source (Text.locate text e.offset) e), t)) ∧
    ∀ summary t', (s.processFile source output).exec t = (.ok summary, t') →
      ∃ text out parent name, t.read source = .ok (.text text) ∧
        preprocess s.env text = .ok out ∧ output.parent? = some parent ∧
        output.fileName? = some name ∧ s.Leaves source text out parent name t t' ∧
        out.text <+: s.written out name ∧
        (∃ ms, SourceMap.decode (s.mapOf source text out name).mappings = some ms ∧
          ∀ m ∈ ms, m.StandsIn (s.written out name)) ∧
        summary.processed = 1 ∧ summary.errors = [] ∧
        summary.removedBytes + byteLength out.text = byteLength text ∧
        summary.changed = if 0 < summary.removedBytes then 1 else 0 := by
  have hfailed {e : FileError} (h : s.processText t source = .error e) :
      (s.processFile source output).exec t = (.error e, t) := by
    rw [exec_processFile, h]
  refine ⟨fun e hread => hfailed ?_, fun bytes hread => hfailed ?_,
    fun text e hread hout => hfailed ?_, fun summary t' h => ?_⟩
  · rw [processText, hread]
  · rw [processText, hread]
  · simp only [processText, hread, hout]
  · obtain ⟨text, out, parent, name, hread, hout, hparent, hname, hleaves, rfl⟩ :=
      leaves_of_processFile h
    obtain ⟨ms, hdecode, hstands⟩ := standsIn_sourceMap hout
      { file := some name, sourceName := source, includeContent := s.config.embedSources }
    have hstarts := s.isPrefix_written out name
    refine ⟨text, out, parent, name, hread, hout, hparent, hname, hleaves, hstarts,
      ⟨ms, hdecode, fun m hm => (hstands m hm).mono hstarts⟩, rfl, rfl, removedBytes_add hout, ?_⟩
    by_cases hzero : out.removedBytes = 0
    · simp [summaryOf, Output.isUnchanged, hzero]
    · simp [summaryOf, Output.isUnchanged, hzero, Nat.pos_of_ne_zero hzero]

/-- An output may be its own source, and the way to it may lead through what has to be created. -/
example :
    let s : Setup := ⟨.empty, { Config.default with sourceMaps := true }⟩
    let t : FileTree := ⟨.ofList [(["a".toList], .file (.text "b".toList))], []⟩
    let t' := ((s.processFile "a".toList "o/../a".toList).exec t).2
    t'.nodes.keys = [["a".toList], ["a.map".toList], ["o".toList]] ∧
      t'.node? ["a".toList] =
        some (.file (.text "b\n//# sourceMappingURL=a.map\n".toList)) := by
  decide +kernel

end Setup

end Files

end ConditionalText
