import ConditionalText.Files.Processing
import ConditionalText.Proofs.Files.Directories

/-!
# What work on files leaves

Preprocessing a file writes a few files and creates the directories above them; everything else
stays as it was. `FileTree.Writes` says so of two trees, and what each piece of work writes is told
by where its paths lead (`FileTree.target`).

* `Writes.trans`: work after work.
* `WellFormed.makeDirectories_writes`, `WellFormed.write_writes`: the two ways in which a tree
  changes.
* `exec_processFile`: preprocessing a file step by step, and `processFile_writes`: what it writes.
-/

namespace ConditionalText.Files

open ConditionalText.Text

namespace FileTree

variable {t t' t'' : FileTree} {p : Path} {place q : Place} {cs ds : List Text} {c : Text}

/-! ## Where paths lead -/

/-- Where a path leads, whether or not anything is there. -/
def target (t : FileTree) (p : Path) : Place :=
  p.components.foldl follow (t.origin p)

theorem foldl_follow_dots (place : Place) (hcs : ∀ c ∈ cs, c = dot) :
    cs.foldl follow place = place := by
  induction cs with
  | nil => rfl
  | cons c cs ih =>
    rw [List.foldl_cons, follow, if_pos (hcs c List.mem_cons_self)]
    exact ih fun d hd => hcs d (List.mem_cons_of_mem c hd)

/-- A way that does not go up leads further and further. -/
theorem isPrefix_foldl_follow (place : Place) (hcs : dotDot ∉ cs) :
    place <+: cs.foldl follow place := by
  induction cs generalizing place with
  | nil => exact List.prefix_refl place
  | cons c cs ih =>
    have hc : c ≠ dotDot := fun hc => hcs (hc ▸ List.mem_cons_self)
    have hmore : dotDot ∉ cs := fun hmem => hcs (List.mem_cons_of_mem c hmem)
    refine List.IsPrefix.trans ?_ (ih (follow place c) hmore)
    by_cases hdot : c = dot
    · simp [follow, hdot]
    · rw [follow_of_ne place hdot hc]
      exact List.prefix_append place [c]

theorem foldl_follow_isPrefix (place : Place) (hds : dotDot ∉ ds) (h : cs <+: ds) :
    cs.foldl follow place <+: ds.foldl follow place := by
  obtain ⟨more, rfl⟩ := h
  rw [List.foldl_append]
  exact isPrefix_foldl_follow _ fun hmem => hds (List.mem_append_right _ hmem)

theorem origin_congr (h : t'.current = t.current) (p : Path) : t'.origin p = t.origin p := by
  rw [origin, origin, h]

theorem resolvable_congr (h : t'.current = t.current) (p : Path) :
    t'.resolvable p = t.resolvable p := by
  rw [resolvable, resolvable, origin_congr h]

theorem target_congr (h : t'.current = t.current) (p : Path) : t'.target p = t.target p := by
  rw [target, target, origin_congr h]

theorem origin_of_isAbsolute {p' : Path} (h : p'.isAbsolute = p.isAbsolute) :
    t.origin p' = t.origin p := by
  rw [origin, origin, h]

/-- A path leads where its parent leads and then to its last component. -/
theorem target_of_parted {parent : Path} {gap behind : List Text} {last : Text}
    (h : Path.Parted p parent gap last behind) : t.target p = follow (t.target parent) last := by
  rw [target, target, origin_of_isAbsolute h.isAbsolute, h.components, List.foldl_append,
    List.foldl_append, List.foldl_cons, foldl_follow_dots _ h.gapDots,
    foldl_follow_dots _ h.behindDots]

/-- A path that does not go up leads below its parent. -/
theorem target_parent_isPrefix {parent : Path} (hp : dotDot ∉ p.components)
    (hparent : p.parent? = some parent) : t.target parent <+: t.target p := by
  obtain ⟨gap, last, behind, hparted⟩ := Path.exists_parted hparent
  rw [target, target, origin_of_isAbsolute hparted.isAbsolute]
  refine foldl_follow_isPrefix _ hp ?_
  rw [hparted.components, List.append_assoc]
  exact List.prefix_append _ _

theorem target_join {name : Text} (hname : Path.IsPlain name) (p : Path) :
    t.target (p.join name) = t.target p ++ [name] := by
  rw [target, target, origin_of_isAbsolute (hname.isAbsolute_join p), hname.components_join,
    List.foldl_concat, follow_of_ne _ hname.notDot hname.notDotDot]

/-! ## Writing -/

/-- From one tree to another files are written at some places and directories appear at others;
everything else stays. -/
structure Writes (files dirs : Place → Prop) (t t' : FileTree) : Prop where
  wellFormed : t'.WellFormed
  current : t'.current = t.current
  node : ∀ q, t'.node? q = t.node? q ∨
    (files q ∧ t.node? q ≠ some .directory ∧ ∃ content, t'.node? q = some (.file content)) ∨
    (dirs q ∧ t.node? q = none ∧ t'.node? q = some .directory)

variable {files files' dirs dirs' : Place → Prop}

theorem WellFormed.writes_refl (h : t.WellFormed) : Writes files dirs t t :=
  ⟨h, rfl, fun _ => .inl rfl⟩

theorem Writes.mono (h : Writes files dirs t t') (hfiles : ∀ q, files q → files' q)
    (hdirs : ∀ q, dirs q → dirs' q) : Writes files' dirs' t t' where
  wellFormed := h.wellFormed
  current := h.current
  node q := (h.node q).imp_right <| Or.imp (And.imp_left (hfiles q)) (And.imp_left (hdirs q))

/-- Directories stay. -/
theorem Writes.directory (h : Writes files dirs t t') (hq : t.node? q = some .directory) :
    t'.node? q = some .directory := by
  rcases h.node q with hsame | ⟨-, hne, -⟩ | ⟨-, hnone, -⟩
  · rw [hsame, hq]
  · exact absurd hq hne
  · rw [hq] at hnone
    cases hnone

/-- Nothing disappears. -/
theorem Writes.eq_none (h : Writes files dirs t t') (hq : t'.node? q = none) :
    t.node? q = none := by
  rcases h.node q with hsame | ⟨-, -, content, hfile⟩ | ⟨-, -, hdirectory⟩
  · rw [← hsame, hq]
  · rw [hq] at hfile
    cases hfile
  · rw [hq] at hdirectory
    cases hdirectory

/-- **Work after work writes what either of them writes.** -/
theorem Writes.trans (h : Writes files dirs t t') (h' : Writes files dirs t' t'') :
    Writes files dirs t t'' where
  wellFormed := h'.wellFormed
  current := h'.current.trans h.current
  node q := by
    rcases h'.node q with hsame | ⟨hfiles, hne, hfile⟩ | ⟨hdirs, hnone, hdirectory⟩
    · rw [hsame]
      exact h.node q
    · refine .inr (.inl ⟨hfiles, fun hq => hne (h.directory hq), hfile⟩)
    · exact .inr (.inr ⟨hdirs, h.eq_none hnone, hdirectory⟩)

/-- A path that cannot be followed at all has no directories to be created. -/
theorem makeDirectories_of_checkPath {e : OsError} (hcheck : checkPath p = .error e) :
    t.makeDirectories p = (if p.isEmpty then .ok () else .error e, t) := by
  by_cases hp : p = []
  · subst hp
    rfl
  · have hne : p.isEmpty = false := by simpa using hp
    have hmake : t.makeDirectory p = .error e := by
      rw [makeDirectory, locateLast, hcheck]
      rfl
    have hnot : t.isDirectory p = false := by
      rw [isDirectory, locate, hcheck]
      rfl
    have he : e ≠ .notFound := by
      rintro rfl
      rw [checkPath, hne] at hcheck
      split at hcheck
      · cases hcheck
      · split at hcheck
        · cases hcheck
        · cases hcheck
    rw [makeDirectories, Path.ancestors, hne]
    simp only [Bool.false_eq_true, if_false]
    rw [makeAncestors_of_ne_notFound (by rw [hmake]; simpa using he), attempt, hmake, hnot]
    rfl

theorem spelled_of_append (h : Spelled (cs ++ ds)) : Spelled ds :=
  fun d hd => h d (List.mem_append_right cs hd)

theorem Forward.target_eq (hdescend : t.descend (t.origin p) cs = .ok q)
    (hcomponents : p.components = cs ++ ds) : t.target p = ds.foldl follow q := by
  rw [target, hcomponents, List.foldl_append, (eq_of_descend hdescend).1]

/-- Creating directories creates them on the way. -/
theorem WellFormed.makeDirectories_writes (h : t.WellFormed)
    (hforward : t.Forward (t.origin p) p.components) :
    Writes (fun _ => False) (· <+: t.target p) t (t.makeDirectories p).2 := by
  cases hcheck : checkPath p with
  | error e =>
    rw [makeDirectories_of_checkPath hcheck]
    exact h.writes_refl
  | ok _ =>
    rw [h.makeDirectories_eq hforward hcheck]
    obtain ⟨existing, more, q, hcomponents, hdescend, hq, hmore⟩ := hforward
    have hspelled : Spelled more := by
      have := spelled_components hcheck
      rw [hcomponents] at this
      exact spelled_of_append this
    rw [Forward.target_eq hdescend hcomponents, hcomponents, makeAlong_append hdescend hq]
    refine ⟨h.makeAlong hq hspelled, current_makeAlong t q more, fun r => ?_⟩
    rcases h.node?_makeAlong hq hspelled r with hsame | ⟨hnone, hnew, before, hbefore, rfl⟩
    · exact .inl hsame
    · exact .inr (.inr ⟨foldl_follow_isPrefix q hmore hbefore, hnone, hnew⟩)

/-- What it takes to create a directory. -/
theorem exists_of_makeDirectory (h : t.makeDirectory p = .ok t') :
    ∃ cs name place, checkPath p = .ok () ∧ p.components = cs ++ [name] ∧
      t.descend (t.origin p) cs = .ok place ∧ t.node? place = some .directory ∧ name ≠ dot ∧
      name ≠ dotDot ∧ byteLength name ≤ maxNameBytes ∧ t.node? (place ++ [name]) = none ∧
      t' = t.setNode (place ++ [name]) .directory := by
  cases hcheck : checkPath p with
  | error e =>
    rw [makeDirectory, locateLast, hcheck] at h
    cases h
  | ok _ =>
    rcases List.eq_nil_or_concat' p.components with hnil | ⟨cs, name, hcomponents⟩
    · rw [makeDirectory, locateLast, hcheck, hnil] at h
      cases h
    · rw [makeDirectory_of_components hcheck hcomponents] at h
      cases hdescend : t.descend (t.origin p) cs with
      | error e =>
        rw [hdescend] at h
        cases h
      | ok place =>
        rw [hdescend] at h
        simp only [Except.bind] at h
        split at h
        · next hplace =>
          split at h
          · cases h
          next hlast =>
          rw [not_or] at hlast
          split at h
          · cases h
          next hshort =>
          split at h
          · cases h
          next hnone =>
          cases h
          exact ⟨cs, name, place, rfl, hcomponents, hdescend, hplace, hlast.1, hlast.2,
            Nat.not_lt.mp hshort, by simpa using hnone, rfl⟩
        · cases h

/-- Creating a directory creates that directory, and the path leads to it. -/
theorem WellFormed.makeDirectory_writes (h : t.WellFormed) (hmake : t.makeDirectory p = .ok t') :
    Writes (fun _ => False) (fun _ => True) t t' ∧ t'.isDirectory p = true := by
  obtain ⟨cs, name, place, hcheck, hcomponents, hdescend, hplace, hdot, hdotDot, hshort, hnone,
    rfl⟩ :=
    exists_of_makeDirectory hmake
  obtain ⟨hne, hslash, hzero⟩ := spelled_components hcheck name (by simp [hcomponents])
  have hwrites : Writes (fun _ => False) (fun _ => True) t
      (t.setNode (place ++ [name]) .directory) := by
    refine ⟨h.setNode hplace ⟨hne, hslash, hzero, hdot, hdotDot, hshort⟩ fun _ => rfl, rfl,
      fun q => ?_⟩
    rw [node?_setNode_concat]
    split
    · next hq => exact .inr (.inr ⟨trivial, hq ▸ hnone, rfl⟩)
    · exact .inl rfl
  have hnode : (t.setNode (place ++ [name]) .directory).node? (place ++ [name]) =
      some .directory := by rw [node?_setNode_concat, if_pos rfl]
  refine ⟨hwrites, isDirectory_iff.mpr ⟨place ++ [name], hcheck, ?_, hnode⟩⟩
  have hway := descend_mono (fun _ => hwrites.directory) hdescend hplace
  rw [hcomponents, descend_append, origin_congr hwrites.current, hway]
  change (t.setNode (place ++ [name]) .directory).descend place [name] = _
  rw [descend_cons (hwrites.directory hplace) hshort, follow_of_ne place hdot hdotDot]
  exact descend_nil_eq_ok (by rw [hnode]; rfl)

/-- Creating directories creates nothing else. -/
theorem WellFormed.makeAncestors_writes (h : t.WellFormed) (paths : List Path) :
    Writes (fun _ => False) (fun _ => True) t (t.makeAncestors paths).2 :=
  makeAncestors_induction h.writes_refl fun _ _ _ _ hwrites hmake =>
    hwrites.trans (hwrites.wellFormed.makeDirectory_writes hmake).1

/-- If creating directories succeeds, the first path leads to one. -/
theorem WellFormed.isDirectory_of_makeAncestors (h : t.WellFormed) {above : List Path}
    (hok : (t.makeAncestors (p :: above)).1 = .ok ()) :
    (t.makeAncestors (p :: above)).2.isDirectory p = true := by
  -- one attempt, after the directories above
  have hattempt {u : FileTree} (hu : u.WellFormed) (hok : (u.attempt p).1 = .ok ()) :
      (u.attempt p).2.isDirectory p = true := by
    rw [attempt] at hok ⊢
    cases hmake : u.makeDirectory p with
    | ok u' => exact (hu.makeDirectory_writes hmake).2
    | error e =>
      cases hdir : u.isDirectory p with
      | true => rfl
      | false => simp [hmake, hdir] at hok
  by_cases hmissing : t.makeDirectory p = .error .notFound
  · have hwrites := h.makeAncestors_writes above
    rw [makeAncestors_of_notFound hmissing] at hok ⊢
    rcases habove : t.makeAncestors above with ⟨e | _, t₁⟩
    · rw [habove] at hok
      cases hok
    · rw [habove] at hok hwrites
      exact hattempt hwrites.wellFormed hok
  · rw [makeAncestors_of_ne_notFound hmissing] at hok ⊢
    exact hattempt h hok

/-- If the directories on the way to a path have been created, it leads to a directory. -/
theorem WellFormed.makeDirectories_leads (h : t.WellFormed) (hp : p ≠ [])
    (hok : t.makeDirectories p = (.ok (), t')) :
    Writes (fun _ => False) (fun _ => True) t t' ∧ t'.Leads p (t.target p) := by
  have hne : p.isEmpty = false := by simpa using hp
  have hfirst : ∃ above, p.ancestors = p :: above := by
    rw [Path.ancestors, hne]
    exact ⟨_, rfl⟩
  obtain ⟨above, habove⟩ := hfirst
  rw [makeDirectories, habove] at hok
  have hwrites := h.makeAncestors_writes (p :: above)
  have hdirectory := h.isDirectory_of_makeAncestors (congrArg Prod.fst hok)
  rw [hok] at hwrites hdirectory
  obtain ⟨place, hleads⟩ := leads_of_isDirectory hdirectory
  have hplace := (eq_of_descend hleads.descend).1
  rw [origin_congr hwrites.current] at hplace
  rw [target, ← hplace]
  exact ⟨hwrites, hleads⟩

theorem write_of_components (hcheck : checkPath p = .ok ()) (hcomponents : p.components = cs ++ [c])
    (content : Content) :
    t.write p content =
      (t.descend (t.origin p) cs).bind fun place =>
        if t.node? place = some .directory then
          if c = dot ∨ c = dotDot ∨ p.endsInSlash then .error .isADirectory
          else if maxNameBytes < byteLength c then .error .nameTooLong
          else if t.node? (place ++ [c]) = some .directory then .error .isADirectory
          else .ok (t.setNode (place ++ [c]) (.file content))
        else .error .notADirectory := by
  rw [write, locateLast_of_components hcheck hcomponents]
  cases t.descend (t.origin p) cs with
  | error e => rfl
  | ok place =>
    simp only [Except.bind]
    by_cases hnode : t.node? place = some .directory
    · simp only [if_pos hnode]
    · simp only [if_neg hnode]

/-- A file is written in a directory unless a directory is in its place. -/
theorem Leads.write_join {name : Text} (h : t.Leads p place) (hname : IsName name)
    (hshort : byteLength (p.join name) ≤ maxPathBytes)
    (hnode : t.node? (place ++ [name]) ≠ some .directory) (content : Content) :
    t.write (p.join name) content = .ok (t.setNode (place ++ [name]) (.file content)) := by
  rw [write_of_components (h.checkPath_join hname hshort) (Path.components_join_name p hname),
    origin_join h.nonempty hname, h.descend]
  simp only [Except.bind, if_pos h.directory, Path.endsInSlash_join_name p hname,
    if_neg (Nat.not_lt.mpr hname.short), if_neg hnode]
  rw [if_neg]
  rintro (hdot | hdotDot | hslash)
  · exact hname.notDot hdot
  · exact hname.notDotDot hdotDot
  · cases hslash

/-- What it takes to write a file. -/
theorem exists_of_write {content : Content} (h : t.write p content = .ok t') :
    ∃ name place, checkPath p = .ok () ∧ p.components.getLast? = some name ∧ name ≠ dot ∧
      name ≠ dotDot ∧ byteLength name ≤ maxNameBytes ∧ t.target p = place ++ [name] ∧
      t.node? place = some .directory ∧ t.node? (place ++ [name]) ≠ some .directory ∧
      t' = t.setNode (place ++ [name]) (.file content) := by
  cases hcheck : checkPath p with
  | error e =>
    rw [write, locateLast, hcheck] at h
    cases h
  | ok _ =>
    rcases List.eq_nil_or_concat' p.components with hnil | ⟨cs, name, hcomponents⟩
    · rw [write, locateLast, hcheck, hnil] at h
      cases h
    · rw [write_of_components hcheck hcomponents] at h
      cases hdescend : t.descend (t.origin p) cs with
      | error e =>
        rw [hdescend] at h
        cases h
      | ok place =>
        rw [hdescend] at h
        simp only [Except.bind] at h
        split at h
        · next hplace =>
          split at h
          · cases h
          next hlast =>
          rw [not_or, not_or] at hlast
          split at h
          · cases h
          next hshort =>
          split at h
          · cases h
          next hnode =>
          cases h
          refine ⟨name, place, rfl, by simp [hcomponents], hlast.1, hlast.2.1, Nat.not_lt.mp hshort,
            ?_, hplace, hnode, rfl⟩
          rw [target, hcomponents, List.foldl_concat, ← (eq_of_descend hdescend).1,
            follow_of_ne place hlast.1 hlast.2.1]
        · cases h

/-- Writing a file writes that file. -/
theorem WellFormed.write_writes (h : t.WellFormed) {content : Content}
    (hwrite : t.write p content = .ok t') :
    Writes (· = t.target p) (fun _ => False) t t' := by
  obtain ⟨name, place, hcheck, hlast, hdot, hdotDot, hshort, htarget, hplace, hnode, rfl⟩ :=
    exists_of_write hwrite
  obtain ⟨hne, hslash, hzero⟩ := spelled_components hcheck name (List.mem_of_getLast? hlast)
  refine ⟨h.setNode hplace ⟨hne, hslash, hzero, hdot, hdotDot, hshort⟩ fun hdir => absurd hdir hnode,
    rfl, fun q => ?_⟩
  rw [node?_setNode_concat, htarget]
  split
  · next hq =>
    refine .inr (.inl ⟨hq, ?_, content, rfl⟩)
    rw [hq]
    exact hnode
  · exact .inl rfl

/-- Makes sure that there is a directory for an output. -/
def makeParent (t : FileTree) (output : Path) : Except OsError Unit × FileTree :=
  match output.parent? with
  | none => (.ok (), t)
  | some parent => t.makeDirectories parent

/-- Writes files one after another. -/
def writeAll (t : FileTree) : List (Path × Text) → Except OsError Unit × FileTree
  | [] => (.ok (), t)
  | (p, text) :: more =>
    match t.write p (.text text) with
    | .error e => (.error e, t)
    | .ok t' => t'.writeAll more

theorem WellFormed.writeAll_writes (h : t.WellFormed) (outputs : List (Path × Text)) :
    Writes (fun q => ∃ output ∈ outputs, q = t.target output.1) (fun _ => False) t
      (t.writeAll outputs).2 := by
  induction outputs generalizing t with
  | nil => exact h.writes_refl
  | cons output more ih =>
    obtain ⟨p, text⟩ := output
    rw [writeAll]
    split
    · exact h.writes_refl
    · next t' hwrite =>
      have hfirst := h.write_writes hwrite
      refine (hfirst.mono (fun q hq => ⟨_, List.mem_cons_self, hq⟩) (fun _ => id)).trans
        ((ih hfirst.wellFormed).mono ?_ fun _ => id)
      rintro q ⟨output, houtput, rfl⟩
      exact ⟨output, List.mem_cons_of_mem _ houtput, target_congr hfirst.current _⟩

theorem Forward.of_parent (h : t.Forward (t.origin p) p.components) {parent : Path}
    (hparent : p.parent? = some parent) : t.Forward (t.origin parent) parent.components := by
  obtain ⟨gap, last, behind, hparted⟩ := Path.exists_parted hparent
  have horigin : t.origin parent = t.origin p := by rw [origin, origin, hparted.isAbsolute]
  rw [horigin]
  refine h.of_isPrefix ?_
  rw [hparted.components, List.append_assoc]
  exact List.prefix_append _ _

/-- If the directory of an output has been created, it is there. -/
theorem WellFormed.directory_of_makeParent (h : t.WellFormed) {parent : Path}
    (hparent : p.parent? = some parent) (hok : t.makeParent p = (.ok (), t')) :
    t'.node? (t.target parent) = some .directory := by
  have hok : t.makeDirectories parent = (.ok (), t') := by rwa [makeParent, hparent] at hok
  cases hcheck : checkPath parent with
  | error e =>
    rw [makeDirectories_of_checkPath hcheck] at hok
    obtain ⟨hresult, rfl⟩ := Prod.mk.inj hok
    split at hresult
    · next hempty =>
      rw [List.isEmpty_iff.mp hempty]
      exact h.node?_origin []
    · cases hresult
  | ok _ =>
    exact (h.makeDirectories_leads (checkPath_eq_ok_iff.mp hcheck).2.2 hok).2.directory

theorem WellFormed.makeParent_writes (h : t.WellFormed)
    (hforward : t.Forward (t.origin p) p.components) :
    Writes (fun _ => False) (fun q => ∃ parent, p.parent? = some parent ∧ q <+: t.target parent) t
      (t.makeParent p).2 := by
  rw [makeParent]
  split
  · exact h.writes_refl
  · next parent hparent =>
    exact (h.makeDirectories_writes (hforward.of_parent hparent)).mono (fun _ => id)
      fun q hq => ⟨parent, hparent, hq⟩

end FileTree

/-! ## Actions -/

namespace Action

variable {α β : Type}

/-- What an action comes to on a tree, and the tree it leaves. -/
def exec (a : Action α) (t : FileTree) : Except FileError α × FileTree :=
  a.run.run t

theorem exec_bind (a : Action α) (f : α → Action β) (t : FileTree) :
    (a >>= f).exec t =
      match a.exec t with
      | (.ok x, t') => (f x).exec t'
      | (.error e, t') => (.error e, t') := by
  change (match a.exec t with | (r, t') => (ExceptT.bindCont f r : StateM FileTree _) t') = _
  rcases a.exec t with ⟨e | x, t'⟩
  · rfl
  · rfl

@[simp] theorem exec_pure (x : α) (t : FileTree) : (pure x : Action α).exec t = (.ok x, t) := rfl

@[simp] theorem exec_get (t : FileTree) : (get : Action FileTree).exec t = (.ok t, t) := rfl

@[simp] theorem exec_set (t t' : FileTree) : (set t' : Action PUnit).exec t = (.ok (), t') := rfl

@[simp] theorem exec_throw (e : FileError) (t : FileTree) :
    (throw e : Action α).exec t = (.error e, t) := rfl

@[simp] theorem exec_ofExcept (r : Except FileError α) (t : FileTree) :
    (ofExcept r).exec t = (r, t) := rfl

theorem exec_tryCatch (a : Action α) (handle : FileError → Action α) (t : FileTree) :
    (tryCatch a handle).exec t =
      match a.exec t with
      | (.ok x, t') => (.ok x, t')
      | (.error e, t') => (handle e).exec t' := by
  unfold exec
  rw [ExceptT.run_tryCatch, StateT.run_bind]
  rcases StateT.run a.run t with ⟨e | x, t'⟩
  · rfl
  · rfl

theorem exec_makeDirectories (p : Path) (t : FileTree) :
    (makeDirectories p).exec t =
      match t.makeDirectories p with
      | (.ok (), t') => (.ok (), t')
      | (.error e, t') => (.error (.os e), t') := by
  rw [makeDirectories, exec_bind, exec_get]
  rcases h : t.makeDirectories p with ⟨e | _, t'⟩
  · simp only [h, exec_bind, exec_set, exec_throw]
  · simp only [h, exec_bind, exec_set, exec_pure]

theorem exec_resolve (p : Path) (t : FileTree) :
    (resolve p).exec t =
      match t.resolve p with
      | .ok place => (.ok place, t)
      | .error e => (.error (.os e), t) := by
  rw [resolve, exec_bind, exec_get]
  cases h : t.resolve p with
  | error e => simp only [h, exec_throw]
  | ok place => simp only [h, exec_pure]

theorem exec_writeFile (p : Path) (text : Text) (t : FileTree) :
    (writeFile p text).exec t =
      match t.write p (.text text) with
      | .ok t' => (.ok (), t')
      | .error e => (.error (.os e), t) := by
  rw [writeFile, ofStep, exec_bind, exec_get]
  cases h : t.write p (.text text) with
  | error e => simp only [h, exec_throw]
  | ok t' => simp only [h, exec_set]

end Action

/-! ## One file -/

namespace Setup

variable {s : Setup} {t : FileTree} {source output : Path}

/-- The files that come of a source, in the order in which they are written. -/
def outputs (s : Setup) (source output : Path) (text : Text) (out : Output) :
    Except FileError (List (Path × Text)) :=
  if s.config.sourceMaps then
    (fileName output).map fun name =>
      let map := out.sourceMap text
        { file := some name, sourceName := source, includeContent := s.config.embedSources }
      [(output.withFileName (name ++ ".map".toList), map.toJson),
        (output, withMapComment out.text (name ++ ".map".toList))]
  else .ok [(output, out.text)]

/-- The paths of these files. -/
def outputPaths (s : Setup) (output : Path) : List Path :=
  if s.config.sourceMaps then
    match output.fileName? with
    | none => []
    | some name => [output.withFileName (name ++ ".map".toList), output]
  else [output]

theorem map_fst_outputs {text : Text} {out : Output} {written : List (Path × Text)}
    (h : s.outputs source output text out = .ok written) :
    written.map Prod.fst = s.outputPaths output := by
  unfold outputs at h
  unfold outputPaths
  split at h
  · next hmaps =>
    rw [if_pos hmaps]
    unfold fileName at h
    split at h
    · next name hname =>
      cases h
      rw [hname]
      rfl
    · cases h
  · next hmaps =>
    rw [if_neg hmaps]
    cases h
    rfl

/-- **Preprocessing a file**: it is read, the directory of its output is created, and the outputs are
written. -/
theorem exec_processFile (s : Setup) (source output : Path) (t : FileTree) :
    (s.processFile source output).exec t =
      match s.processText t source with
      | .error e => (.error e, t)
      | .ok (text, out) =>
        match t.makeParent output with
        | (.error e, t₁) => (.error (.os e), t₁)
        | (.ok (), t₁) =>
          match s.outputs source output text out with
          | .error e => (.error e, t₁)
          | .ok written =>
            match t₁.writeAll written with
            | (.error e, t₂) => (.error (.os e), t₂)
            | (.ok (), t₂) => (.ok (summaryOf out), t₂) := by
  -- what is left once the directory is there
  have hwrite (text : Text) (out : Output) (u : FileTree) :
      (if s.config.sourceMaps then do
          let name ← Action.ofExcept (fileName output)
          Action.writeFile (output.withFileName (name ++ ".map".toList))
            (out.sourceMap text
              { file := some name, sourceName := source,
                includeContent := s.config.embedSources }).toJson
          Action.writeFile output (withMapComment out.text (name ++ ".map".toList))
          pure (summaryOf out)
        else do
          Action.writeFile output out.text
          pure (summaryOf out) : Action Summary).exec u =
        match s.outputs source output text out with
        | .error e => (.error e, u)
        | .ok written =>
          match u.writeAll written with
          | (.error e, u') => (.error (.os e), u')
          | (.ok (), u') => (.ok (summaryOf out), u') := by
    unfold outputs
    split
    · simp only [Action.exec_bind, Action.exec_ofExcept, Action.exec_writeFile]
      cases fileName output with
      | error e => rfl
      | ok name =>
        simp only [Except.map, FileTree.writeAll]
        generalize u.write (output.withFileName _) _ = first
        cases first with
        | error e => rfl
        | ok u₁ =>
          simp only
          cases u₁.write output (.text (withMapComment out.text (name ++ ".map".toList))) with
          | error e => rfl
          | ok u₂ => rfl
    · simp only [Action.exec_bind, Action.exec_writeFile, FileTree.writeAll]
      cases u.write output (.text out.text) with
      | error e => rfl
      | ok u' => rfl
  rw [processFile, Action.exec_bind, Action.exec_get]
  simp only [Action.exec_bind, Action.exec_ofExcept]
  cases s.processText t source with
  | error e => rfl
  | ok r =>
    obtain ⟨text, out⟩ := r
    rw [FileTree.makeParent]
    cases output.parent? with
    | none => exact hwrite text out t
    | some parent =>
      simp only [Action.exec_bind, Action.exec_makeDirectories]
      rcases t.makeDirectories parent with ⟨e | _, t₁⟩
      · rfl
      · exact hwrite text out t₁

/-- What preprocessing a file writes: its outputs, and the directories above them. -/
theorem processFile_writes (h : t.WellFormed)
    (hforward : t.Forward (t.origin output) output.components) :
    t.Writes (fun q => ∃ p ∈ s.outputPaths output, q = t.target p)
      (fun q => ∃ parent, output.parent? = some parent ∧ q <+: t.target parent)
      ((s.processFile source output).exec t).2 := by
  have hparent : t.Writes (fun q => ∃ p ∈ s.outputPaths output, q = t.target p)
      (fun q => ∃ parent, output.parent? = some parent ∧ q <+: t.target parent)
      (t.makeParent output).2 :=
    (h.makeParent_writes hforward).mono (fun _ => False.elim) (fun _ => id)
  rw [exec_processFile]
  split
  · exact h.writes_refl
  · next text out _ =>
    rcases hmake : t.makeParent output with ⟨e | _, t₁⟩
    · rw [hmake] at hparent
      exact hparent
    · rw [hmake] at hparent
      simp only
      split
      · exact hparent
      · next written hwritten =>
        have hrest := hparent.trans ((hparent.wellFormed.writeAll_writes written).mono ?_
          (fun _ => False.elim))
        · rcases hall : t₁.writeAll written with ⟨e | _, t₂⟩
          · rw [hall] at hrest
            exact hrest
          · rw [hall] at hrest
            exact hrest
        · rintro q ⟨p, hp, rfl⟩
          refine ⟨p.1, ?_, FileTree.target_congr hparent.current p.1⟩
          rw [← map_fst_outputs hwritten]
          exact List.mem_map_of_mem hp

end Setup

end ConditionalText.Files
