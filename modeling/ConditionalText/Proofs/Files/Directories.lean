import ConditionalText.Proofs.Files.Tree
import Mathlib.Data.List.Basic

/-!
# Creating the directories on the way to a path

`makeDirectories` starts with the path itself and goes up until something can be created, then down
again. `makeAlong` says what comes of it from the top down: component after component is entered, and
what is missing is created. The two agree (`makeDirectories_eq`) on every path that goes up again
(`..`) only where it exists already; going up from a directory that had to be created first may lead
to a file, which is reported as it is met from below.

A path that ends in a dot is special: its last name is entered but not created.

* `makeAlong_append`: creating directories part by part.
* `WellFormed.node?_makeAlong`: **nothing changes but that directories appear on the way.**
* `WellFormed.makeAlong_of_ok`: if all goes well, the way leads to a directory.
* `makeAncestors_induction`: what the creation of each directory keeps is kept.
* `WellFormed.makeDirectories_eq`: what `makeDirectories` does.
-/

namespace ConditionalText.Files.FileTree

open ConditionalText.Text

variable {t : FileTree} {place q : Place} {cs ds : List Text} {c : Text}

/-- Enters components from a directory on, and creates what is missing. -/
def makeAlong (t : FileTree) (place : Place) : List Text → Except OsError Unit × FileTree
  | [] => (.ok (), t)
  | c :: more =>
    if maxNameBytes < byteLength c then (.error .nameTooLong, t)
    else
      match t.node? (follow place c) with
      | some .directory => t.makeAlong (follow place c) more
      | some (.file _) => (.error (if more.isEmpty then .alreadyExists else .notADirectory), t)
      | none =>
        if !more.isEmpty && more.all (· = dot) then (.error .notFound, t)
        else (t.setNode (follow place c) .directory).makeAlong (follow place c) more

section Steps

theorem makeAlong_of_long (h : maxNameBytes < byteLength c) :
    t.makeAlong place (c :: cs) = (.error .nameTooLong, t) := by
  rw [makeAlong, if_pos h]

variable (hshort : byteLength c ≤ maxNameBytes)
include hshort

theorem makeAlong_of_directory (h : t.node? (follow place c) = some .directory) :
    t.makeAlong place (c :: cs) = t.makeAlong (follow place c) cs := by
  rw [makeAlong, if_neg (Nat.not_lt.mpr hshort), h]

theorem makeAlong_of_file {content : Content} (h : t.node? (follow place c) = some (.file content)) :
    t.makeAlong place (c :: cs) =
      (.error (if cs.isEmpty then .alreadyExists else .notADirectory), t) := by
  rw [makeAlong, if_neg (Nat.not_lt.mpr hshort), h]

theorem makeAlong_of_none (h : t.node? (follow place c) = none)
    (hdots : cs = [] ∨ ∃ d ∈ cs, d ≠ dot) :
    t.makeAlong place (c :: cs) =
      (t.setNode (follow place c) .directory).makeAlong (follow place c) cs := by
  have hrule : (!cs.isEmpty && cs.all (· = dot)) = false := by
    rcases hdots with rfl | ⟨d, hd, hne⟩
    · rfl
    · rw [Bool.and_eq_false_iff]
      exact .inr (List.all_eq_false.mpr ⟨d, hd, by simpa using hne⟩)
  rw [makeAlong, if_neg (Nat.not_lt.mpr hshort), h]
  simp only [hrule]
  rfl

theorem makeAlong_of_dots (h : t.node? (follow place c) = none) (hcs : cs ≠ [])
    (hdots : ∀ d ∈ cs, d = dot) : t.makeAlong place (c :: cs) = (.error .notFound, t) := by
  have hrule : (!cs.isEmpty && cs.all (· = dot)) = true := by
    have hempty : cs.isEmpty = false := by simpa using hcs
    rw [hempty]
    exact List.all_eq_true.mpr fun d hd => by simpa using hdots d hd
  rw [makeAlong, if_neg (Nat.not_lt.mpr hshort), h]
  simp only [hrule]
  rfl

end Steps

/-! ## What it leaves -/

theorem follow_of_ne (place : Place) (h : c ≠ dot) (h' : c ≠ dotDot) :
    follow place c = place ++ [c] := by
  rw [follow, if_neg h, if_neg h']

/-- A dot stays where it is and two dots lead to a directory, so what is missing has a name. -/
theorem WellFormed.follow_of_none (h : t.WellFormed) (hplace : t.node? place = some .directory)
    (hnone : t.node? (follow place c) = none) :
    c ≠ dot ∧ c ≠ dotDot ∧ follow place c = place ++ [c] := by
  have hdot : c ≠ dot := by
    intro hc
    rw [follow, if_pos hc, hplace] at hnone
    cases hnone
  have hdotDot : c ≠ dotDot := by
    intro hc
    rw [follow, if_neg hdot, if_pos hc,
      h.directory_of_prefix (List.dropLast_prefix place) hplace] at hnone
    cases hnone
  exact ⟨hdot, hdotDot, follow_of_ne place hdot hdotDot⟩

/-- Components that can be names, but for dots and their length. -/
def Spelled (cs : List Text) : Prop :=
  ∀ c ∈ cs, c ≠ [] ∧ '/' ∉ c ∧ '\x00' ∉ c

theorem spelled_components {p : Path} (h : checkPath p = .ok ()) : Spelled p.components := by
  intro c hc
  obtain ⟨hne, hslash⟩ := Path.mem_components hc
  refine ⟨hne, hslash, fun hzero => ?_⟩
  have hpiece : c ∈ pieces '/' p := (List.mem_filter.mp hc).1
  obtain ⟨before, behind, hpieces⟩ := List.append_of_mem hpiece
  have hmem : '\x00' ∈ joinWith '/' (pieces '/' p) := by
    rw [hpieces]
    clear hpieces
    induction before with
    | nil =>
      cases behind with
      | nil => exact hzero
      | cons d behind => exact List.mem_append_left _ hzero
    | cons b before ih =>
      change _ ∈ joinWith '/' (b :: (before ++ c :: behind))
      cases hrest : before ++ c :: behind with
      | nil => simp at hrest
      | cons d rest =>
        rw [hrest] at ih
        exact List.mem_append_right _ (List.mem_cons_of_mem _ ih)
  rw [joinWith_pieces] at hmem
  exact (checkPath_eq_ok_iff.mp h).1 hmem

/-- A missing directory can be created. -/
theorem WellFormed.create (h : t.WellFormed) (hplace : t.node? place = some .directory)
    (hcs : Spelled (c :: cs)) (hshort : byteLength c ≤ maxNameBytes)
    (hnone : t.node? (follow place c) = none) :
    (t.setNode (follow place c) .directory).WellFormed ∧
      (∀ q, (t.setNode (follow place c) .directory).node? q =
        if q = follow place c then some .directory else t.node? q) ∧ Spelled cs := by
  obtain ⟨hdot, hdotDot, hfollow⟩ := h.follow_of_none hplace hnone
  obtain ⟨hne, hslash, hzero⟩ := hcs c List.mem_cons_self
  rw [hfollow] at hnone ⊢
  exact ⟨h.setNode hplace ⟨hne, hslash, hzero, hdot, hdotDot, hshort⟩ fun _ => rfl,
    node?_setNode_concat place c .directory, fun d hd => hcs d (List.mem_cons_of_mem _ hd)⟩

theorem WellFormed.makeAlong (h : t.WellFormed) (hplace : t.node? place = some .directory)
    (hcs : Spelled cs) : (t.makeAlong place cs).2.WellFormed := by
  induction cs generalizing t place with
  | nil => exact h
  | cons c cs ih =>
    have hmore : Spelled cs := fun d hd => hcs d (List.mem_cons_of_mem _ hd)
    rw [FileTree.makeAlong]
    split
    · exact h
    · next hshort =>
      split
      · next hnode => exact ih h hnode hmore
      · exact h
      · next hnode =>
        split
        · exact h
        · obtain ⟨hwf, hset, -⟩ := h.create hplace hcs (Nat.not_lt.mp hshort) hnode
          exact ih hwf (by rw [hset, if_pos rfl]) hmore

@[simp] theorem current_makeAlong (t : FileTree) (place : Place) (cs : List Text) :
    (t.makeAlong place cs).2.current = t.current := by
  induction cs generalizing t place with
  | nil => rfl
  | cons c cs ih =>
    rw [makeAlong]
    split
    · rfl
    · split
      · exact ih t _
      · rfl
      · split
        · rfl
        · exact ih _ _

/-- **Nothing changes but that directories appear on the way.** -/
theorem WellFormed.node?_makeAlong (h : t.WellFormed) (hplace : t.node? place = some .directory)
    (hcs : Spelled cs) (q : Place) :
    (t.makeAlong place cs).2.node? q = t.node? q ∨
      t.node? q = none ∧ (t.makeAlong place cs).2.node? q = some .directory ∧
        ∃ before, before <+: cs ∧ q = before.foldl follow place := by
  induction cs generalizing t place with
  | nil => exact .inl rfl
  | cons c cs ih =>
    have hmore : Spelled cs := fun d hd => hcs d (List.mem_cons_of_mem _ hd)
    rw [FileTree.makeAlong]
    split
    · exact .inl rfl
    · next hshort =>
      split
      · next hnode =>
        refine (ih h hnode hmore).imp_right fun ⟨hnone, hnew, before, hbefore, hq⟩ =>
          ⟨hnone, hnew, c :: before, List.cons_prefix_cons.mpr ⟨rfl, hbefore⟩, hq⟩
      · exact .inl rfl
      · next hnode =>
        split
        · exact .inl rfl
        · obtain ⟨hwf, hset, -⟩ := h.create hplace hcs (Nat.not_lt.mp hshort) hnode
          have hhere : (t.setNode (follow place c) .directory).node? (follow place c) =
              some .directory := by rw [hset, if_pos rfl]
          rcases ih hwf hhere hmore with hsame | ⟨hnone, hnew, before, hbefore, hq⟩
          · rw [hset] at hsame
            split at hsame
            · next hq =>
              refine .inr ⟨hq ▸ hnode, hsame, [c], ?_, hq⟩
              exact List.cons_prefix_cons.mpr ⟨rfl, List.nil_prefix⟩
            · exact .inl hsame
          · rw [hset] at hnone
            split at hnone
            · cases hnone
            · exact .inr ⟨hnone, hnew, c :: before, List.cons_prefix_cons.mpr ⟨rfl, hbefore⟩, hq⟩

theorem WellFormed.keep_makeAlong (h : t.WellFormed) (hplace : t.node? place = some .directory)
    (hcs : Spelled cs) {node : Node} (hq : t.node? q = some node) :
    (t.makeAlong place cs).2.node? q = some node := by
  rcases h.node?_makeAlong hplace hcs q with hsame | ⟨hnone, -⟩
  · rw [hsame, hq]
  · rw [hq] at hnone
    cases hnone

/-- If all goes well, the way leads to a directory. -/
theorem WellFormed.makeAlong_of_ok (h : t.WellFormed) (hplace : t.node? place = some .directory)
    (hcs : Spelled cs) (hok : (t.makeAlong place cs).1 = .ok ()) :
    (t.makeAlong place cs).2.descend place cs = .ok (cs.foldl follow place) ∧
      (t.makeAlong place cs).2.node? (cs.foldl follow place) = some .directory := by
  induction cs generalizing t place with
  | nil => exact ⟨descend_nil_eq_ok (by rw [FileTree.makeAlong, hplace]; rfl), hplace⟩
  | cons c cs ih =>
    have hmore : Spelled cs := fun d hd => hcs d (List.mem_cons_of_mem _ hd)
    by_cases hlong : maxNameBytes < byteLength c
    · rw [makeAlong_of_long hlong] at hok
      cases hok
    · have hshort := Nat.not_lt.mp hlong
      cases hnode : t.node? (follow place c) with
      | none =>
        by_cases hdots : cs = [] ∨ ∃ d ∈ cs, d ≠ dot
        · obtain ⟨hwf, hset, -⟩ := h.create hplace hcs hshort hnode
          have hhere : (t.setNode (follow place c) .directory).node? (follow place c) =
              some .directory := by rw [hset, if_pos rfl]
          have hplace' : (t.setNode (follow place c) .directory).node? place = some .directory := by
            rw [hset]
            split
            · rfl
            · exact hplace
          rw [makeAlong_of_none hshort hnode hdots] at hok ⊢
          obtain ⟨hdescend, hdirectory⟩ := ih hwf hhere hmore hok
          exact ⟨descend_cons_eq_ok_iff.mpr
            ⟨hwf.keep_makeAlong hhere hmore hplace', hshort, hdescend⟩, hdirectory⟩
        · rw [not_or, not_exists] at hdots
          rw [makeAlong_of_dots hshort hnode hdots.1
            fun d hd => Classical.not_not.mp fun hne => hdots.2 d ⟨hd, hne⟩] at hok
          cases hok
      | some node =>
        cases node with
        | file content =>
          rw [makeAlong_of_file hshort hnode] at hok
          cases hok
        | directory =>
          rw [makeAlong_of_directory hshort hnode] at hok ⊢
          obtain ⟨hdescend, hdirectory⟩ := ih h hnode hmore hok
          exact ⟨descend_cons_eq_ok_iff.mpr
            ⟨h.keep_makeAlong hnode hmore hplace, hshort, hdescend⟩, hdirectory⟩

/-! ## Part by part -/

/-- What exists is entered. -/
theorem makeAlong_append (hdescend : t.descend place cs = .ok q)
    (hq : t.node? q = some .directory) (ds : List Text) :
    t.makeAlong place (cs ++ ds) = t.makeAlong q ds := by
  induction cs generalizing place with
  | nil =>
    obtain ⟨rfl, -⟩ := eq_of_descend hdescend
    rfl
  | cons c cs ih =>
    obtain ⟨-, hshort, hmore⟩ := descend_cons_eq_ok_iff.mp hdescend
    rw [List.cons_append, makeAlong_of_directory hshort (directory_of_descend hmore hq)]
    exact ih hmore

theorem makeAlong_of_descend (hdescend : t.descend place cs = .ok q)
    (hq : t.node? q = some .directory) : t.makeAlong place cs = (.ok (), t) := by
  have h := makeAlong_append hdescend hq []
  rwa [List.append_nil] at h

/-- What leads to a file leads no further. -/
theorem makeAlong_append_of_file (hplace : t.node? place = some .directory)
    (hdescend : t.descend place cs = .ok q) {content : Content}
    (hq : t.node? q = some (.file content)) (hds : ds ≠ []) :
    t.makeAlong place (cs ++ ds) = (.error .notADirectory, t) := by
  induction cs generalizing place with
  | nil =>
    obtain ⟨rfl, -⟩ := eq_of_descend hdescend
    cases hplace.symm.trans hq
  | cons c cs ih =>
    obtain ⟨-, hshort, hmore⟩ := descend_cons_eq_ok_iff.mp hdescend
    rw [List.cons_append]
    cases cs with
    | nil =>
      obtain ⟨rfl, -⟩ := eq_of_descend hmore
      have hempty : ds.isEmpty = false := by simpa using hds
      rw [makeAlong_of_file hshort hq, List.nil_append, hempty]
      rfl
    | cons d cs =>
      have hnext := (descend_cons_eq_ok_iff.mp hmore).1
      rw [makeAlong_of_directory hshort hnext]
      exact ih hnext hmore

/-- What fails for another reason than a missing directory fails at once. -/
theorem makeAlong_append_of_error (hplace : t.node? place = some .directory) {e : OsError}
    (hdescend : t.descend place cs = .error e) (he : e ≠ .notFound) (ds : List Text) :
    t.makeAlong place (cs ++ ds) = (.error e, t) := by
  induction cs generalizing place with
  | nil =>
    rw [descend_nil_eq_ok (by rw [hplace]; rfl)] at hdescend
    cases hdescend
  | cons c cs ih =>
    by_cases hlong : maxNameBytes < byteLength c
    · rw [descend_cons_of_long hplace hlong] at hdescend
      cases hdescend
      exact makeAlong_of_long hlong
    · have hshort := Nat.not_lt.mp hlong
      rw [descend_cons hplace hshort] at hdescend
      rw [List.cons_append]
      cases hnode : t.node? (follow place c) with
      | none =>
        rw [descend_of_none hnode] at hdescend
        cases hdescend
        exact absurd rfl he
      | some node =>
        cases node with
        | directory =>
          rw [makeAlong_of_directory hshort hnode]
          exact ih hnode hdescend
        | file content =>
          cases cs with
          | nil =>
            rw [descend_nil_eq_ok (by rw [hnode]; rfl)] at hdescend
            cases hdescend
          | cons d cs =>
            rw [descend_of_file hnode (List.cons_ne_nil d cs)] at hdescend
            cases hdescend
            rw [makeAlong_of_file hshort hnode]
            rfl

/-- No component leads to a file. -/
def FileFree (t : FileTree) (place : Place) : List Text → Prop
  | [] => True
  | c :: more =>
    (∀ content, t.node? (follow place c) ≠ some (.file content)) ∧
      FileFree t (follow place c) more

theorem FileFree.setNode (h : t.FileFree place cs) (hq : q ≠ []) :
    (t.setNode q .directory).FileFree place cs := by
  induction cs generalizing place with
  | nil => trivial
  | cons c cs ih =>
    refine ⟨fun content => ?_, ih h.2⟩
    rw [node?_setNode hq]
    split
    · simp
    · exact h.1 content

theorem fileFree_of_names (hcs : ∀ c ∈ cs, IsName c)
    (h : ∀ before, before <+: cs → ∀ content, t.node? (place ++ before) ≠ some (.file content)) :
    t.FileFree place cs := by
  induction cs generalizing place with
  | nil => trivial
  | cons c cs ih =>
    rw [FileFree, follow_of_isName place (hcs c List.mem_cons_self)]
    refine ⟨h [c] (List.cons_prefix_cons.mpr ⟨rfl, List.nil_prefix⟩), ?_⟩
    refine ih (fun d hd => hcs d (List.mem_cons_of_mem c hd)) fun before hbefore content => ?_
    rw [List.append_assoc]
    exact h (c :: before) (List.cons_prefix_cons.mpr ⟨rfl, hbefore⟩) content

/-- Names can be entered or created where no file is in the way. -/
theorem makeAlong_of_names (hcs : ∀ c ∈ cs, IsName c) (hfree : t.FileFree place cs) :
    (t.makeAlong place cs).1 = .ok () := by
  induction cs generalizing t place with
  | nil => rfl
  | cons c cs ih =>
    have hc := hcs c List.mem_cons_self
    have hmore : ∀ d ∈ cs, IsName d := fun d hd => hcs d (List.mem_cons_of_mem c hd)
    cases hnode : t.node? (follow place c) with
    | some node =>
      cases node with
      | file content => exact absurd hnode (hfree.1 content)
      | directory =>
        rw [makeAlong_of_directory hc.short hnode]
        exact ih hmore hfree.2
    | none =>
      have hdots : cs = [] ∨ ∃ d ∈ cs, d ≠ dot := by
        cases cs with
        | nil => exact .inl rfl
        | cons d cs => exact .inr ⟨d, List.mem_cons_self, (hmore d List.mem_cons_self).notDot⟩
      rw [makeAlong_of_none hc.short hnode hdots]
      refine ih hmore (hfree.2.setNode ?_)
      rw [follow_of_isName place hc]
      simp

theorem fileFree_append :
    t.FileFree place (cs ++ ds) ↔ t.FileFree place cs ∧ t.FileFree (cs.foldl follow place) ds := by
  induction cs generalizing place with
  | nil => simp [FileFree]
  | cons c cs ih => rw [List.cons_append, FileFree, FileFree, ih, and_assoc, List.foldl_cons]

theorem fileFree_of_descend (hdescend : t.descend place cs = .ok q)
    (hq : t.node? q = some .directory) : t.FileFree place cs := by
  induction cs generalizing place with
  | nil => trivial
  | cons c cs ih =>
    have hmore := (descend_cons_eq_ok_iff.mp hdescend).2.2
    refine ⟨fun content => ?_, ih hmore⟩
    rw [directory_of_descend hmore hq]
    simp

/-- Below what is missing there are no files. -/
theorem WellFormed.fileFree_of_none (h : t.WellFormed) (hplace : t.node? place = none)
    (hcs : dotDot ∉ cs) : t.FileFree place cs := by
  induction cs generalizing place with
  | nil => trivial
  | cons c cs ih =>
    have hc : c ≠ dotDot := fun hc => hcs (hc ▸ List.mem_cons_self)
    have hmore : dotDot ∉ cs := fun hmem => hcs (List.mem_cons_of_mem c hmem)
    have hnone : t.node? (follow place c) = none := by
      by_cases hdot : c = dot
      · rw [follow, if_pos hdot, hplace]
      · rw [follow_of_ne place hdot hc]
        exact h.eq_none_of_append (by simp [hplace]) (by simp)
    exact ⟨fun content => by simp [hnone], ih hnone hmore⟩

/-- A way that ends because something is missing meets no file before it goes up again. -/
theorem WellFormed.fileFree_of_notFound (h : t.WellFormed)
    (hplace : t.node? place = some .directory) (hcs : dotDot ∉ cs)
    (hdescend : t.descend place cs = .error .notFound) : t.FileFree place cs := by
  induction cs generalizing place with
  | nil => trivial
  | cons c cs ih =>
    have hmore : dotDot ∉ cs := fun hmem => hcs (List.mem_cons_of_mem c hmem)
    rw [descend, hplace] at hdescend
    simp only at hdescend
    split at hdescend
    · cases hdescend
    · cases hnode : t.node? (follow place c) with
      | none => exact ⟨fun content => by simp [hnode], h.fileFree_of_none hnode hmore⟩
      | some node =>
        cases node with
        | directory => exact ⟨fun content => by simp [hnode], ih hnode hmore hdescend⟩
        | file content =>
          cases cs with
          | nil =>
            rw [descend, hnode] at hdescend
            cases hdescend
          | cons d cs =>
            rw [descend, hnode] at hdescend
            cases hdescend

/-- Where no file stands in the way, directories are created part by part. The part does not end in
a dot, and something other than dots follows. -/
theorem WellFormed.makeAlong_append_of_fileFree (h : t.WellFormed)
    (hplace : t.node? place = some .directory) (hcs : Spelled cs) (hfree : t.FileFree place cs)
    (hlast : cs.getLast? ≠ some dot) (hds : ∃ d ∈ ds, d ≠ dot) :
    t.makeAlong place (cs ++ ds) =
      match t.makeAlong place cs with
      | (.ok (), t') => t'.makeAlong (cs.foldl follow place) ds
      | (.error e, t') => (.error e, t') := by
  induction cs generalizing t place with
  | nil => rfl
  | cons c cs ih =>
    have hmore : Spelled cs := fun d hd => hcs d (List.mem_cons_of_mem _ hd)
    have hlast' : cs.getLast? ≠ some dot := by
      cases cs with
      | nil => simp
      | cons d cs => simpa using hlast
    have hdots : cs = [] ∨ ∃ d ∈ cs, d ≠ dot := by
      cases hcs' : cs.getLast? with
      | none => exact .inl (List.getLast?_eq_none_iff.mp hcs')
      | some d => exact .inr ⟨d, List.mem_of_getLast? hcs', fun hd => hlast' (hd ▸ hcs')⟩
    obtain ⟨d, hd, hne⟩ := hds
    have hdots' : cs ++ ds = [] ∨ ∃ d ∈ cs ++ ds, d ≠ dot :=
      .inr ⟨d, List.mem_append_right _ hd, hne⟩
    rw [List.cons_append]
    by_cases hlong : maxNameBytes < byteLength c
    · rw [makeAlong_of_long hlong, makeAlong_of_long hlong]
    · have hshort := Nat.not_lt.mp hlong
      cases hnode : t.node? (follow place c) with
      | none =>
        obtain ⟨hwf, hset, -⟩ := h.create hplace hcs hshort hnode
        rw [makeAlong_of_none hshort hnode hdots', makeAlong_of_none hshort hnode hdots,
          List.foldl_cons]
        refine ih hwf (by rw [hset, if_pos rfl]) hmore (hfree.2.setNode fun hroot => ?_) hlast'
        rw [hroot, node?_nil] at hnode
        cases hnode
      | some node =>
        cases node with
        | file content => exact absurd hnode (hfree.1 content)
        | directory =>
          rw [makeAlong_of_directory hshort hnode, makeAlong_of_directory hshort hnode,
            List.foldl_cons]
          exact ih h hnode hmore hfree.2 hlast'

/-! ## Up and down again -/

/-- Creates one directory, or finds it there. -/
def attempt (t : FileTree) (p : Path) : Except OsError Unit × FileTree :=
  match t.makeDirectory p with
  | .ok t' => (.ok (), t')
  | .error e => (if t.isDirectory p then .ok () else .error e, t)

theorem makeAncestors_of_notFound {p : Path} (h : t.makeDirectory p = .error .notFound)
    (above : List Path) :
    t.makeAncestors (p :: above) =
      match t.makeAncestors above with
      | (.ok (), t') => t'.attempt p
      | (.error e, t') => (.error e, t') := by
  rw [makeAncestors, h]
  rcases t.makeAncestors above with ⟨_ | _, t'⟩
  · rfl
  · cases hmake : t'.makeDirectory p with
    | error e => simp only [attempt, hmake]
    | ok made => simp only [attempt, hmake]

theorem makeAncestors_of_ne_notFound {p : Path} (h : t.makeDirectory p ≠ .error .notFound)
    (above : List Path) : t.makeAncestors (p :: above) = t.attempt p := by
  rw [makeAncestors, attempt]
  cases hmake : t.makeDirectory p with
  | ok t' => rfl
  | error e =>
    cases e with
    | notFound => exact absurd hmake h
    | alreadyExists => rfl
    | notADirectory => rfl
    | isADirectory => rfl
    | nameTooLong => rfl
    | zeroInName => rfl

variable {p : Path}

theorem attempt_induction {motive : FileTree → Prop} (hstart : motive t)
    (hstep : ∀ t', t.makeDirectory p = .ok t' → motive t') : motive (t.attempt p).2 := by
  rw [attempt]
  cases hmake : t.makeDirectory p with
  | ok t' => exact hstep t' hmake
  | error e => exact hstart

/-- **What is kept by creating any one of some directories is kept by creating them all**, also if
that fails on the way. -/
theorem makeAncestors_induction {motive : FileTree → Prop} {paths : List Path} (hstart : motive t)
    (hstep : ∀ p ∈ paths, ∀ u u', motive u → u.makeDirectory p = .ok u' → motive u') :
    motive (t.makeAncestors paths).2 := by
  induction paths with
  | nil => exact hstart
  | cons p above ih =>
    by_cases hmissing : t.makeDirectory p = .error .notFound
    · have habove := ih fun a ha => hstep a (List.mem_cons_of_mem p ha)
      rw [makeAncestors_of_notFound hmissing]
      rcases hmade : t.makeAncestors above with ⟨e | _, t₁⟩
      · rw [hmade] at habove
        exact habove
      · rw [hmade] at habove
        exact attempt_induction habove fun t' => hstep p List.mem_cons_self t₁ t' habove
    · rw [makeAncestors_of_ne_notFound hmissing]
      exact attempt_induction hstart fun t' => hstep p List.mem_cons_self t t' hstart

theorem locateLast_of_components (hcheck : checkPath p = .ok ())
    (hcomponents : p.components = cs ++ [c]) (atRoot : OsError) :
    t.locateLast p atRoot =
      (t.descend (t.origin p) cs).bind fun place =>
        if t.node? place = some .directory then .ok (place, c) else .error .notADirectory := by
  have hlast : p.components.getLast? = some c := by rw [hcomponents, List.getLast?_concat]
  have hinit : p.components.dropLast = cs := by rw [hcomponents, List.dropLast_concat]
  rw [locateLast, hcheck]
  simp only [hlast, hinit, Except.bind]
  cases t.descend (t.origin p) cs with
  | error e => rfl
  | ok place =>
    simp only
    cases hnode : t.node? place with
    | none => rfl
    | some node =>
      cases node with
      | file content => rfl
      | directory => rfl

theorem makeDirectory_of_components (hcheck : checkPath p = .ok ())
    (hcomponents : p.components = cs ++ [c]) :
    t.makeDirectory p =
      (t.descend (t.origin p) cs).bind fun place =>
        if t.node? place = some .directory then
          if c = dot ∨ c = dotDot then .error .alreadyExists
          else if maxNameBytes < byteLength c then .error .nameTooLong
          else if (t.node? (place ++ [c])).isSome then .error .alreadyExists
          else .ok (t.setNode (place ++ [c]) .directory)
        else .error .notADirectory := by
  rw [makeDirectory, locateLast_of_components hcheck hcomponents]
  cases t.descend (t.origin p) cs with
  | error e => rfl
  | ok place =>
    simp only [Except.bind]
    by_cases hnode : t.node? place = some .directory
    · simp only [if_pos hnode]
    · simp only [if_neg hnode]

/-- What a path leads to after dots. -/
theorem descend_dots (hds : ∀ d ∈ ds, d = dot) (hq : t.node? q = some .directory) :
    t.descend q ds = .ok q := by
  induction ds with
  | nil => exact descend_nil_eq_ok (by rw [hq]; rfl)
  | cons d ds ih =>
    obtain rfl := hds d List.mem_cons_self
    rw [descend_cons hq (by decide), follow, if_pos rfl]
    exact ih fun d hd => hds d (List.mem_cons_of_mem _ hd)

theorem isDirectory_of_descend (hcheck : checkPath p = .ok ())
    (hdescend : t.descend (t.origin p) p.components = .ok q) :
    t.isDirectory p = decide (t.node? q = some .directory) := by
  rw [Bool.eq_iff_iff, decide_eq_true_iff, isDirectory_iff]
  constructor
  · rintro ⟨q', -, hdescend', hq⟩
    rw [hdescend] at hdescend'
    cases hdescend'
    exact hq
  · exact fun hq => ⟨q, hcheck, hdescend, hq⟩

theorem isDirectory_of_error {e : OsError}
    (hdescend : t.descend (t.origin p) p.components = .error e) : t.isDirectory p = false := by
  rw [Bool.eq_false_iff]
  intro h
  obtain ⟨q, -, hdescend', -⟩ := isDirectory_iff.mp h
  rw [hdescend] at hdescend'
  cases hdescend'

/-- What goes wrong on the way to a directory goes wrong with a path below it. -/
theorem attempt_of_error (hcheck : checkPath p = .ok ()) (hcomponents : p.components = cs ++ c :: ds)
    {e : OsError} (he : t.descend (t.origin p) cs = .error e) :
    t.makeDirectory p = .error e ∧ t.attempt p = (.error e, t) := by
  obtain ⟨init, last, hlast⟩ : ∃ init last, c :: ds = init ++ [last] :=
    (List.eq_nil_or_concat' (c :: ds)).resolve_left (List.cons_ne_nil c ds)
  have hmake : t.makeDirectory p = .error e := by
    rw [makeDirectory_of_components hcheck
      (show p.components = cs ++ init ++ [last] by rw [hcomponents, hlast]; simp),
      descend_append, he]
    rfl
  have hnot : t.isDirectory p = false := by
    refine isDirectory_of_error (e := e) ?_
    rw [hcomponents, descend_append, he]
    rfl
  refine ⟨hmake, ?_⟩
  rw [attempt, hmake, hnot]
  rfl

/-- Nothing is created below a file. -/
theorem attempt_of_file (hcheck : checkPath p = .ok ()) (hcomponents : p.components = cs ++ c :: ds)
    (hdescend : t.descend (t.origin p) cs = .ok q) {content : Content}
    (hq : t.node? q = some (.file content)) :
    t.makeDirectory p = .error .notADirectory ∧ t.attempt p = (.error .notADirectory, t) := by
  cases ds with
  | nil =>
    have hmake : t.makeDirectory p = .error .notADirectory := by
      rw [makeDirectory_of_components hcheck hcomponents, hdescend]
      exact if_neg (by simp [hq])
    have hnot : t.isDirectory p = false := by
      refine isDirectory_of_error (e := .notADirectory) ?_
      rw [hcomponents, descend_append, hdescend]
      exact descend_of_file hq (List.cons_ne_nil c [])
    refine ⟨hmake, ?_⟩
    rw [attempt, hmake, hnot]
    rfl
  | cons d ds =>
    refine attempt_of_error hcheck
      (show p.components = (cs ++ [c]) ++ d :: ds by rw [hcomponents]; simp) ?_
    rw [descend_append, hdescend]
    exact descend_of_file hq (List.cons_ne_nil c [])

/-- What is there is not created. -/
theorem makeDirectory_of_isSome (hcheck : checkPath p = .ok ())
    (hcomponents : p.components = cs ++ [c]) (hdescend : t.descend (t.origin p) cs = .ok q)
    (hq : t.node? q = some .directory) (hshort : byteLength c ≤ maxNameBytes)
    (hsome : (t.node? (follow q c)).isSome) : t.makeDirectory p = .error .alreadyExists := by
  rw [makeDirectory_of_components hcheck hcomponents, hdescend]
  simp only [Except.bind, hq, if_true]
  split
  · rfl
  · next hname =>
    rw [not_or] at hname
    rw [follow_of_ne q hname.1 hname.2] at hsome
    simp only [if_neg (Nat.not_lt.mpr hshort), hsome, if_true]

section Attempt

variable (hcheck : checkPath p = .ok ()) (hdescend : t.descend (t.origin p) cs = .ok q)
  (hq : t.node? q = some .directory)
include hcheck hdescend hq

/-- The last component of a path is entered or created. -/
theorem WellFormed.attempt_eq_of_last (h : t.WellFormed) (hcomponents : p.components = cs ++ [c]) :
    t.attempt p = t.makeAlong q [c] := by
  have hwhole : t.descend (t.origin p) p.components = t.descend q [c] := by
    rw [hcomponents, descend_append, hdescend]
    rfl
  have hmake := makeDirectory_of_components (t := t) hcheck hcomponents
  rw [hdescend] at hmake
  simp only [Except.bind, hq, if_true] at hmake
  by_cases hlong : maxNameBytes < byteLength c
  · have hname : ¬(c = dot ∨ c = dotDot) := by
      rintro (rfl | rfl)
      · exact absurd hlong (by decide)
      · exact absurd hlong (by decide)
    rw [if_neg hname, if_pos hlong] at hmake
    rw [descend_cons_of_long hq hlong] at hwhole
    rw [makeAlong_of_long hlong, attempt, hmake, isDirectory_of_error hwhole]
    rfl
  · have hshort := Nat.not_lt.mp hlong
    rw [descend_cons hq hshort] at hwhole
    cases hnode : t.node? (follow q c) with
    | none =>
      obtain ⟨hdot, hdotDot, hfollow⟩ := h.follow_of_none hq hnode
      rw [makeAlong_of_none hshort hnode (.inl rfl), hfollow]
      rw [hfollow] at hnode
      rw [if_neg (by simp [hdot, hdotDot]), if_neg hlong, hnode] at hmake
      rw [attempt, hmake]
      rfl
    | some node =>
      have hsome : (t.node? (follow q c)).isSome := by rw [hnode]; rfl
      rw [descend_nil_eq_ok hsome] at hwhole
      rw [attempt, makeDirectory_of_isSome hcheck hcomponents hdescend hq hshort hsome,
        isDirectory_of_descend hcheck hwhole, hnode]
      cases node with
      | directory =>
        rw [makeAlong_of_directory hshort hnode]
        simp [FileTree.makeAlong]
      | file content =>
        rw [makeAlong_of_file hshort hnode]
        simp

/-- Where dots follow, nothing is created. -/
theorem attempt_eq_of_dots {d : Text} (hcomponents : p.components = cs ++ c :: d :: ds)
    (hds : ∀ e ∈ d :: ds, e = dot) : t.attempt p = t.makeAlong q (c :: d :: ds) := by
  have hcomponents' : p.components = (cs ++ [c]) ++ d :: ds := by
    rw [hcomponents, List.append_assoc]
    rfl
  have hnext : t.descend (t.origin p) (cs ++ [c]) = t.descend q [c] := by
    rw [descend_append, hdescend]
    rfl
  by_cases hlong : maxNameBytes < byteLength c
  · rw [descend_cons_of_long hq hlong] at hnext
    rw [makeAlong_of_long hlong, (attempt_of_error hcheck hcomponents' hnext).2]
  · have hshort := Nat.not_lt.mp hlong
    rw [descend_cons hq hshort] at hnext
    cases hnode : t.node? (follow q c) with
    | none =>
      rw [descend_of_none hnode] at hnext
      rw [makeAlong_of_dots hshort hnode (List.cons_ne_nil d ds) hds,
        (attempt_of_error hcheck hcomponents' hnext).2]
    | some node =>
      rw [descend_nil_eq_ok (by rw [hnode]; rfl)] at hnext
      cases node with
      | file content =>
        rw [makeAlong_of_file hshort hnode, (attempt_of_file hcheck hcomponents' hnext hnode).2]
        rfl
      | directory =>
        obtain ⟨init, last, hlast⟩ : ∃ init last, d :: ds = init ++ [last] :=
          (List.eq_nil_or_concat' (d :: ds)).resolve_left (List.cons_ne_nil d ds)
        have hinit : ∀ e ∈ init, e = dot := fun e he =>
          hds e (by rw [hlast]; exact List.mem_append_left _ he)
        obtain rfl : last = dot := hds last (by rw [hlast]; exact List.mem_append_right _ (by simp))
        have hway : t.descend (t.origin p) (cs ++ [c] ++ init) = .ok (follow q c) := by
          rw [descend_append, hnext]
          exact descend_dots hinit hnode
        have hdot : p.components = cs ++ [c] ++ init ++ [dot] := by
          rw [hcomponents', hlast, List.append_assoc _ init]
        have hmake : t.makeDirectory p = .error .alreadyExists := by
          refine makeDirectory_of_isSome hcheck hdot hway hnode (by decide) ?_
          rw [follow, if_pos rfl, hnode]
          rfl
        have hwhole : t.descend (t.origin p) p.components = .ok (follow q c) := by
          rw [hcomponents', descend_append, hnext]
          exact descend_dots hds hnode
        rw [makeAlong_of_directory hshort hnode, makeAlong_of_descend (descend_dots hds hnode) hnode,
          attempt, hmake, isDirectory_of_descend hcheck hwhole]
        simp [hnode]

/-- One directory in a directory that exists. -/
theorem WellFormed.attempt_eq (h : t.WellFormed) (hcomponents : p.components = cs ++ c :: ds)
    (hds : ∀ d ∈ ds, d = dot) : t.attempt p = t.makeAlong q (c :: ds) := by
  cases ds with
  | nil => exact h.attempt_eq_of_last hcheck hdescend hq hcomponents
  | cons d ds => exact attempt_eq_of_dots hcheck hdescend hq hcomponents hds

end Attempt

/-- If nothing is missing above a path, only the path is created. -/
theorem makeAncestors_of_ok {above : List Path} (habove : t.makeAncestors above = (.ok (), t)) :
    t.makeAncestors (p :: above) = t.attempt p := by
  by_cases hmissing : t.makeDirectory p = .error .notFound
  · rw [makeAncestors_of_notFound hmissing, habove]
  · rw [makeAncestors_of_ne_notFound hmissing]

section Above

variable (hcheck : checkPath p = .ok ()) (horigin : t.node? (t.origin p) = some .directory)
  {dots : List Text} (hcomponents : p.components = cs ++ dots ++ c :: ds)
  (hdots : ∀ d ∈ dots, d = dot) (hds : ∀ d ∈ ds, d = dot) {above : List Path}
  (habove : t.makeAncestors above = t.makeAlong (t.origin p) cs)
include hcheck horigin hcomponents hdots hds habove

/-- What is missing above a path is created first, and then the path. -/
theorem WellFormed.makeAncestors_cons_of_notFound (h : t.WellFormed)
    (hmissing : t.descend (t.origin p) (cs ++ dots) = .error .notFound)
    (hfree : t.FileFree (t.origin p) cs) (hend : cs.getLast? ≠ some dot) (hc : c ≠ dot) :
    t.makeAncestors (p :: above) = t.makeAlong (t.origin p) (cs ++ dots ++ c :: ds) := by
  have hspelled : Spelled cs := fun d hd => spelled_components hcheck d
    (by rw [hcomponents]; exact List.mem_append_left _ (List.mem_append_left _ hd))
  rw [makeAncestors_of_notFound (attempt_of_error hcheck hcomponents hmissing).1, habove,
    List.append_assoc, h.makeAlong_append_of_fileFree horigin hspelled hfree hend
      ⟨c, List.mem_append_right _ List.mem_cons_self, hc⟩]
  have hwf := h.makeAlong horigin hspelled
  have hcurrent := current_makeAlong t (t.origin p) cs
  have hok := h.makeAlong_of_ok horigin hspelled
  rcases hresult : t.makeAlong (t.origin p) cs with ⟨_ | _, t'⟩
  · rfl
  · rw [hresult] at hwf hok hcurrent
    obtain ⟨hway, hdirectory⟩ := hok rfl
    have horigin' : t'.origin p = t.origin p := by rw [origin, origin, hcurrent]
    have hdescend' : t'.descend (t'.origin p) (cs ++ dots) =
        .ok (cs.foldl follow (t.origin p)) := by
      rw [horigin', descend_append, hway]
      exact descend_dots hdots hdirectory
    simp only
    rw [hwf.attempt_eq hcheck hdescend' hdirectory hcomponents hds,
      makeAlong_append (descend_dots hdots hdirectory) hdirectory]

/-- What is above a path is created first, and then the path. -/
theorem WellFormed.makeAncestors_cons (h : t.WellFormed)
    (hmissing : t.descend (t.origin p) (cs ++ dots) = .error .notFound →
      t.FileFree (t.origin p) cs ∧ cs.getLast? ≠ some dot ∧ c ≠ dot) :
    t.makeAncestors (p :: above) = t.makeAlong (t.origin p) p.components := by
  rw [hcomponents]
  cases hdescend : t.descend (t.origin p) (cs ++ dots) with
  | error e =>
    by_cases he : e = .notFound
    · subst he
      obtain ⟨hfree, hend, hc⟩ := hmissing hdescend
      exact h.makeAncestors_cons_of_notFound hcheck horigin hcomponents hdots hds habove hdescend
        hfree hend hc
    · obtain ⟨hmake, hattempt⟩ := attempt_of_error hcheck hcomponents hdescend
      rw [makeAncestors_of_ne_notFound (by rw [hmake]; simpa using he), hattempt,
        makeAlong_append_of_error horigin hdescend he]
  | ok q =>
    cases hq : t.node? q with
    | none =>
      have hsome := (eq_of_descend hdescend).2
      rw [hq] at hsome
      cases hsome
    | some node =>
      cases node with
      | directory =>
        have habove' : t.makeAncestors above = (.ok (), t) := by
          rw [descend_append] at hdescend
          cases hcs : t.descend (t.origin p) cs with
          | error e =>
            rw [hcs] at hdescend
            cases hdescend
          | ok q' =>
            rw [hcs] at hdescend
            rw [habove, makeAlong_of_descend hcs (directory_of_descend hdescend hq)]
        rw [makeAncestors_of_ok habove', makeAlong_append hdescend hq,
          h.attempt_eq hcheck hdescend hq hcomponents hds]
      | file content =>
        obtain ⟨hmake, hattempt⟩ := attempt_of_file hcheck hcomponents hdescend hq
        rw [makeAncestors_of_ne_notFound (by rw [hmake]; simp), hattempt,
          makeAlong_append_of_file horigin hdescend hq (List.cons_ne_nil c ds)]

end Above

/-- Components that go up again only where they lead to a directory already. -/
def Forward (t : FileTree) (place : Place) (cs : List Text) : Prop :=
  ∃ existing more q, cs = existing ++ more ∧ t.descend place existing = .ok q ∧
    t.node? q = some .directory ∧ dotDot ∉ more

theorem forward_of_not_mem (hplace : t.node? place = some .directory) (hcs : dotDot ∉ cs) :
    t.Forward place cs :=
  ⟨[], cs, place, rfl, descend_nil_eq_ok (by rw [hplace]; rfl), hplace, hcs⟩

theorem Forward.of_isPrefix (h : t.Forward place ds) (hstarts : cs <+: ds) : t.Forward place cs := by
  obtain ⟨existing, more, q, rfl, hdescend, hq, hmore⟩ := h
  rcases List.prefix_or_prefix_of_prefix hstarts (List.prefix_append existing more) with
    ⟨rest, hrest⟩ | ⟨rest, hrest⟩
  · -- all of it exists
    rw [← hrest, descend_append] at hdescend
    cases hcs : t.descend place cs with
    | error e =>
      rw [hcs] at hdescend
      cases hdescend
    | ok q' =>
      rw [hcs] at hdescend
      exact ⟨cs, [], q', (List.append_nil cs).symm, hcs, directory_of_descend hdescend hq, by simp⟩
  · refine ⟨existing, rest, q, hrest.symm, hdescend, hq, fun hmem => hmore ?_⟩
    rw [← hrest, List.prefix_append_right_inj] at hstarts
    exact hstarts.subset hmem

theorem WellFormed.fileFree_of_forward (h : t.WellFormed) (hforward : t.Forward place cs)
    (hdescend : t.descend place cs = .error .notFound) : t.FileFree place cs := by
  obtain ⟨existing, more, q, rfl, hexisting, hq, hmore⟩ := hforward
  obtain ⟨rfl, -⟩ := eq_of_descend hexisting
  rw [descend_append, hexisting] at hdescend
  exact fileFree_append.mpr
    ⟨fileFree_of_descend hexisting hq, h.fileFree_of_notFound hq hmore hdescend⟩

theorem WellFormed.node?_origin (h : t.WellFormed) (p : Path) :
    t.node? (t.origin p) = some .directory := by
  rw [origin]
  split
  · exact node?_nil t
  · exact h.current

section Ancestors

variable (h : t.WellFormed) (hforward : t.Forward (t.origin p) p.components)
include h hforward

/-- One more step up: a path whose last component is the first of some pieces. -/
theorem WellFormed.makeAncestors_step {r : Path} {piece : Text} {before : List Text}
    (hcheck : checkPath r = .ok ()) (horigin : t.origin r = t.origin p)
    (hstarts : r.components <+: p.components)
    (hcounts : Path.counts p.isAbsolute piece before = true)
    (hcomponents : r.components = Path.solid before.reverse ++ piece :: ds)
    (hds : ∀ d ∈ ds, d = dot)
    (habove : t.makeAncestors (Path.ancestorsOf p.isAbsolute before) =
      t.makeAlong (t.origin p) (Path.solid (Path.trimPieces p.isAbsolute before).reverse)) :
    t.makeAncestors (r :: Path.ancestorsOf p.isAbsolute before) =
      t.makeAlong (t.origin p) r.components := by
  obtain ⟨dots, hsplit, hdots⟩ := Path.solid_reverse_eq p.isAbsolute before
  rw [hsplit] at hcomponents
  rw [← horigin] at habove ⊢
  refine h.makeAncestors_cons hcheck (h.node?_origin r) hcomponents hdots hds habove
    fun hmissing => ?_
  have hhere : t.descend (t.origin r) [] ≠ .error .notFound := by
    rw [descend_nil_eq_ok (by rw [h.node?_origin]; rfl)]
    simp
  have hway : t.Forward (t.origin r)
      (Path.solid (Path.trimPieces p.isAbsolute before).reverse ++ dots) := by
    rw [horigin]
    refine hforward.of_isPrefix (List.IsPrefix.trans ?_ hstarts)
    rw [hcomponents]
    exact List.prefix_append _ _
  refine ⟨(fileFree_append.mp (h.fileFree_of_forward hway hmissing)).1, fun hlast => ?_,
    fun hpiece => ?_⟩
  · -- a dot counts only at the start, and what it leads to exists
    cases htrim : Path.trimPieces p.isAbsolute before with
    | nil =>
      rw [htrim] at hlast
      cases hlast
    | cons first rest =>
      have hfirst := Path.counts_of_trimPieces htrim
      rw [htrim, List.reverse_cons, Path.solid_append, Path.solid_singleton_of_counts hfirst,
        List.getLast?_concat] at hlast
      cases hlast
      obtain rfl := Path.eq_nil_of_counts_dot hfirst
      rw [htrim, descend_dots (q := t.origin r) ?_ (h.node?_origin r)] at hmissing
      · cases hmissing
      · intro d hd
        rcases List.mem_append.mp hd with hd | hd
        · exact List.mem_singleton.mp hd
        · exact hdots d hd
  · rw [hpiece] at hcounts
    rw [← hsplit, Path.eq_nil_of_counts_dot hcounts] at hmissing
    exact hhere hmissing

/-- The directories above a path are created from the top down. -/
theorem WellFormed.makeAncestors_ancestorsOf (hcheck : checkPath p = .ok ()) {ps : List Text}
    (hps : ps <:+ Path.piecesReversed p) :
    t.makeAncestors (Path.ancestorsOf p.isAbsolute ps) =
      t.makeAlong (t.origin p) (Path.solid (Path.trimPieces p.isAbsolute ps).reverse) := by
  induction ps with
  | nil => rfl
  | cons piece before ih =>
    have hbefore : before <:+ Path.piecesReversed p := (List.suffix_cons piece before).trans hps
    rw [Path.ancestorsOf, Path.trimPieces]
    split
    · next hcounts =>
      have hnoSlash : ∀ c ∈ piece :: before, '/' ∉ c := fun c hc =>
        Path.not_mem_of_mem_piecesReversed (hps.subset hc)
      have hcomponents := Path.components_ofPieces p.isAbsolute hnoSlash
      rw [← hcomponents]
      have hcomponents' : (Path.ofPieces p.isAbsolute (piece :: before)).components =
          Path.solid before.reverse ++ [piece] := by
        rw [hcomponents, List.reverse_cons, Path.solid_append,
          Path.solid_singleton_of_counts hcounts]
      refine h.makeAncestors_step hforward ?_ ?_ ?_ hcounts hcomponents' (by simp) (ih hbefore)
      · refine checkPath_of_isPrefix hcheck (Path.ofPieces_isPrefix hps) fun hnil => ?_
        rw [hnil] at hcomponents'
        simp [Path.components, pieces] at hcomponents'
      · rw [origin, origin, Path.isAbsolute_ofPieces hps]
      · rw [hcomponents, ← Path.solid_piecesReversed p]
        obtain ⟨front, hfront⟩ := hps
        rw [← hfront, List.reverse_append, Path.solid_append]
        exact List.prefix_append _ _
    · exact ih hbefore

/-- **Creating the directories on the way to a path is entering its components one after another
and creating what is missing.** -/
theorem WellFormed.makeDirectories_eq (hcheck : checkPath p = .ok ()) :
    t.makeDirectories p = t.makeAlong (t.origin p) p.components := by
  have hne : p.isEmpty = false := by simpa using (checkPath_eq_ok_iff.mp hcheck).2.2
  obtain ⟨dots, hsplit, hdots⟩ := Path.solid_reverse_eq p.isAbsolute (Path.piecesReversed p)
  rw [Path.solid_piecesReversed] at hsplit
  rw [makeDirectories, Path.ancestors, hne, Path.splitLast?]
  cases htrim : Path.trimPieces p.isAbsolute (Path.piecesReversed p) with
  | nil =>
    -- the root, or dots behind it
    have hhere : t.descend (t.origin p) [] = .ok (t.origin p) :=
      descend_nil_eq_ok (by rw [h.node?_origin]; rfl)
    rw [htrim] at hsplit
    cases dots with
    | nil =>
      have hmake : t.makeDirectory p = .error .alreadyExists := by
        rw [makeDirectory, locateLast, hcheck]
        simp only [Except.bind, hsplit]
        rfl
      have hdirectory : t.isDirectory p = true := by
        rw [isDirectory_of_descend hcheck (q := t.origin p) (by rw [hsplit]; exact hhere)]
        exact decide_eq_true (h.node?_origin p)
      change t.makeAncestors [p] = _
      rw [makeAncestors_of_ne_notFound (by simp [hmake]), attempt, hmake, hdirectory, hsplit]
      rfl
    | cons c ds =>
      have hsplit' : p.components = [] ++ [] ++ c :: ds := hsplit
      refine h.makeAncestors_cons hcheck (h.node?_origin p) hsplit' (by simp)
        (fun d hd => hdots d (List.mem_cons_of_mem c hd)) rfl fun hmissing => ?_
      rw [List.append_nil, hhere] at hmissing
      cases hmissing
  | cons last before =>
    have hcounts := Path.counts_of_trimPieces htrim
    have hbefore : before <:+ Path.piecesReversed p := by
      refine (List.suffix_cons last before).trans ?_
      rw [← htrim]
      exact Path.trimPieces_isSuffix _ _
    refine h.makeAncestors_step hforward hcheck rfl (List.prefix_refl _) hcounts ?_ hdots
      (h.makeAncestors_ancestorsOf hforward hcheck hbefore)
    rw [hsplit, htrim, List.reverse_cons, Path.solid_append, Path.solid_singleton_of_counts hcounts,
      List.append_assoc]
    rfl

end Ancestors

end ConditionalText.Files.FileTree
