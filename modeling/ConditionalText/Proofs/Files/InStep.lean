import ConditionalText.Proofs.Files.Walk

/-!
# Work that does not notice other work

Two trees are in step (`FileTree.InStep`) if they differ only below some places, where other work
has written, and in directories above these, which it has created. Work that neither reads nor
writes there comes to the same on both trees and leaves them in step again.

The directories above are the delicate part: what leads through them is missing in one tree and
entered in the other, and it must come to the same in the end.

* `InStep.descend_or`: a path that leads elsewhere leads to the same, or to an error in both trees.
* `InStep.makeDirectories`, `InStep.write`: the two ways in which a tree changes.
* `InStep.processFile`, `InStep.walkFrom`, `InStep.processDirectory`: **preprocessing in step.**
-/

namespace ConditionalText.Files

open ConditionalText.Text

namespace FileTree

variable {t t' : FileTree} {p : Path} {place q r : Place} {cs : List Text} {c : Text}

/-- Neither place is the other one or stands below it. -/
def Apart (a b : Place) : Prop :=
  ¬ a <+: b ∧ ¬ b <+: a

instance (a b : Place) : Decidable (Apart a b) :=
  inferInstanceAs (Decidable (_ ∧ _))

theorem Apart.symm (h : Apart q r) : Apart r q :=
  And.symm h

/-- What stands below a place is apart from all that the place is apart from. -/
theorem Apart.of_isPrefix {w : Place} (h : Apart w q) (hq : q <+: r) : Apart w r := by
  refine ⟨fun hw => ?_, fun hr => h.2 (hq.trans hr)⟩
  rcases List.prefix_or_prefix_of_prefix hw hq with hwq | hqw
  · exact h.1 hwq
  · exact h.2 hqw

/-- Two trees that differ only below the places `ws` and in directories above them: the second tree
has, besides what the first has, the directories `more`. -/
structure InStep (ws : List Place) (more : Place → Option Node) (t t' : FileTree) : Prop where
  left : t.WellFormed
  right : t'.WellFormed
  current : t'.current = t.current
  above : ∀ q, more q = none ∨ more q = some .directory ∧ ∃ w ∈ ws, q <+: w
  node : ∀ q, (∀ w ∈ ws, ¬ w <+: q) → t'.node? q = (t.node? q).or (more q)

/-- Work that came to the same, on trees that are in step. -/
def Alike {α : Type} (ws : List Place) (more : Place → Option Node) (x x' : α × FileTree) : Prop :=
  x'.1 = x.1 ∧ InStep ws more x.2 x'.2

variable {ws : List Place} {more : Place → Option Node}

/-- Work in step succeeds in both trees or fails in both. -/
theorem Alike.cases {ε α : Type} {x x' : Except ε α × FileTree} (h : Alike ws more x x') :
    (∃ e u u', x = (.error e, u) ∧ x' = (.error e, u') ∧ InStep ws more u u') ∨
      ∃ a u u', x = (.ok a, u) ∧ x' = (.ok a, u') ∧ InStep ws more u u' := by
  obtain ⟨r, u⟩ := x
  obtain ⟨r', u'⟩ := x'
  obtain ⟨heq, hstep⟩ := h
  cases heq
  cases r with
  | error e => exact .inl ⟨e, u, u', rfl, rfl, hstep⟩
  | ok a => exact .inr ⟨a, u, u', rfl, rfl, hstep⟩

theorem InStep.eq_of_apart (h : InStep ws more t t') (hq : ∀ w ∈ ws, Apart w q) :
    t'.node? q = t.node? q := by
  rw [h.node q fun w hw => (hq w hw).1]
  rcases h.above q with hnone | ⟨-, w, hw, hstarts⟩
  · rw [hnone, Option.or_none]
  · exact absurd hstarts (hq w hw).2

theorem InStep.eq_of_isSome (h : InStep ws more t t') (hq : ∀ w ∈ ws, ¬ w <+: q)
    (hsome : (t.node? q).isSome) : t'.node? q = t.node? q := by
  rw [h.node q hq]
  cases hnode : t.node? q with
  | none =>
    rw [hnode] at hsome
    cases hsome
  | some node => rfl

/-- Only a directory can be missing in the first tree. -/
theorem InStep.eq_of_eq_none (h : InStep ws more t t') (hq : ∀ w ∈ ws, ¬ w <+: q)
    (hnone : t.node? q = none) :
    t'.node? q = none ∨ t'.node? q = some .directory ∧ ∃ w ∈ ws, q <+: w := by
  rw [h.node q hq, hnone, Option.none_or]
  exact h.above q

/-! ## Following paths -/

/-- What is the same on the way leads to the same. -/
theorem descend_congr
    (h : ∀ before, before <+: cs →
      t'.node? (before.foldl follow place) = t.node? (before.foldl follow place)) :
    t'.descend place cs = t.descend place cs := by
  induction cs generalizing place with
  | nil =>
    rw [descend, descend, show t'.node? place = t.node? place from h [] List.nil_prefix]
  | cons c cs ih =>
    have hmore := ih fun before hbefore =>
      h (c :: before) (List.cons_prefix_cons.mpr ⟨rfl, hbefore⟩)
    rw [descend, descend, show t'.node? place = t.node? place from h [] List.nil_prefix, hmore]

theorem not_isPrefix_of_isPrefix (hr : ∀ w ∈ ws, ¬ w <+: r) (hq : q <+: r) :
    ∀ w ∈ ws, ¬ w <+: q :=
  fun w hw hstarts => hr w hw (hstarts.trans hq)

/-- **A way that ends elsewhere ends at the same place in both trees, or in an error in both**, and
in the same error unless one of the names is too long. -/
theorem InStep.descend_or (h : InStep ws more t t') (hcs : dotDot ∉ cs)
    (hend : ∀ w ∈ ws, Apart w (cs.foldl follow place)) :
    t'.descend place cs = t.descend place cs ∨
      (∃ c ∈ cs, maxNameBytes < byteLength c) ∧ (∃ e, t.descend place cs = .error e) ∧
        ∃ e, t'.descend place cs = .error e := by
  induction cs generalizing place with
  | nil =>
    have hnode : t'.node? place = t.node? place := h.eq_of_apart hend
    refine .inl ?_
    rw [FileTree.descend, FileTree.descend, hnode]
  | cons c cs ih =>
    have hmore : dotDot ∉ cs := fun hmem => hcs (List.mem_cons_of_mem c hmem)
    have hplace : ∀ w ∈ ws, ¬ w <+: place :=
      not_isPrefix_of_isPrefix (fun w hw => (hend w hw).1) (isPrefix_foldl_follow place hcs)
    have ih := ih hmore hend
    rw [descend, descend]
    cases hnode : t.node? place with
    | some node =>
      rw [h.eq_of_isSome hplace (by rw [hnode]; rfl), hnode]
      cases node with
      | file content => exact .inl rfl
      | directory =>
        simp only
        by_cases hlong : maxNameBytes < byteLength c
        · rw [if_pos hlong, if_pos hlong]
          exact .inl rfl
        · simp only [if_neg hlong]
          refine ih.imp_right (And.imp_left ?_)
          rintro ⟨d, hd, hlong'⟩
          exact ⟨d, List.mem_cons_of_mem c hd, hlong'⟩
    | none =>
      rcases h.eq_of_eq_none hplace hnode with hnode' | ⟨hnode', -⟩
      · rw [hnode']
        exact .inl rfl
      · -- the second tree leads on into a directory that is empty as far as this way goes
        rw [hnode']
        simp only
        by_cases hlong : maxNameBytes < byteLength c
        · simp only [if_pos hlong]
          exact .inr ⟨⟨c, List.mem_cons_self, hlong⟩, ⟨_, rfl⟩, ⟨_, rfl⟩⟩
        · simp only [if_neg hlong]
          have hnext : t.node? (follow place c) = none := by
            have hc : c ≠ dotDot := fun hc => hcs (hc ▸ List.mem_cons_self)
            by_cases hdot : c = dot
            · rw [follow, if_pos hdot, hnode]
            · rw [follow_of_ne place hdot hc]
              exact h.left.eq_none_of_append (by simp [hnode]) (by simp)
          rw [descend_of_none hnext] at ih
          rcases ih with hsame | ⟨⟨d, hd, hlong⟩, -, herror⟩
          · exact .inl hsame
          · exact .inr ⟨⟨d, List.mem_cons_of_mem c hd, hlong⟩, ⟨_, rfl⟩, herror⟩

theorem InStep.origin_eq (h : InStep ws more t t') (p : Path) : t'.origin p = t.origin p :=
  origin_congr h.current p

theorem InStep.target_eq (h : InStep ws more t t') (p : Path) : t'.target p = t.target p :=
  target_congr h.current p

/-- Whether there is a directory elsewhere is the same in both trees. -/
theorem InStep.isDirectory (h : InStep ws more t t') (hp : dotDot ∉ p.components)
    (hend : ∀ w ∈ ws, Apart w (t.target p)) : t'.isDirectory p = t.isDirectory p := by
  rw [Bool.eq_iff_iff, isDirectory_iff, isDirectory_iff, h.origin_eq]
  have hnode {q : Place} (hq : t.descend (t.origin p) p.components = .ok q) :
      t'.node? q = t.node? q := by
    rw [(eq_of_descend hq).1]
    exact h.eq_of_apart hend
  rcases h.descend_or hp hend with hsame | ⟨-, ⟨e, herror⟩, e', herror'⟩
  · rw [hsame]
    constructor
    · rintro ⟨q, hcheck, hq, hdirectory⟩
      exact ⟨q, hcheck, hq, by rwa [hnode hq] at hdirectory⟩
    · rintro ⟨q, hcheck, hq, hdirectory⟩
      exact ⟨q, hcheck, hq, by rwa [hnode hq]⟩
  · rw [herror, herror']
    simp

/-- What is read is told by where the path leads and what is there. -/
theorem read_congr
    (hdescend : t'.descend (t'.origin p) p.components = t.descend (t.origin p) p.components)
    (hnode : ∀ q, t.descend (t.origin p) p.components = .ok q → t'.node? q = t.node? q) :
    t'.read p = t.read p := by
  rw [FileTree.read, FileTree.read, locate, locate, hdescend]
  cases checkPath p with
  | error e => rfl
  | ok _ =>
    cases hq : t.descend (t.origin p) p.components with
    | error e => rfl
    | ok q =>
      have hq' := hnode q hq
      simp only [Except.bind, hq']
      cases p.endsInSlash with
      | false => simp only [hq']
      | true =>
        cases hn : t.node? q with
        | none => simp only [hq', hn]
        | some node =>
          cases node with
          | file content => rfl
          | directory => simp only [hq', hn]

/-- A file elsewhere is read in both trees or in none, with the same error. -/
theorem InStep.read (h : InStep ws more t t') (hp : dotDot ∉ p.components)
    (hend : ∀ w ∈ ws, Apart w (t.target p))
    (hshort : ∀ c ∈ p.components, byteLength c ≤ maxNameBytes) : t'.read p = t.read p := by
  have hdescend : t'.descend (t.origin p) p.components = t.descend (t.origin p) p.components := by
    rcases h.descend_or hp hend with hsame | ⟨⟨c, hc, hlong⟩, -⟩
    · exact hsame
    · exact absurd hlong (Nat.not_lt.mpr (hshort c hc))
  refine read_congr (by rw [h.origin_eq, hdescend]) fun q hq => ?_
  rw [(eq_of_descend hq).1]
  exact h.eq_of_apart hend

/-- What a name below a directory reads is told by what stands there. -/
theorem Leads.read_congr {name : Text} (h : t.Leads p place) (h' : t'.Leads p place)
    (hname : IsName name) (hnode : t'.node? (place ++ [name]) = t.node? (place ++ [name])) :
    t'.read (p.join name) = t.read (p.join name) := by
  refine FileTree.read_congr ?_ fun q hq => ?_
  · rw [h.descend_join hname, h'.descend_join hname, FileTree.descend, FileTree.descend, hnode]
  · rw [h.descend_join hname] at hq
    rw [(eq_of_descend hq).1]
    exact hnode

/-! ## Creating directories -/

/-- A directory that is created in both trees. -/
theorem InStep.setNode (h : InStep ws more t t') {name : Text} {node : Node}
    (hplace : t.node? place = some .directory) (hplace' : t'.node? place = some .directory)
    (hname : IsName name) (hnode : t.node? (place ++ [name]) = some .directory → node = .directory)
    (hnode' : t'.node? (place ++ [name]) = some .directory → node = .directory) :
    InStep ws more (t.setNode (place ++ [name]) node) (t'.setNode (place ++ [name]) node) where
  left := h.left.setNode hplace hname hnode
  right := h.right.setNode hplace' hname hnode'
  current := h.current
  above := h.above
  node q hq := by
    rw [node?_setNode_concat, node?_setNode_concat]
    split
    · rfl
    · exact h.node q hq

/-- A directory that is created in the first tree and is in the second one already. -/
theorem InStep.setNode_left (h : InStep ws more t t') {name : Text}
    (hplace : t.node? place = some .directory) (hname : IsName name)
    (hnode' : t'.node? (place ++ [name]) = some .directory) :
    InStep ws more (t.setNode (place ++ [name]) .directory) t' where
  left := h.left.setNode hplace hname fun _ => rfl
  right := h.right
  current := h.current
  above := h.above
  node q hq := by
    rw [node?_setNode_concat]
    split
    · next heq =>
      rw [heq, hnode']
      rfl
    · exact h.node q hq

/-- Directories are created on the way in both trees, or are there in the second one already. A way
that ends in a dot must end elsewhere, for its last name is not created. -/
theorem InStep.makeAlong (h : InStep ws more t t') (hplace : t.node? place = some .directory)
    (hspelled : Spelled cs) (hcs : dotDot ∉ cs) (hend : ∀ w ∈ ws, ¬ w <+: cs.foldl follow place)
    (hdots : cs.getLast? = some dot → cs = [dot] ∨ ∀ w ∈ ws, ¬ cs.foldl follow place <+: w) :
    Alike ws more (t.makeAlong place cs) (t'.makeAlong place cs) := by
  induction cs generalizing t t' place with
  | nil => exact ⟨rfl, h⟩
  | cons c cs ih =>
    have hmore : dotDot ∉ cs := fun hmem => hcs (List.mem_cons_of_mem c hmem)
    have hspelled' : Spelled cs := fun d hd => hspelled d (List.mem_cons_of_mem c hd)
    have hdots' : cs.getLast? = some dot →
        cs = [dot] ∨ ∀ w ∈ ws, ¬ cs.foldl follow (follow place c) <+: w := by
      intro hlast
      have hne : cs ≠ [] := by
        rintro rfl
        cases hlast
      rcases hdots (by rw [List.getLast?_cons, hlast]; rfl) with hone | hend
      · exact absurd (List.cons.inj hone).2 hne
      · exact .inr hend
    have hhere : ∀ w ∈ ws, ¬ w <+: follow place c :=
      not_isPrefix_of_isPrefix hend (isPrefix_foldl_follow (follow place c) hmore)
    have hplace' : t'.node? place = some .directory := by
      rw [h.eq_of_isSome (not_isPrefix_of_isPrefix hend (isPrefix_foldl_follow place hcs))
        (by rw [hplace]; rfl), hplace]
    by_cases hlong : maxNameBytes < byteLength c
    · rw [makeAlong_of_long hlong, makeAlong_of_long hlong]
      exact ⟨rfl, h⟩
    · have hshort := Nat.not_lt.mp hlong
      cases hnode : t.node? (follow place c) with
      | some node =>
        have hnode' := h.eq_of_isSome hhere (by rw [hnode]; rfl)
        rw [hnode] at hnode'
        cases node with
        | directory =>
          rw [makeAlong_of_directory hshort hnode, makeAlong_of_directory hshort hnode']
          exact ih h hnode hspelled' hmore hend hdots'
        | file content =>
          rw [makeAlong_of_file hshort hnode, makeAlong_of_file hshort hnode']
          exact ⟨rfl, h⟩
      | none =>
        obtain ⟨hdot, hdotDot, hfollow⟩ := h.left.follow_of_none hplace hnode
        obtain ⟨hne, hslash, hzero⟩ := hspelled c List.mem_cons_self
        have hname : IsName c := ⟨hne, hslash, hzero, hdot, hdotDot, hshort⟩
        have hcreated : ∀ u : FileTree,
            (u.setNode (follow place c) .directory).node? (follow place c) = some .directory := by
          intro u
          rw [hfollow, node?_setNode_concat, if_pos rfl]
        by_cases hrule : cs = [] ∨ ∃ d ∈ cs, d ≠ dot
        · rw [makeAlong_of_none hshort hnode hrule]
          rcases h.eq_of_eq_none hhere hnode with hnode' | ⟨hnode', -⟩
          · rw [makeAlong_of_none hshort hnode' hrule]
            refine ih ?_ (hcreated t) hspelled' hmore hend hdots'
            rw [hfollow]
            exact h.setNode hplace hplace' hname (fun _ => rfl) fun _ => rfl
          · rw [makeAlong_of_directory hshort hnode']
            refine ih ?_ (hcreated t) hspelled' hmore hend hdots'
            rw [hfollow] at hnode' ⊢
            exact h.setNode_left hplace hname hnode'
        · -- only dots follow, so the way ends here
          rw [not_or, not_exists] at hrule
          have hall : ∀ d ∈ cs, d = dot := fun d hd =>
            Classical.not_not.mp fun hne => hrule.2 d ⟨hd, hne⟩
          have hlast : (c :: cs).getLast? = some dot := by
            rw [List.getLast?_cons, List.getLast?_eq_some_getLast hrule.1]
            exact congrArg some (hall _ (List.getLast_mem hrule.1))
          have hnode' : t'.node? (follow place c) = none := by
            rcases h.eq_of_eq_none hhere hnode with hnode' | ⟨-, w, hw, hstarts⟩
            · exact hnode'
            · rcases hdots hlast with hone | hapart
              · exact absurd (List.cons.inj hone).2 hrule.1
              · rw [List.foldl_cons, foldl_follow_dots _ hall] at hapart
                exact absurd hstarts (hapart w hw)
          rw [makeAlong_of_dots hshort hnode hrule.1 hall,
            makeAlong_of_dots hshort hnode' hrule.1 hall]
          exact ⟨rfl, h⟩

theorem InStep.makeDirectories (h : InStep ws more t t') (hp : dotDot ∉ p.components)
    (hend : ∀ w ∈ ws, ¬ w <+: t.target p)
    (hdots : p.components.getLast? = some dot →
      p.components = [dot] ∨ ∀ w ∈ ws, ¬ t.target p <+: w) :
    Alike ws more (t.makeDirectories p) (t'.makeDirectories p) := by
  cases hcheck : checkPath p with
  | error e =>
    rw [makeDirectories_of_checkPath hcheck, makeDirectories_of_checkPath hcheck]
    exact ⟨rfl, h⟩
  | ok _ =>
    have horigin := h.left.node?_origin p
    have horigin' := h.right.node?_origin p
    rw [h.left.makeDirectories_eq (forward_of_not_mem horigin hp) hcheck,
      h.right.makeDirectories_eq (forward_of_not_mem horigin' hp) hcheck, h.origin_eq]
    exact h.makeAlong horigin (spelled_components hcheck) hp hend hdots

/-! ## Writing -/

/-- Everything on the way to a path is a directory, but perhaps its end. -/
def Open (t : FileTree) (p : Path) : Prop :=
  ∀ before, before <+: p.components →
    t.node? (before.foldl follow (t.origin p)) = some .directory ∨
      before.foldl follow (t.origin p) = t.target p

theorem Open.of_writes {files dirs : Place → Prop} (h : t.Open p)
    (hwrites : t.Writes files dirs t') :
    t'.Open p := by
  intro before hbefore
  rw [origin_congr hwrites.current, target_congr hwrites.current]
  exact (h before hbefore).imp_left hwrites.directory

/-- The way to a path is open if it leads through a directory to its last component. -/
theorem WellFormed.open_of_components (h : t.WellFormed) {last : Text} {behind : List Text}
    (hcomponents : p.components = cs ++ last :: behind) (hcs : dotDot ∉ cs)
    (hbehind : ∀ d ∈ behind, d = dot)
    (hplace : t.node? (cs.foldl follow (t.origin p)) = some .directory) : t.Open p := by
  intro before hbefore
  rw [target, hcomponents, List.foldl_append, List.foldl_cons, foldl_follow_dots _ hbehind]
  rw [hcomponents] at hbefore
  rcases List.prefix_or_prefix_of_prefix hbefore (List.prefix_append cs _) with hstarts | ⟨rest, rfl⟩
  · exact .inl (h.directory_of_prefix (foldl_follow_isPrefix _ hcs hstarts) hplace)
  · rw [List.foldl_append]
    rw [List.prefix_append_right_inj] at hbefore
    cases rest with
    | nil => exact .inl hplace
    | cons c rest =>
      obtain ⟨rfl, hrest⟩ := List.cons_prefix_cons.mp hbefore
      rw [List.foldl_cons, foldl_follow_dots _ fun d hd => hbehind d (hrest.subset hd)]
      exact .inr rfl

/-- On an open way to somewhere else both trees are the same. -/
theorem InStep.eq_of_open (h : InStep ws more t t') (hopen : t.Open p)
    (hp : dotDot ∉ p.components) (hend : ∀ w ∈ ws, Apart w (t.target p)) {before : List Text}
    (hbefore : before <+: p.components) :
    t'.node? (before.foldl follow (t.origin p)) = t.node? (before.foldl follow (t.origin p)) := by
  rcases hopen before hbefore with hdirectory | htarget
  · exact h.eq_of_isSome (not_isPrefix_of_isPrefix (fun w hw => (hend w hw).1)
      (foldl_follow_isPrefix _ hp hbefore)) (by rw [hdirectory]; rfl)
  · rw [htarget]
    exact h.eq_of_apart hend

/-- A file elsewhere is written in both trees or in none. -/
theorem InStep.write (h : InStep ws more t t') (hopen : t.Open p) (hp : dotDot ∉ p.components)
    (hend : ∀ w ∈ ws, Apart w (t.target p)) (content : Content) :
    (∃ e, t.write p content = .error e ∧ t'.write p content = .error e) ∨
      ∃ u u', t.write p content = .ok u ∧ t'.write p content = .ok u' ∧ InStep ws more u u' := by
  cases hcheck : checkPath p with
  | error e =>
    refine .inl ⟨e, ?_, ?_⟩
    · rw [FileTree.write, locateLast, hcheck]
      rfl
    · rw [FileTree.write, locateLast, hcheck]
      rfl
  | ok _ =>
    rcases List.eq_nil_or_concat' p.components with hnil | ⟨cs, c, hcomponents⟩
    · refine .inl ⟨.isADirectory, ?_, ?_⟩
      · rw [FileTree.write, locateLast, hcheck, hnil]
        rfl
      · rw [FileTree.write, locateLast, hcheck, hnil]
        rfl
    · have hway {before : List Text} (hbefore : before <+: cs ++ [c]) :=
        h.eq_of_open hopen hp hend (hcomponents ▸ hbefore)
      have hdescend : t'.descend (t.origin p) cs = t.descend (t.origin p) cs :=
        descend_congr fun before hbefore => hway (hbefore.trans (List.prefix_append _ _))
      rw [write_of_components hcheck hcomponents, write_of_components hcheck hcomponents,
        h.origin_eq, hdescend]
      cases hplace : t.descend (t.origin p) cs with
      | error e => exact .inl ⟨e, rfl, rfl⟩
      | ok place =>
        have hfold := (eq_of_descend hplace).1
        have hnode : t'.node? place = t.node? place := by
          rw [hfold]
          exact hway (List.prefix_append _ _)
        simp only [Except.bind, hnode]
        by_cases hdirectory : t.node? place = some .directory
        · by_cases hlast : c = dot ∨ c = dotDot ∨ p.endsInSlash = true
          · simp only [if_pos hdirectory, if_pos hlast]
            exact .inl ⟨_, rfl, rfl⟩
          · by_cases hlong : maxNameBytes < byteLength c
            · simp only [if_pos hdirectory, if_neg hlast, if_pos hlong]
              exact .inl ⟨_, rfl, rfl⟩
            · rw [not_or, not_or] at hlast
              have hhere : t'.node? (place ++ [c]) = t.node? (place ++ [c]) := by
                have := hway (List.prefix_refl (cs ++ [c]))
                rwa [List.foldl_concat, ← hfold, follow_of_ne place hlast.1 hlast.2.1] at this
              simp only [if_pos hdirectory, if_neg (not_or.mpr ⟨hlast.1, not_or.mpr hlast.2⟩),
                if_neg hlong, hhere]
              by_cases hdir : t.node? (place ++ [c]) = some .directory
              · simp only [if_pos hdir]
                exact .inl ⟨_, rfl, rfl⟩
              · simp only [if_neg hdir]
                obtain ⟨hne, hslash, hzero⟩ := spelled_components hcheck c (by simp [hcomponents])
                refine .inr ⟨_, _, rfl, rfl, h.setNode hdirectory (hnode.trans hdirectory)
                  ⟨hne, hslash, hzero, hlast.1, hlast.2.1, Nat.not_lt.mp hlong⟩
                  (fun heq => absurd heq hdir) fun heq => absurd (hhere ▸ heq) hdir⟩
        · simp only [if_neg hdirectory]
          exact .inl ⟨_, rfl, rfl⟩

theorem InStep.writeAll (h : InStep ws more t t') {written : List (Path × Text)}
    (hopen : ∀ output ∈ written, t.Open output.1)
    (hpaths : ∀ output ∈ written, dotDot ∉ output.1.components)
    (hend : ∀ output ∈ written, ∀ w ∈ ws, Apart w (t.target output.1)) :
    Alike ws more (t.writeAll written) (t'.writeAll written) := by
  induction written generalizing t t' with
  | nil => exact ⟨rfl, h⟩
  | cons output written ih =>
    obtain ⟨p, text⟩ := output
    rw [FileTree.writeAll, FileTree.writeAll]
    rcases h.write (hopen _ List.mem_cons_self) (hpaths _ List.mem_cons_self)
      (hend _ List.mem_cons_self) (.text text) with ⟨e, herror, herror'⟩ | ⟨u, u', hu, hu', hstep⟩
    · rw [herror, herror']
      exact ⟨rfl, h⟩
    · have hwrites := h.left.write_writes hu
      rw [hu, hu']
      refine ih hstep (fun output houtput => ?_)
        (fun output houtput => hpaths output (List.mem_cons_of_mem _ houtput))
        fun output houtput => ?_
      · exact (hopen output (List.mem_cons_of_mem _ houtput)).of_writes hwrites
      · rw [target_congr hwrites.current]
        exact hend output (List.mem_cons_of_mem _ houtput)

end FileTree

namespace Setup

open FileTree

variable {s : Setup} {w : Walk} {t t' : FileTree} {source output p : Path} {src : Place}
  {ws : List Place} {more : Place → Option Node} {below : List Text} {name : Text}

/-! ## One file -/

/-- The way to every output is open once its directory is there. -/
theorem open_of_mem_outputPaths (h : t.WellFormed) (hout : dotDot ∉ output.components)
    (hparent : ∀ parent, output.parent? = some parent →
      t.node? (t.target parent) = some .directory)
    (hp : p ∈ s.outputPaths output) : t.Open p ∧ dotDot ∉ p.components := by
  have hself : t.Open output := by
    cases hnone : output.parent? with
    | none =>
      have hdots := Path.components_of_parent?_eq_none hnone
      intro before hbefore
      rw [target, foldl_follow_dots _ hdots,
        foldl_follow_dots _ fun d hd => hdots d (hbefore.subset hd)]
      exact .inr rfl
    | some parent =>
      obtain ⟨gap, last, behind, hparted⟩ := Path.exists_parted hnone
      refine h.open_of_components hparted.components (fun hmem => hout ?_) hparted.behindDots ?_
      · rw [hparted.components]
        exact List.mem_append_left _ hmem
      · rw [List.foldl_append, foldl_follow_dots _ hparted.gapDots,
          ← origin_of_isAbsolute hparted.isAbsolute]
        exact hparent parent hnone
  unfold outputPaths at hp
  split at hp
  · cases hname : output.fileName? with
    | none =>
      rw [hname] at hp
      cases hp
    | some name =>
      rw [hname] at hp
      rcases List.mem_cons.mp hp with rfl | hp
      · obtain ⟨parent, gap, behind, hparent', hparted, -, -⟩ :=
          Path.exists_parted_of_fileName? hname
        have hplain := Path.isPlain_mapName hname
        have hparentDots : dotDot ∉ parent.components := fun hmem => hout <| by
          rw [hparted.components]
          exact List.mem_append_left _ (List.mem_append_left _ hmem)
        rw [Path.withFileName_eq hname hparent']
        refine ⟨h.open_of_components (hplain.components_join parent) hparentDots (by simp) ?_, ?_⟩
        · rw [origin_of_isAbsolute (hplain.isAbsolute_join parent)]
          exact hparent parent hparent'
        · rw [hplain.components_join, List.mem_append, not_or, List.mem_singleton]
          exact ⟨hparentDots, Ne.symm hplain.notDotDot⟩
      · rw [List.mem_singleton.mp hp]
        exact ⟨hself, hout⟩
  · rw [List.mem_singleton.mp hp]
    exact ⟨hself, hout⟩

theorem processText_congr (h : t'.read source = t.read source) :
    s.processText t' source = s.processText t source := by
  rw [processText, processText, h]

theorem InStep.makeParent (h : InStep ws more t t') (hout : dotDot ∉ output.components)
    (hend : ∀ w ∈ ws, Apart w (t.target output)) :
    Alike ws more (t.makeParent output) (t'.makeParent output) := by
  rw [FileTree.makeParent, FileTree.makeParent]
  split
  · exact ⟨rfl, h⟩
  · next parent hparent =>
    obtain ⟨gap, last, behind, hparted⟩ := Path.exists_parted hparent
    have hparentDots : dotDot ∉ parent.components := fun hmem => hout <| by
      rw [hparted.components]
      exact List.mem_append_left _ (List.mem_append_left _ hmem)
    exact h.makeDirectories hparentDots
      (not_isPrefix_of_isPrefix (fun w hw => (hend w hw).1) (target_parent_isPrefix hout hparent))
      fun hlast => .inl (hparted.trimmed hlast)

/-- **A file is preprocessed in step** if its source reads the same and its outputs are elsewhere. -/
theorem InStep.processFile (h : InStep ws more t t') (hread : t'.read source = t.read source)
    (hout : dotDot ∉ output.components)
    (hend : ∀ p ∈ output :: s.outputPaths output, ∀ w ∈ ws, Apart w (t.target p)) :
    Alike ws more ((s.processFile source output).exec t)
      ((s.processFile source output).exec t') := by
  have hforward := forward_of_not_mem (h.left.node?_origin output) hout
  have hwrites := h.left.makeParent_writes hforward
  rw [exec_processFile, exec_processFile, processText_congr hread]
  cases s.processText t source with
  | error e => exact ⟨rfl, h⟩
  | ok r =>
    obtain ⟨text, out⟩ := r
    simp only
    rcases (InStep.makeParent h hout (hend output List.mem_cons_self)).cases with
      ⟨e, t₁, t₁', hmake, hmake', hstep⟩ | ⟨_, t₁, t₁', hmake, hmake', hstep⟩
    · rw [hmake, hmake']
      exact ⟨rfl, hstep⟩
    rw [hmake] at hwrites
    rw [hmake, hmake']
    simp only
    cases hwritten : s.outputs source output text out with
    | error e => exact ⟨rfl, hstep⟩
    | ok written =>
      have hmem {file : Path × Text} (hfile : file ∈ written) :
          file.1 ∈ s.outputPaths output := by
        rw [← map_fst_outputs hwritten]
        exact List.mem_map_of_mem hfile
      have hopen {file : Path × Text} (hfile : file ∈ written) :=
        open_of_mem_outputPaths hwrites.wellFormed hout (fun parent hparent => by
          rw [target_congr hwrites.current]
          exact h.left.directory_of_makeParent hparent hmake) (hmem hfile)
      have hall := hstep.writeAll (fun file hfile => (hopen hfile).1)
        (fun file hfile => (hopen hfile).2) fun file hfile => by
          rw [target_congr hwrites.current]
          exact hend _ (List.mem_cons_of_mem _ (hmem hfile))
      simp only
      rcases hall.cases with ⟨e, t₂, t₂', hall₁, hall₂, hstep'⟩ | ⟨_, t₂, t₂', hall₁, hall₂, hstep'⟩
      · rw [hall₁, hall₂]
        exact ⟨rfl, hstep'⟩
      · rw [hall₁, hall₂]
        exact ⟨rfl, hstep'⟩

/-! ## Directories -/

/-- Two walks in step: the directories are there in both trees, and nothing else is written around
them. -/
structure WalkInStep (ws : List Place) (more : Place → Option Node) (source : Path) (src : Place)
    (w : Walk) (t t' : FileTree) : Prop where
  inStep : InStep ws more t t'
  left : Underway t source src w
  right : Underway t' source src w

theorem note_alike {action : Action Summary} {st st' : Summary × FileTree} (hsummary : st'.1 = st.1)
    (h : Alike ws more (action.exec st.2) (action.exec st'.2)) :
    Alike ws more (note action st) (note action st') := by
  rw [note, note, hsummary]
  rcases h.cases with ⟨e, u, u', hu, hu', hstep⟩ | ⟨a, u, u', hu, hu', hstep⟩
  · rw [hu, hu']
    exact ⟨rfl, hstep⟩
  · rw [hu, hu']
    exact ⟨rfl, hstep⟩

theorem kept_underway (s : Setup) (source : Path) (src : Place) (w : Walk) :
    Kept s source src w fun u => Underway u source src w :=
  ⟨fun _ => id, fun _ _ _ hu hbelow hname _ _ =>
    hu.of_writes (hu.processFile_writes hbelow hname _)⟩

section Walks

variable (hsrc : ∀ w' ∈ ws, Apart w' src) (hplace : ∀ w' ∈ ws, Apart w' w.place)
  (houtput : dotDot ∉ w.output.components)
include hsrc hplace houtput

/-- A name is visited in step if directories are walked in step. -/
theorem visit_alike {fuel : Nat} {st st' : Summary × FileTree} (hsummary : st'.1 = st.1)
    (h : WalkInStep ws more source src w st.2 st'.2) (hwithin : Within src w below st.2)
    (hname : IsName name)
    (hwalk : ∀ below (st st' : Summary × FileTree), st'.1 = st.1 →
      WalkInStep ws more source src w st.2 st'.2 → Within src w below st.2 →
      Alike ws more (s.walkFrom w fuel (below.foldl Path.join source) (src ++ below) below st)
        (s.walkFrom w fuel (below.foldl Path.join source) (src ++ below) below st')) :
    Alike ws more (s.visit w fuel (below.foldl Path.join source) below st name)
      (s.visit w fuel (below.foldl Path.join source) below st' name) := by
  have hsame {q : Place} (hq : src <+: q) : st'.2.node? q = st.2.node? q :=
    h.inStep.eq_of_apart fun w' hw' => (hsrc w' hw').of_isPrefix hq
  have hwithin' : Within src w below st'.2 :=
    ⟨hwithin.names, hwithin.walkable, by
      rw [hsame (List.prefix_append _ _)]
      exact hwithin.directory⟩
  have hleads := h.left.source.foldl_join h.left.wellFormed hwithin.directory
  have hleads' := h.right.source.foldl_join h.right.wellFormed hwithin'.directory
  have hnode : st'.2.node? (src ++ below ++ [name]) = st.2.node? (src ++ below ++ [name]) := by
    rw [List.append_assoc]
    exact hsame (List.prefix_append _ _)
  have hdirectory : st'.2.isDirectory ((below.foldl Path.join source).join name) =
      st.2.isDirectory ((below.foldl Path.join source).join name) := by
    rw [Bool.eq_iff_iff, hleads.isDirectory_join hname, hleads'.isDirectory_join hname, hnode]
  have hstay : Alike ws more (arrived st) (arrived st') := ⟨congrArg Except.ok hsummary, h.inStep⟩
  by_cases hdir : st.2.isDirectory ((below.foldl Path.join source).join name) = true
  · rw [visit_directory h.left hwithin hname hdir,
      visit_directory h.right hwithin' hname (hdirectory.trans hdir),
      resolvable_congr h.inStep.current]
    split
    · split
      · exact hstay
      · next hne => exact hwalk _ st st' hsummary h (hwithin.concat h.left hname hdir hne)
    · exact ⟨rfl, h.inStep⟩
  · rw [visit, visit, if_neg hdir, hdirectory, if_neg hdir]
    split
    · have hdots : dotDot ∉ (s.outputPath w below name).components := by
        intro hmem
        rw [components_outputPath hwithin.names hname] at hmem
        rcases List.mem_append.mp hmem with hmem | hmem
        · exact houtput hmem
        · exact (isName_of_mem_concat (fun c hc => hwithin.names c (mem_of_mem_kept hc)) hname _
            hmem).notDotDot rfl
      have hapart : ∀ p ∈ s.outputPath w below name :: s.outputPaths (s.outputPath w below name),
          ∀ w' ∈ ws, Apart w' (st.2.target p) := by
        intro p hp w' hw'
        refine (hplace w' hw').of_isPrefix ?_
        rcases List.mem_cons.mp hp with rfl | hp
        · rw [h.left.target_outputPath hwithin.names hname, List.append_assoc]
          exact List.prefix_append _ _
        · obtain ⟨last, hlast⟩ := h.left.target_of_mem_outputPaths hwithin.names hname hp
          rw [hlast, List.append_assoc]
          exact List.prefix_append _ _
      have hnote := note_alike hsummary (InStep.processFile h.inStep
        (hleads.read_congr hleads' hname hnode) hdots hapart)
      exact ⟨congrArg Except.ok hnote.1, hnote.2⟩
    · exact hstay

/-- **A directory is walked in step.** -/
theorem walkFrom_alike (fuel : Nat) (below : List Text) (st st' : Summary × FileTree)
    (hsummary : st'.1 = st.1) (h : WalkInStep ws more source src w st.2 st'.2)
    (hwithin : Within src w below st.2) :
    Alike ws more (s.walkFrom w fuel (below.foldl Path.join source) (src ++ below) below st)
      (s.walkFrom w fuel (below.foldl Path.join source) (src ++ below) below st') := by
  induction fuel generalizing below st st' with
  | zero => exact ⟨congrArg Except.ok hsummary, h.inStep⟩
  | succ fuel ih =>
    have hnames : st'.2.names (src ++ below) = st.2.names (src ++ below) :=
      names_congr fun name => by
        rw [h.inStep.eq_of_apart fun w' hw' => (hsrc w' hw').of_isPrefix
          (by rw [List.append_assoc]; exact List.prefix_append _ _)]
    have hall : ∀ name ∈ st.2.names (src ++ below), IsName name := fun name hname =>
      h.left.wellFormed.isName_of_mem_names hname
    rw [walkFrom_succ, walkFrom_succ, hnames]
    generalize st.2.names (src ++ below) = names at hall
    clear hnames
    induction names generalizing st st' with
    | nil => exact ⟨congrArg Except.ok hsummary, h.inStep⟩
    | cons name names ihnames =>
      have hname := hall name List.mem_cons_self
      have hwithin' : Within src w below st'.2 :=
        ⟨hwithin.names, hwithin.walkable, by
          rw [h.inStep.eq_of_apart fun w' hw' => (hsrc w' hw').of_isPrefix (List.prefix_append _ _)]
          exact hwithin.directory⟩
      have hkept := kept_underway s source src w
      have hleft := hkept.visit h.left hwithin hname (hkept.walkFrom fuel)
      have hright := hkept.visit h.right hwithin' hname (hkept.walkFrom fuel)
      rw [visitAll, visitAll]
      rcases (visit_alike hsrc hplace houtput hsummary h hwithin hname ih).cases with
        ⟨e, u, u', hu, hu', hstep⟩ | ⟨summary, u, u', hu, hu', hstep⟩
      · rw [hu, hu']
        exact ⟨rfl, hstep⟩
      · rw [hu] at hleft
        rw [hu'] at hright
        rw [hu, hu']
        exact ihnames (summary, u) (summary, u') rfl ⟨hstep, hleft.1, hright.1⟩
          (hwithin.of_writes hleft.2) fun n hn => hall n (List.mem_cons_of_mem name hn)

end Walks

/-- **A directory is preprocessed in step** if its source and its output directory are elsewhere. -/
theorem InStep.processDirectory (h : InStep ws more t t') (hpath : dotDot ∉ source.components)
    (hout : dotDot ∉ output.components) (hsrc : ∀ w ∈ ws, Apart w (t.target source))
    (hend : ∀ w ∈ ws, Apart w (t.target output)) :
    Alike ws more ((s.processDirectory source output).exec t)
      ((s.processDirectory source output).exec t') := by
  have hisDirectory := h.isDirectory hpath hsrc
  by_cases hdirectory : t.isDirectory source = true
  · have hdirectory' := hisDirectory.trans hdirectory
    rcases (h.makeDirectories hout (fun w hw => (hend w hw).1)
      fun _ => .inr fun w hw => (hend w hw).2).cases with
      ⟨e, t₁, t₁', hmake, hmake', hstep⟩ | ⟨_, t₁, t₁', hmake, hmake', hstep⟩
    · rw [exec_processDirectory, exec_processDirectory, if_pos hdirectory, if_pos hdirectory',
        hmake, hmake']
      exact ⟨rfl, hstep⟩
    by_cases hne : output = []
    · subst hne
      rw [exec_processDirectory, exec_processDirectory, if_pos hdirectory, if_pos hdirectory',
        hmake, hmake']
      exact ⟨rfl, hstep⟩
    obtain ⟨-, -, hunder⟩ := underway_of_makeDirectories h.left hdirectory hne hmake
    obtain ⟨-, -, hunder'⟩ := underway_of_makeDirectories h.right hdirectory' hne hmake'
    rw [h.target_eq, h.target_eq] at hunder'
    rw [exec_processDirectory_of_makeDirectories h.left hdirectory hne hmake,
      exec_processDirectory_of_makeDirectories h.right hdirectory' hne hmake', h.target_eq,
      h.target_eq, resolvable_congr hstep.current]
    -- the depths of the two trees may differ, but both are enough
    have hdepth : s.walkFrom ⟨output, t.target output⟩ (t₁.depth + 1) source (t.target source) []
          (.empty, t₁') =
        s.walkFrom ⟨output, t.target output⟩ (t₁'.depth + 1) source (t.target source) []
          (.empty, t₁') := by
      have hbounded : Bounded (t.target source) ⟨output, t.target output⟩
          (min t₁.depth t₁'.depth) t₁' := by
        intro q hq hnode
        have hsame : t₁'.node? q = t₁.node? q :=
          hstep.eq_of_apart fun w hw => (hsrc w hw).of_isPrefix hq.1
        exact Nat.le_min.mpr ⟨bounded_depth t₁ q hq (hsame ▸ hnode), bounded_depth t₁' q hq hnode⟩
      have hfuel := walkFrom_fuel (s := s) (t₁.depth + 1) (t₁'.depth + 1) [] (.empty, t₁') hunder'
        hbounded (within_nil hunder') (by omega) (by omega)
      rwa [List.append_nil] at hfuel
    have hwalk := walkFrom_alike (s := s) hsrc hend hout (t₁.depth + 1) [] (.empty, t₁) (.empty, t₁')
      rfl ⟨hstep, hunder, hunder'⟩ (within_nil hunder)
    rw [List.append_nil, List.foldl_nil, hdepth] at hwalk
    split
    · exact hwalk
    · exact ⟨rfl, hstep⟩
  · rw [exec_processDirectory, exec_processDirectory, if_neg hdirectory, hisDirectory,
      if_neg hdirectory]
    exact ⟨rfl, h⟩

end Setup

end ConditionalText.Files
