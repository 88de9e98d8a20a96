import ConditionalText.Proofs.Files.Walk

/-!
# A walk goes through the files that are there at the start

A walk reads directories while it writes outputs, so what it visits could depend on what it has
written. It does not if the output directory is the source directory itself, where outputs take the
places of their sources, or is not above it, since it is never entered. Then the walk is a plain loop
over the files that are there at the start (`Loops.walkFrom_eq`), and these are listed once each
(`mem_listing_iff`, `pairwise_listing`).
-/

namespace ConditionalText.Files

open ConditionalText.Text

namespace Setup

variable {s : Setup} {w : Walk} {t u u' : FileTree} {source : Path} {src q : Place}
  {below : List Text} {name : Text} {content : Content}

/-- The files of one name in a directory, given those below a directory. -/
def listedAt (s : Setup) (w : Walk) (t : FileTree)
    (inner : Place → List Text → List (List Text × Content)) (place : Place) (below : List Text)
    (name : Text) : List (List Text × Content) :=
  match t.node? (place ++ [name]) with
  | none => []
  | some .directory =>
    if place ++ [name] = w.place then [] else inner (place ++ [name]) (below ++ [name])
  | some (.file content) => if s.config.picks name then [(below ++ [name], content)] else []

/-- The files that a walk picks below a place, each by the names that lead to it from the source
directory and with what it holds. -/
def listing (s : Setup) (w : Walk) (t : FileTree) :
    Nat → Place → List Text → List (List Text × Content)
  | 0, _, _ => []
  | fuel + 1, place, below =>
    (t.names place).flatMap (s.listedAt w t (s.listing w t fuel) place below)

/-! ## What is listed -/

/-- A file that a walk picks: it stands below the source directory, where the walk may go, and its
extension is wanted. -/
structure Picked (s : Setup) (t : FileTree) (src : Place) (w : Walk) (below : List Text)
    (content : Content) : Prop where
  file : t.node? (src ++ below) = some (.file content)
  wanted : ∃ name ∈ below.getLast?, s.config.picks name = true
  walkable : Walkable src w (src ++ below)

section Inner

variable {inner : Place → List Text → List (List Text × Content)} {place : Place}
  {f : List Text × Content}

/-- What is listed at a name is a file or listed below a directory. -/
theorem mem_listedAt_iff :
    f ∈ s.listedAt w t inner place below name ↔
      (t.node? (place ++ [name]) = some .directory ∧ place ++ [name] ≠ w.place ∧
        f ∈ inner (place ++ [name]) (below ++ [name])) ∨
      (t.node? (place ++ [name]) = some (.file f.2) ∧ s.config.picks name = true ∧
        f.1 = below ++ [name]) := by
  unfold listedAt
  split
  · next hnode => simp [hnode]
  · next hnode =>
    split
    · next heq => simp [← heq, hnode]
    · next hne => simp [hnode, hne]
  · next content hnode =>
    obtain ⟨names, content'⟩ := f
    split
    · next hpicks => simp [hnode, hpicks, and_comm, eq_comm]
    · next hpicks => simp [hnode, hpicks]

end Inner

theorem exists_of_mem_listing {fuel : Nat} {place : Place} {f : List Text × Content}
    (h : f ∈ s.listing w t fuel place below) : ∃ rest, f.1 = below ++ rest := by
  induction fuel generalizing place below with
  | zero => cases h
  | succ fuel ih =>
    obtain ⟨name, -, hf⟩ := List.mem_flatMap.mp h
    rcases mem_listedAt_iff.mp hf with ⟨-, -, hf⟩ | ⟨-, -, hf⟩
    · obtain ⟨rest, hrest⟩ := ih hf
      exact ⟨[name] ++ rest, by rw [hrest, List.append_assoc]⟩
    · exact ⟨[name], hf⟩

/-- What is listed is there. -/
theorem picked_of_mem_listing (below : List Text) {fuel : Nat} {f : List Text × Content}
    (hwalkable : Walkable src w (src ++ below)) (hplace : t.node? w.place = some .directory)
    (h : f ∈ s.listing w t fuel (src ++ below) below) : Picked s t src w f.1 f.2 := by
  induction fuel generalizing below with
  | zero => cases h
  | succ fuel ih =>
    obtain ⟨name, -, hf⟩ := List.mem_flatMap.mp h
    rcases mem_listedAt_iff.mp hf with ⟨-, hne, hf⟩ | ⟨hfile, hpicks, hnames⟩
    · have hnext := hwalkable.concat hne
      rw [List.append_assoc] at hf hnext
      exact ih _ hnext hf
    · have hne : src ++ below ++ [name] ≠ w.place := by
        intro heq
        rw [heq, hplace] at hfile
        cases hfile
      rw [hnames]
      refine ⟨by rwa [← List.append_assoc], ⟨name, by simp, hpicks⟩, ?_⟩
      rw [← List.append_assoc]
      exact hwalkable.concat hne

/-- What is there is listed, if the depth is enough. -/
theorem mem_listing_of_picked (h : t.WellFormed) (fuel : Nat) (below : List Text) {rest : List Text}
    (hrest : rest ≠ []) (hpicked : Picked s t src w (below ++ rest) content)
    (hfuel : t.depth < fuel + (src ++ below).length) :
    (below ++ rest, content) ∈ s.listing w t fuel (src ++ below) below := by
  have hlength : (src ++ (below ++ rest)).length ≤ t.depth :=
    FileTree.length_le_depth (by rw [hpicked.file]; rfl)
  induction rest generalizing fuel below with
  | nil => exact absurd rfl hrest
  | cons name rest ih =>
    cases fuel with
    | zero =>
      simp only [List.length_append] at hlength hfuel
      omega
    | succ fuel =>
      have hsome : (t.node? (src ++ below ++ [name])).isSome := by
        have hfile := hpicked.file
        rw [← List.append_assoc, List.append_cons] at hfile
        cases rest with
        | nil =>
          rw [List.append_nil] at hfile
          rw [hfile]
          rfl
        | cons next rest =>
          rw [h.directory_of_append (List.cons_ne_nil next rest) (by rw [hfile]; rfl)]
          rfl
      refine List.mem_flatMap.mpr ⟨name, FileTree.mem_names_iff.mpr hsome, ?_⟩
      have hfile := hpicked.file
      rw [← List.append_assoc, List.append_cons] at hfile
      cases rest with
      | nil =>
        rw [List.append_nil] at hfile
        obtain ⟨last, hlast, hpicks⟩ := hpicked.wanted
        rw [List.getLast?_concat, Option.mem_some_iff] at hlast
        subst hlast
        exact mem_listedAt_iff.mpr (.inr ⟨hfile, hpicks, rfl⟩)
      | cons next rest =>
        have hdirectory : t.node? (src ++ below ++ [name]) = some .directory :=
          h.directory_of_append (List.cons_ne_nil next rest) (by rw [hfile]; rfl)
        have hne : src ++ below ++ [name] ≠ w.place := by
          intro heq
          have hstarts : w.place <+: src ++ (below ++ name :: next :: rest) := by
            rw [← heq]
            exact ⟨next :: rest, by simp⟩
          have := (hpicked.walkable.2 hstarts).length_le
          rw [← heq] at this
          simp only [List.length_append, List.length_cons, List.length_nil] at this
          omega
        refine mem_listedAt_iff.mpr (.inl ⟨hdirectory, hne, ?_⟩)
        have hsplit : below ++ name :: next :: rest = below ++ [name] ++ next :: rest :=
          List.append_cons below name (next :: rest)
        rw [hsplit] at hpicked hlength ⊢
        rw [List.append_assoc src]
        refine ih _ _ (List.cons_ne_nil next rest) hpicked ?_ hlength
        simp only [List.length_append, List.length_cons, List.length_nil] at hfuel ⊢
        omega

/-- **The files that a walk picks are listed.** -/
theorem mem_listing_iff (h : t.WellFormed) (hsrc : t.node? src = some .directory)
    (hplace : t.node? w.place = some .directory) :
    (below, content) ∈ s.listing w t (t.depth + 1) src [] ↔ Picked s t src w below content := by
  constructor
  · intro hmem
    refine picked_of_mem_listing [] ?_ hplace (by rwa [List.append_nil])
    rw [List.append_nil]
    exact ⟨List.prefix_refl src, id⟩
  · intro hpicked
    have hne : below ≠ [] := by
      rintro rfl
      have hfile := hpicked.file
      rw [List.append_nil, hsrc] at hfile
      cases hfile
    have hmem := mem_listing_of_picked h (t.depth + 1) [] hne (by rwa [List.nil_append])
      (by omega)
    rwa [List.append_nil, List.nil_append] at hmem

/-- **No file is listed twice.** -/
theorem pairwise_listing (s : Setup) (w : Walk) (t : FileTree) (fuel : Nat) (place : Place)
    (below : List Text) : (s.listing w t fuel place below).Pairwise fun f g => f.1 ≠ g.1 := by
  induction fuel generalizing place below with
  | zero => exact .nil
  | succ fuel ih =>
    have hstart {name : Text} {f : List Text × Content}
        (hf : f ∈ s.listedAt w t (s.listing w t fuel) place below name) :
        ∃ rest, f.1 = below ++ name :: rest := by
      rcases mem_listedAt_iff.mp hf with ⟨-, -, hf⟩ | ⟨-, -, hf⟩
      · obtain ⟨rest, hrest⟩ := exists_of_mem_listing hf
        exact ⟨rest, by rw [hrest, List.append_assoc]; rfl⟩
      · exact ⟨[], hf⟩
    rw [listing, List.pairwise_flatMap]
    refine ⟨fun name _ => ?_, (FileTree.nodup_names t place).imp fun hne f hf g hg heq => ?_⟩
    · unfold listedAt
      split
      · exact .nil
      · split
        · exact .nil
        · exact ih _ _
      · split
        · exact List.pairwise_singleton _ _
        · exact .nil
    · obtain ⟨rest, hrest⟩ := hstart hf
      obtain ⟨rest', hrest'⟩ := hstart hg
      rw [hrest, hrest'] at heq
      exact hne (List.cons.inj (List.append_cancel_left heq)).1

/-! ## The walk as a loop -/

/-- Preprocesses one listed file and notes what came of it. -/
def stepFile (s : Setup) (source : Path) (w : Walk) (st : Summary × FileTree)
    (f : List Text × Content) : Summary × FileTree :=
  note (s.processFile (f.1.foldl Path.join source) (f.1.foldl Path.join w.output)) st

/-- A tree in which a walk finds the same directories and files as in another one, although the
files may hold something else. -/
structure Mirrors (source : Path) (src : Place) (w : Walk) (t u : FileTree) : Prop where
  underway : Underway u source src w
  current : u.current = t.current
  directory : ∀ q, Walkable src w q → (u.node? q = some .directory ↔ t.node? q = some .directory)
  isSome : ∀ q, Walkable src w q → (u.node? q).isSome = (t.node? q).isSome

theorem Mirrors.within (h : Mirrors source src w t u) (hwithin : Within src w below t) :
    Within src w below u :=
  ⟨hwithin.names, hwithin.walkable, (h.directory _ hwithin.walkable).mpr hwithin.directory⟩

/-- What a walk comes upon: what stands where it may go, and the output directory. -/
def Met (t : FileTree) (src : Place) (w : Walk) (below : List Text) : Prop :=
  (t.node? (src ++ below)).isSome ∧ (Walkable src w (src ++ below) ∨ src ++ below = w.place)

theorem Within.met (h : Within src w below t) (hname : name ∈ t.names (src ++ below)) :
    Met t src w (below ++ [name]) := by
  have hsome := FileTree.mem_names_iff.mp hname
  rw [Met, ← List.append_assoc, or_iff_not_imp_right]
  exact ⟨hsome, h.walkable.concat⟩

/-- What a walk needs to be a loop over the files that are there at the start: outputs in the places
that the sources have, paths that are not too long where the extension is wanted, directories that
can be resolved, and files that leave the directories alone. -/
structure Loops (s : Setup) (source : Path) (src : Place) (w : Walk) (t : FileTree) : Prop where
  keepStructure : s.config.keepStructure = true
  short : ∀ below, Met t src w below → (∃ name ∈ below.getLast?, s.config.picks name = true) →
    byteLength (below.foldl Path.join source) ≤ FileTree.maxPathBytes
  resolvable : ∀ below, Met t src w below → below ≠ [] →
    t.isDirectory (below.foldl Path.join source) = true →
    t.resolvable (below.foldl Path.join source) = true
  file : ∀ st f, Mirrors source src w t st.2 → Picked s t src w f.1 f.2 →
    Mirrors source src w t (s.stepFile source w st f).2

theorem Picked.met (h : Picked s t src w below content) : Met t src w below :=
  ⟨by rw [h.file]; rfl, .inl h.walkable⟩

theorem picks_join (hname : IsName name) (p : Path) :
    s.config.picks (p.join name) = s.config.picks name := by
  rw [Config.picks, Config.picks, Path.extension?_join_name p hname]

theorem outputPath_of_keepStructure (hkeep : s.config.keepStructure = true)
    (hbelow : ∀ c ∈ below, IsName c) (hname : IsName name) :
    s.outputPath w below name = (below ++ [name]).foldl Path.join w.output := by
  rw [outputPath_eq hbelow hname, kept, if_pos hkeep, List.foldl_concat]

section Loop

variable (hloops : Loops s source src w t)
include hloops

/-- What is listed keeps the tree a mirror. -/
theorem Loops.foldl {files : List (List Text × Content)} {st : Summary × FileTree}
    (hst : Mirrors source src w t st.2) (hfiles : ∀ f ∈ files, Picked s t src w f.1 f.2) :
    Mirrors source src w t (files.foldl (s.stepFile source w) st).2 := by
  induction files generalizing st with
  | nil => exact hst
  | cons f files ih =>
    exact ih (hloops.file st f hst (hfiles f List.mem_cons_self))
      fun g hg => hfiles g (List.mem_cons_of_mem f hg)

variable (ht : Underway t source src w)
include ht

omit hloops in
/-- A name leads to a directory exactly if it did at the start. -/
theorem Mirrors.isDirectory_iff {st : Summary × FileTree} (hst : Mirrors source src w t st.2)
    (hwithin : Within src w below t) (hname : name ∈ t.names (src ++ below)) :
    st.2.isDirectory ((below.foldl Path.join source).join name) = true ↔
      byteLength ((below.foldl Path.join source).join name) ≤ FileTree.maxPathBytes ∧
        t.node? (src ++ below ++ [name]) = some .directory := by
  have hdir := (hst.directory _ hwithin.walkable).mpr hwithin.directory
  have hleads := hst.underway.source.foldl_join hst.underway.wellFormed hdir
  rw [hleads.isDirectory_join (ht.wellFormed.isName_of_mem_names hname)]
  by_cases heq : src ++ below ++ [name] = w.place
  · rw [heq, hst.underway.output.directory, ht.output.directory]
  · rw [hst.directory _ (hwithin.walkable.concat heq)]

omit hloops in
theorem Mirrors.isDirectory_eq {st : Summary × FileTree} (hst : Mirrors source src w t st.2)
    (hwithin : Within src w below t) (hname : name ∈ t.names (src ++ below)) :
    st.2.isDirectory ((below.foldl Path.join source).join name) =
      t.isDirectory ((below.foldl Path.join source).join name) := by
  have hleads := ht.source.foldl_join ht.wellFormed hwithin.directory
  rw [Bool.eq_iff_iff, hst.isDirectory_iff ht hwithin hname,
    hleads.isDirectory_join (ht.wellFormed.isName_of_mem_names hname)]

/-- No file is picked where the paths are too long. -/
theorem Loops.listing_eq_nil (fuel : Nat) (hwalkable : Walkable src w (src ++ below))
    (hlong : FileTree.maxPathBytes < byteLength (below.foldl Path.join source)) :
    s.listing w t fuel (src ++ below) below = [] := by
  rw [List.eq_nil_iff_forall_not_mem]
  intro f hf
  have hpicked := picked_of_mem_listing below hwalkable ht.output.directory hf
  obtain ⟨rest, hrest⟩ := exists_of_mem_listing hf
  have hnames : ∀ c ∈ f.1, IsName c :=
    ht.wellFormed.isName_of_mem fun _ => by rw [hpicked.file]; rfl
  have hshort := hloops.short f.1 hpicked.met hpicked.wanted
  rw [hrest] at hnames hshort
  rw [List.foldl_append] at hshort
  have hle := FileTree.byteLength_le_of_isPrefix (Path.isPrefix_foldl_join
    (below.foldl Path.join source) fun c hc => hnames c (List.mem_append_right below hc))
  omega

/-- A name is visited as it would have been at the start. -/
theorem Loops.visit_eq {fuel : Nat} {st : Summary × FileTree} (hst : Mirrors source src w t st.2)
    (hwithin : Within src w below t) (hname : name ∈ t.names (src ++ below))
    (hwalk : ∀ below st, Mirrors source src w t st.2 → Within src w below t →
      s.walkFrom w fuel (below.foldl Path.join source) (src ++ below) below st =
        arrived ((s.listing w t fuel (src ++ below) below).foldl (s.stepFile source w) st)) :
    s.visit w fuel (below.foldl Path.join source) below st name =
      arrived ((s.listedAt w t (s.listing w t fuel) (src ++ below) below name).foldl
        (s.stepFile source w) st) := by
  have hisName := ht.wellFormed.isName_of_mem_names hname
  have hmet := hwithin.met hname
  have hdirectory := hst.isDirectory_iff ht hwithin hname
  rw [List.append_assoc] at hdirectory
  rw [listedAt, List.append_assoc]
  cases hnode : t.node? (src ++ (below ++ [name])) with
  | none =>
    obtain ⟨hsome, -⟩ := hmet
    rw [hnode] at hsome
    cases hsome
  | some node =>
    cases node with
    | directory =>
      simp only
      by_cases hshort :
          byteLength ((below.foldl Path.join source).join name) ≤ FileTree.maxPathBytes
      · have hthere := hdirectory.mpr ⟨hshort, hnode⟩
        have hatStart := hst.isDirectory_eq ht hwithin hname
        rw [hthere, ← Path.foldl_join_concat] at hatStart
        have hresolvable := hloops.resolvable _ hmet (by simp) hatStart.symm
        rw [visit_directory hst.underway (hst.within hwithin) hisName hthere,
          FileTree.resolvable_congr hst.current, if_pos hresolvable]
        split
        · rfl
        · next hne =>
          exact hwalk (below ++ [name]) st hst
            ⟨isName_of_mem_concat hwithin.names hisName, hmet.2.resolve_right hne, hnode⟩
      · -- the directory cannot be entered, and nothing below it is picked
        rw [visit, if_neg fun hdir => hshort (hdirectory.mp hdir).1, picks_join hisName]
        rw [← Path.foldl_join_concat] at hshort
        rw [if_neg fun hpicks => hshort (hloops.short _ hmet ⟨name, List.getLast?_concat .., hpicks⟩)]
        split
        · rfl
        · next hne =>
          rw [hloops.listing_eq_nil ht fuel (hmet.2.resolve_right hne) (Nat.lt_of_not_le hshort)]
          rfl
    | file content =>
      have hfile : ¬ st.2.isDirectory ((below.foldl Path.join source).join name) = true := by
        rw [hdirectory, hnode]
        simp
      rw [visit, if_neg hfile, picks_join hisName]
      simp only
      split
      · rw [outputPath_of_keepStructure hloops.keepStructure hwithin.names hisName,
          ← Path.foldl_join_concat]
        rfl
      · rfl

/-- **A walk goes through the files that are there at the start.** -/
theorem Loops.walkFrom_eq (fuel : Nat) (below : List Text) (st : Summary × FileTree)
    (hst : Mirrors source src w t st.2) (hwithin : Within src w below t) :
    s.walkFrom w fuel (below.foldl Path.join source) (src ++ below) below st =
      arrived ((s.listing w t fuel (src ++ below) below).foldl (s.stepFile source w) st) := by
  induction fuel generalizing below st with
  | zero => rfl
  | succ fuel ih =>
    have hnames : st.2.names (src ++ below) = t.names (src ++ below) := by
      refine FileTree.names_congr fun name => ?_
      by_cases heq : src ++ below ++ [name] = w.place
      · rw [heq, hst.underway.output.directory, ht.output.directory]
      · exact hst.isSome _ (hwithin.walkable.concat heq)
    have hpicked {name : Text} (hname : name ∈ t.names (src ++ below)) :
        ∀ f ∈ s.listedAt w t (s.listing w t fuel) (src ++ below) below name,
          Picked s t src w f.1 f.2 := by
      intro f hf
      have hmem : f ∈ s.listing w t (fuel + 1) (src ++ below) below :=
        List.mem_flatMap.mpr ⟨name, hname, hf⟩
      exact picked_of_mem_listing below hwithin.walkable ht.output.directory hmem
    have hloop (names : List Text) (hnames : ∀ name ∈ names, name ∈ t.names (src ++ below))
        (st : Summary × FileTree) (hst : Mirrors source src w t st.2) :
        s.visitAll w fuel (below.foldl Path.join source) below names st =
          arrived (names.foldl (fun st name => (s.listedAt w t (s.listing w t fuel) (src ++ below)
            below name).foldl (s.stepFile source w) st) st) := by
      induction names generalizing st with
      | nil => rfl
      | cons name names ihnames =>
        have hname := hnames name List.mem_cons_self
        rw [visitAll, hloops.visit_eq ht hst hwithin hname ih]
        exact ihnames (fun n hn => hnames n (List.mem_cons_of_mem name hn)) _
          (hloops.foldl hst (hpicked hname))
    rw [walkFrom_succ, listing, hnames, List.foldl_flatMap]
    exact hloop _ (fun _ => id) st hst

end Loop

end Setup

end ConditionalText.Files
