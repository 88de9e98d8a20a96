import ConditionalText.Proofs.Files.Path
import ConditionalText.Proofs.Table
import ConditionalText.Proofs.Text.Bytes

/-!
# Well-formed trees, and what paths lead to in them

`FileTree.WellFormed` is what every tree of files is: whatever stands somewhere stands in a
directory, under a name that it can have. Operations keep it, so that everything above a place that
holds something is a directory.

* `WellFormed.directory_of_append`: above something there are directories only.
* `names_congr`: the names in a directory are told by what stands below it.
* `descend_append`: components are followed one part after another.
* `Leads`: a path that leads to a directory, and goes on to do so while directories stay
  (`Leads.mono`). What a name below it leads to is what stands there (`Leads.read_join`,
  `Leads.isDirectory_join`).
* `resolve_eq_ok_iff`: a path is resolved if it leads somewhere and no absolute path on the way is
  too long.
-/

namespace ConditionalText

namespace Files

open ConditionalText.Text

namespace FileTree

variable {t : FileTree} {place : Place} {name : Text} {node : Node}

/-! ## Nodes -/

@[simp] theorem node?_nil (t : FileTree) : t.node? [] = some .directory := rfl

theorem node?_of_ne_nil (h : place ≠ []) : t.node? place = t.nodes.get? place := by
  have hempty : place.isEmpty = false := by simpa using h
  rw [node?, hempty]
  rfl

theorem mem_keys_iff (h : place ≠ []) : place ∈ t.nodes.keys ↔ (t.node? place).isSome := by
  rw [Table.mem_keys_iff, node?_of_ne_nil h]

/-- Setting a node changes that one only. -/
theorem node?_setNode (hplace : place ≠ []) (q : Place) :
    (t.setNode place node).node? q = if q = place then some node else t.node? q := by
  by_cases hq : q = []
  · subst hq
    rw [if_neg (Ne.symm hplace), node?_nil, node?_nil]
  · rw [node?_of_ne_nil hq, node?_of_ne_nil hq, setNode, Table.get?_insert]
    simp only [eq_comm]

theorem node?_setNode_concat (place : Place) (name : Text) (node : Node) (q : Place) :
    (t.setNode (place ++ [name]) node).node? q =
      if q = place ++ [name] then some node else t.node? q :=
  node?_setNode (List.append_ne_nil_of_right_ne_nil _ (List.cons_ne_nil _ _)) q

/-! ## Well-formed trees -/

/-- Everything stands in a directory, under a name that it can have, and relative paths start in a
directory. -/
structure WellFormed (t : FileTree) : Prop where
  root : t.nodes.get? [] = none
  parent : ∀ place name, (t.node? (place ++ [name])).isSome → t.node? place = some .directory
  isName : ∀ place name, (t.node? (place ++ [name])).isSome → IsName name
  current : t.node? t.current = some .directory

theorem wellFormed_iff :
    t.WellFormed ↔ t.nodes.get? [] = none ∧
      (∀ key ∈ t.nodes.keys, t.node? key.dropLast = some .directory ∧
        ∀ name ∈ key.getLast?, IsName name) ∧ t.node? t.current = some .directory := by
  have hkey {place : Place} {name : Text} (hsome : (t.node? (place ++ [name])).isSome) :
      place ++ [name] ∈ t.nodes.keys :=
    (mem_keys_iff (by simp)).mpr hsome
  constructor
  · intro h
    refine ⟨h.root, fun key hmem => ?_, h.current⟩
    have hsome := (Table.mem_keys_iff _ _).mp hmem
    have hne : key ≠ [] := by
      rintro rfl
      rw [h.root] at hsome
      cases hsome
    rw [← node?_of_ne_nil hne, ← List.dropLast_concat_getLast hne] at hsome
    refine ⟨h.parent _ _ hsome, fun name hname => ?_⟩
    rw [List.getLast?_eq_some_getLast hne] at hname
    cases hname
    exact h.isName _ _ hsome
  · rintro ⟨hroot, hkeys, hcurrent⟩
    refine ⟨hroot, fun place name hsome => ?_, fun place name hsome => ?_, hcurrent⟩
    · have := (hkeys _ (hkey hsome)).1
      rwa [List.dropLast_concat] at this
    · exact (hkeys _ (hkey hsome)).2 name (by simp)

instance (t : FileTree) : Decidable t.WellFormed :=
  decidable_of_iff _ wellFormed_iff.symm

/-- **Above something there are directories only.** -/
theorem WellFormed.directory_of_append (h : t.WellFormed) {below : Place} (hbelow : below ≠ [])
    (hsome : (t.node? (place ++ below)).isSome) : t.node? place = some .directory := by
  induction below generalizing place with
  | nil => exact absurd rfl hbelow
  | cons name below ih =>
    by_cases hnil : below = []
    · subst hnil
      exact h.parent place name hsome
    · rw [List.append_cons] at hsome
      exact h.parent place name (by rw [ih hnil hsome]; rfl)

theorem WellFormed.directory_of_prefix (h : t.WellFormed) {above : Place} (hstarts : above <+: place)
    (hdirectory : t.node? place = some .directory) : t.node? above = some .directory := by
  obtain ⟨below, rfl⟩ := hstarts
  by_cases hbelow : below = []
  · rwa [hbelow, List.append_nil] at hdirectory
  · exact h.directory_of_append hbelow (by rw [hdirectory]; rfl)

/-- Below something that is no directory there is nothing. -/
theorem WellFormed.eq_none_of_append (h : t.WellFormed) (hplace : t.node? place ≠ some .directory)
    {below : Place} (hbelow : below ≠ []) : t.node? (place ++ below) = none := by
  cases hnode : t.node? (place ++ below) with
  | none => rfl
  | some node => exact absurd (h.directory_of_append hbelow (by rw [hnode]; rfl)) hplace

theorem WellFormed.isName_of_mem (h : t.WellFormed) {below : Place}
    (hsome : below ≠ [] → (t.node? (place ++ below)).isSome) : ∀ c ∈ below, IsName c := by
  intro c hc
  obtain ⟨before, behind, rfl⟩ := List.append_of_mem hc
  have hsome' := hsome (by simp)
  refine h.isName (place ++ before) c ?_
  by_cases hbehind : behind = []
  · subst hbehind
    rwa [List.append_assoc]
  · have hdirectory : t.node? (place ++ (before ++ [c])) = some .directory :=
      h.directory_of_append hbehind (by simpa using hsome')
    rw [List.append_assoc, hdirectory]
    rfl

/-- A node set in a directory under a name keeps a tree well formed, unless it hides what stands
below it. -/
theorem WellFormed.setNode (h : t.WellFormed) (hplace : t.node? place = some .directory)
    (hname : IsName name)
    (hnode : t.node? (place ++ [name]) = some .directory → node = .directory) :
    (t.setNode (place ++ [name]) node).WellFormed := by
  have hkeep {q : Place} (hq : t.node? q = some .directory) :
      (t.setNode (place ++ [name]) node).node? q = some .directory := by
    rw [node?_setNode_concat]
    split
    · next heq => rw [hnode (heq ▸ hq)]
    · exact hq
  have hold {q : Place} {n : Text} (hsome : ((t.setNode (place ++ [name]) node).node?
      (q ++ [n])).isSome) : q ++ [n] = place ++ [name] ∨ (t.node? (q ++ [n])).isSome := by
    rw [node?_setNode_concat] at hsome
    split at hsome
    · exact .inl ‹_›
    · exact .inr hsome
  refine ⟨?_, fun q n hsome => hkeep ?_, fun q n hsome => ?_, hkeep h.current⟩
  · rw [FileTree.setNode, Table.get?_insert, if_neg (by simp)]
    exact h.root
  · rcases hold hsome with heq | hsome
    · rw [(List.append_inj' heq rfl).1]
      exact hplace
    · exact h.parent q n hsome
  · rcases hold hsome with heq | hsome
    · rw [List.singleton_inj.mp (List.append_inj' heq rfl).2]
      exact hname
    · exact h.isName q n hsome

/-- A well-formed tree is told by its nodes. -/
theorem WellFormed.ext {t' : FileTree} (h : t.WellFormed) (h' : t'.WellFormed)
    (hcurrent : t.current = t'.current) (hnode : ∀ place, t.node? place = t'.node? place) :
    t = t' := by
  have hnodes : t.nodes = t'.nodes := by
    refine Table.ext fun place => ?_
    by_cases hplace : place = []
    · rw [hplace, h.root, h'.root]
    · rw [← node?_of_ne_nil hplace, ← node?_of_ne_nil hplace, hnode]
  cases t
  cases t'
  simp_all

/-! ## Names in a directory -/

theorem mem_names_iff : name ∈ t.names place ↔ (t.node? (place ++ [name])).isSome := by
  rw [node?_of_ne_nil (by simp), ← Table.mem_keys_iff, names, List.mem_filterMap]
  constructor
  · rintro ⟨key, hkey, hname⟩
    split at hname
    · next hplace =>
      obtain ⟨init, rfl⟩ := List.getLast?_eq_some_iff.mp hname
      rw [List.dropLast_concat] at hplace
      rwa [← hplace]
    · cases hname
  · intro hkey
    exact ⟨place ++ [name], hkey, by simp⟩

theorem lt_of_append_lt {a b : Text} (place : Place) (h : place ++ [a] < place ++ [b]) : a < b := by
  induction place with
  | nil =>
    rcases List.cons_lt_cons_iff.mp h with h | ⟨-, h⟩
    · exact h
    · exact absurd h (List.lt_irrefl [])
  | cons c place ih =>
    rcases List.cons_lt_cons_iff.mp h with h | ⟨-, h⟩
    · exact absurd h (KeyOrder.irrefl c)
    · exact ih h

theorem pairwise_names (t : FileTree) (place : Place) : (t.names place).Pairwise (· < ·) := by
  refine List.Pairwise.filterMap _ (fun key key' hlt name hname name' hname' => ?_)
    t.nodes.pairwise_keys
  split at hname
  · next hplace =>
    split at hname'
    · next hplace' =>
      obtain ⟨init, rfl⟩ := List.getLast?_eq_some_iff.mp hname
      obtain ⟨init', rfl⟩ := List.getLast?_eq_some_iff.mp hname'
      rw [List.dropLast_concat] at hplace hplace'
      rw [hplace, hplace'] at hlt
      exact lt_of_append_lt place hlt
    · cases hname'
  · cases hname

theorem nodup_names (t : FileTree) (place : Place) : (t.names place).Nodup := by
  refine (pairwise_names t place).imp ?_
  rintro a b hlt rfl
  exact KeyOrder.irrefl a hlt

/-- **The names in a directory are told by what stands below it.** -/
theorem names_congr {t t' : FileTree}
    (h : ∀ name, (t.node? (place ++ [name])).isSome = (t'.node? (place ++ [name])).isSome) :
    t.names place = t'.names place := by
  refine List.Perm.eq_of_pairwise (fun a b _ _ hab hba => ?_) (pairwise_names t place)
    (pairwise_names t' place) ?_
  · exact absurd (KeyOrder.trans hab hba) (KeyOrder.irrefl a)
  · refine (List.perm_ext_iff_of_nodup (nodup_names t place) (nodup_names t' place)).mpr fun a => ?_
    rw [mem_names_iff, mem_names_iff, h]

theorem WellFormed.isName_of_mem_names (h : t.WellFormed) (hname : name ∈ t.names place) :
    IsName name :=
  h.isName place name (mem_names_iff.mp hname)

/-- No place lies deeper than the tree. -/
theorem length_le_depth (hsome : (t.node? place).isSome) : place.length ≤ t.depth := by
  have hfold : ∀ (ls : List Nat) (start : Nat),
      start ≤ ls.foldl max start ∧ ∀ n ∈ ls, n ≤ ls.foldl max start := by
    intro ls
    induction ls with
    | nil => exact fun start => ⟨Nat.le_refl _, fun n hn => by cases hn⟩
    | cons l ls ih =>
      intro start
      obtain ⟨hstart, hmem⟩ := ih (max start l)
      rw [List.foldl_cons]
      refine ⟨by omega, fun n hn => ?_⟩
      rcases List.mem_cons.mp hn with rfl | hn
      · omega
      · exact hmem n hn
  by_cases hplace : place = []
  · rw [hplace]
    exact Nat.zero_le _
  · rw [node?_of_ne_nil hplace, ← Table.mem_keys_iff] at hsome
    exact (hfold _ 0).2 _ (List.mem_map_of_mem hsome)

/-! ## Following components -/

theorem follow_of_isName (place : Place) (h : IsName name) :
    follow place name = place ++ [name] := by
  rw [follow, if_neg h.notDot, if_neg h.notDotDot]

theorem foldl_follow_of_isName (place : Place) {below : List Text} (h : ∀ c ∈ below, IsName c) :
    below.foldl follow place = place ++ below := by
  induction below generalizing place with
  | nil => exact (List.append_nil place).symm
  | cons c below ih =>
    rw [List.foldl_cons, follow_of_isName place (h c List.mem_cons_self),
      ih _ fun c hc => h c (List.mem_cons_of_mem _ hc), List.append_assoc]
    rfl

variable {cs ds : List Text} {q : Place}

theorem descend_nil_eq_ok (h : (t.node? place).isSome) : t.descend place [] = .ok place := by
  rw [descend]
  split
  · next hnone =>
    rw [hnone] at h
    cases h
  · rfl

theorem descend_cons (hplace : t.node? place = some .directory) {c : Text}
    (hshort : byteLength c ≤ maxNameBytes) :
    t.descend place (c :: cs) = t.descend (follow place c) cs := by
  rw [descend, hplace]
  exact if_neg (Nat.not_lt.mpr hshort)

theorem descend_cons_of_long (hplace : t.node? place = some .directory) {c : Text}
    (hlong : maxNameBytes < byteLength c) : t.descend place (c :: cs) = .error .nameTooLong := by
  rw [descend, hplace]
  exact if_pos hlong

theorem descend_of_none (hplace : t.node? place = none) (cs : List Text) :
    t.descend place cs = .error .notFound := by
  cases cs with
  | nil => rw [descend, hplace]
  | cons c cs => rw [descend, hplace]

theorem descend_of_file {content : Content} (hplace : t.node? place = some (.file content))
    (hcs : cs ≠ []) : t.descend place cs = .error .notADirectory := by
  cases cs with
  | nil => exact absurd rfl hcs
  | cons c cs => rw [descend, hplace]

/-- **Components are followed one part after another.** -/
theorem descend_append (t : FileTree) (place : Place) (cs ds : List Text) :
    t.descend place (cs ++ ds) = (t.descend place cs).bind fun q => t.descend q ds := by
  induction cs generalizing place with
  | nil =>
    rw [List.nil_append, descend]
    split
    · next h =>
      cases ds with
      | nil =>
        rw [descend, h]
        rfl
      | cons d ds =>
        rw [descend, h]
        rfl
    · rfl
  | cons c cs ih =>
    rw [List.cons_append, descend, descend]
    split
    · rfl
    · rfl
    · split
      · rfl
      · exact ih (follow place c)

theorem eq_of_descend (h : t.descend place cs = .ok q) :
    q = cs.foldl follow place ∧ (t.node? q).isSome := by
  induction cs generalizing place with
  | nil =>
    rw [descend] at h
    split at h
    · cases h
    · next hnode =>
      cases h
      exact ⟨rfl, by rw [hnode]; rfl⟩
  | cons c cs ih => exact ih (descend_cons_eq_ok_iff.mp h).2.2

theorem directory_of_descend (h : t.descend place cs = .ok q) (hq : t.node? q = some .directory) :
    t.node? place = some .directory := by
  cases cs with
  | nil =>
    obtain ⟨rfl, -⟩ := eq_of_descend h
    exact hq
  | cons c cs => exact (descend_cons_eq_ok_iff.mp h).1

/-- A way over directories stays as long as they do. -/
theorem descend_mono {t t' : FileTree}
    (hkeep : ∀ q, t.node? q = some .directory → t'.node? q = some .directory)
    (h : t.descend place cs = .ok q) (hq : t.node? q = some .directory) :
    t'.descend place cs = .ok q := by
  induction cs generalizing place with
  | nil =>
    obtain ⟨rfl, -⟩ := eq_of_descend h
    exact descend_nil_eq_ok (by rw [hkeep _ hq]; rfl)
  | cons c cs ih =>
    obtain ⟨hplace, hshort, hmore⟩ := descend_cons_eq_ok_iff.mp h
    exact descend_cons_eq_ok_iff.mpr ⟨hkeep _ hplace, hshort, ih hmore⟩

/-! ## Paths -/

theorem checkPath_eq_ok_iff {p : Path} :
    checkPath p = .ok () ↔ '\x00' ∉ p ∧ byteLength p ≤ maxPathBytes ∧ p ≠ [] := by
  unfold checkPath
  by_cases hzero : '\x00' ∈ p
  · simp [hzero]
  · by_cases hlong : maxPathBytes < byteLength p
    · simp [hzero, hlong, Nat.not_le.mpr hlong]
    · rw [if_neg hzero, if_neg hlong]
      cases p with
      | nil => simp
      | cons c p => exact iff_of_true rfl ⟨hzero, Nat.not_lt.mp hlong, List.cons_ne_nil c p⟩

theorem byteLength_le_of_isPrefix {a b : Text} (h : a <+: b) : byteLength a ≤ byteLength b := by
  obtain ⟨rest, rfl⟩ := h
  rw [byteLength_append]
  exact Nat.le_add_right _ _

theorem checkPath_of_isPrefix {a p : Path} (h : checkPath p = .ok ()) (ha : a <+: p) (hne : a ≠ []) :
    checkPath a = .ok () := by
  obtain ⟨hzero, hlong, -⟩ := checkPath_eq_ok_iff.mp h
  exact checkPath_eq_ok_iff.mpr
    ⟨fun hmem => hzero (ha.subset hmem), Nat.le_trans (byteLength_le_of_isPrefix ha) hlong, hne⟩

theorem locate_eq_ok_iff {p : Path} :
    t.locate p = .ok q ↔
      checkPath p = .ok () ∧ t.descend (t.origin p) p.components = .ok q ∧
        ¬(p.endsInSlash = true ∧ ∃ content, t.node? q = some (.file content)) := by
  unfold locate
  cases hcheck : checkPath p with
  | error e => simp [Except.bind]
  | ok u =>
    cases hdescend : t.descend (t.origin p) p.components with
    | error e => simp [Except.bind]
    | ok q' =>
      simp only [Except.bind]
      split
      · next hslash hfile =>
        constructor
        · intro h
          cases h
        · rintro ⟨-, heq, hnot⟩
          cases heq
          exact absurd ⟨hslash, _, hfile⟩ hnot
      · next hnot =>
        constructor
        · intro h
          cases h
          refine ⟨trivial, rfl, ?_⟩
          rintro ⟨hslash, content, hfile⟩
          exact hnot content hslash hfile
        · rintro ⟨-, heq, -⟩
          exact heq

theorem isDirectory_iff {p : Path} :
    t.isDirectory p = true ↔
      ∃ q, checkPath p = .ok () ∧ t.descend (t.origin p) p.components = .ok q ∧
        t.node? q = some .directory := by
  unfold isDirectory
  cases hlocate : t.locate p with
  | error e =>
    constructor
    · intro h
      cases h
    · rintro ⟨q, hcheck, hdescend, hq⟩
      have := locate_eq_ok_iff.mpr ⟨hcheck, hdescend, fun ⟨_, content, hfile⟩ => by
        rw [hq] at hfile
        cases hfile⟩
      rw [hlocate] at this
      cases this
  | ok q =>
    obtain ⟨hcheck, hdescend, -⟩ := locate_eq_ok_iff.mp hlocate
    rw [beq_iff_eq]
    constructor
    · exact fun hq => ⟨q, hcheck, hdescend, hq⟩
    · rintro ⟨q', -, hdescend', hq⟩
      rw [hdescend] at hdescend'
      cases hdescend'
      exact hq

/-- A path that leads to a directory. -/
structure Leads (t : FileTree) (p : Path) (place : Place) : Prop where
  noZero : '\x00' ∉ p
  nonempty : p ≠ []
  descend : t.descend (t.origin p) p.components = .ok place
  directory : t.node? place = some .directory

theorem leads_of_isDirectory {p : Path} (h : t.isDirectory p = true) : ∃ place, t.Leads p place := by
  obtain ⟨q, hcheck, hdescend, hq⟩ := isDirectory_iff.mp h
  obtain ⟨hzero, -, hne⟩ := checkPath_eq_ok_iff.mp hcheck
  exact ⟨q, hzero, hne, hdescend, hq⟩

theorem Leads.mono {t t' : FileTree} {p : Path} (h : t.Leads p place)
    (hkeep : ∀ q, t.node? q = some .directory → t'.node? q = some .directory)
    (hcurrent : t'.current = t.current) : t'.Leads p place where
  noZero := h.noZero
  nonempty := h.nonempty
  descend := by
    have horigin : t'.origin p = t.origin p := by rw [origin, origin, hcurrent]
    rw [horigin]
    exact descend_mono hkeep h.descend h.directory
  directory := hkeep place h.directory

variable {p : Path}

theorem Leads.locate (h : t.Leads p place) (hcheck : checkPath p = .ok ()) :
    t.locate p = .ok place := by
  refine locate_eq_ok_iff.mpr ⟨hcheck, h.descend, ?_⟩
  rintro ⟨-, content, hfile⟩
  rw [h.directory] at hfile
  cases hfile

/-- A path that leads somewhere is resolved unless an absolute path on its way is too long. -/
theorem resolve_of_locate (h : t.locate p = .ok place) :
    t.resolve p = if t.resolvable p then .ok place else .error .nameTooLong := by
  rw [resolve, h]
  rfl

theorem resolve_eq_ok_iff :
    t.resolve p = .ok place ↔ t.locate p = .ok place ∧ t.resolvable p = true := by
  cases hlocate : t.locate p with
  | error e => simp [resolve, hlocate, Except.bind]
  | ok q =>
    rw [resolve_of_locate hlocate]
    by_cases hresolvable : t.resolvable p = true
    · simp [hresolvable]
    · simp [hresolvable]

theorem origin_join (hp : p ≠ []) (hname : IsName name) : t.origin (p.join name) = t.origin p := by
  rw [origin, origin, Path.isAbsolute_join hp (Path.isAbsolute_of_isName hname)]

/-- A name below a path is followed from the place of the path. -/
theorem Leads.descend_join (h : t.Leads p place) (hname : IsName name) :
    t.descend (t.origin (p.join name)) (p.join name).components =
      t.descend (place ++ [name]) [] := by
  rw [origin_join h.nonempty hname, Path.components_join_name p hname, descend_append, h.descend]
  change t.descend place [name] = _
  rw [descend_cons h.directory hname.short, follow_of_isName place hname]

theorem Leads.checkPath_join (h : t.Leads p place) (hname : IsName name)
    (hshort : byteLength (p.join name) ≤ maxPathBytes) : checkPath (p.join name) = .ok () :=
  checkPath_eq_ok_iff.mpr ⟨Path.not_mem_join (by decide) h.noZero hname.noZero, hshort,
    Path.join_ne_nil p hname.nonempty⟩

/-- **What a name below a path leads to is what stands there**, unless the path gets too long. -/
theorem Leads.isDirectory_join (h : t.Leads p place) (hname : IsName name) :
    t.isDirectory (p.join name) = true ↔
      byteLength (p.join name) ≤ maxPathBytes ∧ t.node? (place ++ [name]) = some .directory := by
  rw [isDirectory_iff, h.descend_join hname]
  constructor
  · rintro ⟨q, hcheck, hdescend, hq⟩
    obtain ⟨rfl, -⟩ := eq_of_descend hdescend
    exact ⟨(checkPath_eq_ok_iff.mp hcheck).2.1, hq⟩
  · rintro ⟨hshort, hnode⟩
    exact ⟨_, h.checkPath_join hname hshort, descend_nil_eq_ok (by rw [hnode]; rfl), hnode⟩

theorem Leads.join (h : t.Leads p place) (hname : IsName name)
    (hnode : t.node? (place ++ [name]) = some .directory) :
    t.Leads (p.join name) (place ++ [name]) where
  noZero := Path.not_mem_join (by decide) h.noZero hname.noZero
  nonempty := Path.join_ne_nil p hname.nonempty
  descend := by
    rw [h.descend_join hname]
    exact descend_nil_eq_ok (by rw [hnode]; rfl)
  directory := hnode

theorem Leads.locate_join (h : t.Leads p place) (hname : IsName name)
    (hdirectory : t.isDirectory (p.join name) = true) :
    t.locate (p.join name) = .ok (place ++ [name]) := by
  obtain ⟨hshort, hnode⟩ := (h.isDirectory_join hname).mp hdirectory
  exact (h.join hname hnode).locate (h.checkPath_join hname hshort)

/-- What stands below the place of a path is led to by the names joined to it. -/
theorem Leads.foldl_join (h : t.Leads p place) (hwf : t.WellFormed) {below : List Text}
    (hnode : t.node? (place ++ below) = some .directory) :
    t.Leads (below.foldl Path.join p) (place ++ below) := by
  induction below generalizing p place with
  | nil => rwa [List.append_nil]
  | cons c below ih =>
    rw [List.append_cons] at hnode ⊢
    have hc : t.node? (place ++ [c]) = some .directory :=
      hwf.directory_of_prefix (List.prefix_append _ below) hnode
    exact ih (h.join (hwf.isName place c (by rw [hc]; rfl)) hc) hnode

theorem Leads.read_join (h : t.Leads p place) (hname : IsName name)
    (hshort : byteLength (p.join name) ≤ maxPathBytes) {content : Content}
    (hnode : t.node? (place ++ [name]) = some (.file content)) :
    t.read (p.join name) = .ok content := by
  have hlocate : t.locate (p.join name) = .ok (place ++ [name]) := by
    refine locate_eq_ok_iff.mpr ⟨h.checkPath_join hname hshort, ?_, ?_⟩
    · rw [h.descend_join hname]
      exact descend_nil_eq_ok (by rw [hnode]; rfl)
    · rintro ⟨hslash, -⟩
      rw [Path.endsInSlash_join_name p hname] at hslash
      cases hslash
  simp only [read, hlocate, Except.bind, hnode]

end FileTree

end Files

end ConditionalText
