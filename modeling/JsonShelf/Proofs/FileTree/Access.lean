import JsonShelf.FileTree.Access
import JsonShelf.Proofs.Except

/-!
# What file operations find and leave

Names that never turn back are the location that they lead to, if they lead anywhere, and what is
above a file or directory is a directory. So a file that is there can be read by the names of its
location, provided that file systems take these names at all.

Nothing is ever taken away from a tree. Making directories only adds to it, whatever the names are,
and a write changes one file at most: the one it is asked for.

## Main definitions

* `FileTree.Takes` — names that file systems take and that never turn back
* `FileTree.Within` — a tree that holds everything of another one

## Main results

* `FileTree.read_of_node?` — a file can be read by the names of its location
* `FileTree.makeDirectories_induction` — what every single step keeps, making directories keeps
* `FileTree.node?_write_self`, `FileTree.node?_write_of_ne`, `FileTree.within_write_of_fault` — what
  is where after a write
-/

namespace JsonShelf

namespace FileTree

variable {t t' : FileTree} {l m : Location} {names : List Text}

/-- Above everything in a tree are directories. -/
theorem node?_of_append (h : (t.node? (l ++ m)).isSome) (hm : m ≠ []) :
    t.node? l = some .directory := by
  fun_induction node? t l with
  | case1 => rfl
  | case2 name rest => simp at h
  | case3 content others name => simp [node?_file_below _ _ _ hm] at h
  | case4 content others name rest hrest => simp [node?, hrest] at h
  | case5 n content others name rest hne ih =>
    rw [List.cons_append, node?_file_of_ne hne] at h
    exact ih h
  | case6 below others name rest ih =>
    rw [List.cons_append, node?_directory_self] at h
    exact ih h
  | case7 n below others name rest hne ih =>
    rw [List.cons_append, node?_directory_of_ne hne] at h
    exact ih h

/-! ### Following names that never turn back -/

/-- Names that file systems take, one by one and as a path, and none of which is a double dot. -/
structure Takes (names : List Text) : Prop where
  path : checkPath names = .ok ()
  size : ∀ name ∈ names, nameSize name ≤ nameLimit
  down : FilePath.up ∉ names

/-- One step down. -/
theorem enter_eq_ok_iff {name : Text} (hname : name ≠ FilePath.up) :
    t.enter l name = .ok m ↔
      t.node? l = some .directory ∧ nameSize name ≤ nameLimit ∧
        (t.node? (l ++ [name])).isSome ∧ m = l ++ [name] := by
  rw [enter]
  by_cases hdirectory : t.node? l = some .directory
  · by_cases hsize : nameLimit < nameSize name
    · simp [hdirectory, hname, hsize, Nat.not_le.2 hsize]
    · by_cases hthere : (t.node? (l ++ [name])).isSome
      · simp [hdirectory, hname, hsize, Nat.not_lt.1 hsize, hthere, eq_comm]
      · simp [hdirectory, hname, hsize, hthere]
  · simp [hdirectory]

theorem foldlM_enter_of_isSome (hdown : FilePath.up ∉ names)
    (hsize : ∀ name ∈ names, nameSize name ≤ nameLimit) (h : (t.node? (l ++ names)).isSome) :
    names.foldlM t.enter l = .ok (l ++ names) := by
  induction names generalizing l with
  | nil => rw [List.append_nil]; rfl
  | cons name rest ih =>
    rw [List.mem_cons, not_or] at hdown
    obtain ⟨hname, hrest⟩ := List.forall_mem_cons.1 hsize
    have hsplit : l ++ name :: rest = (l ++ [name]) ++ rest := by simp
    have hthere : (t.node? (l ++ [name])).isSome := by
      by_cases hnil : rest = []
      · rwa [hnil] at h
      · rw [hsplit] at h
        rw [node?_of_append h hnil]
        rfl
    have hstep : t.enter l name = .ok (l ++ [name]) :=
      (enter_eq_ok_iff (Ne.symm hdown.1)).2
        ⟨node?_of_append h (List.cons_ne_nil _ _), hname, hthere, rfl⟩
    rw [hsplit] at h ⊢
    rw [List.foldlM_cons, hstep]
    exact ih hdown.2 hrest h

theorem eq_of_foldlM_enter (hdown : FilePath.up ∉ names) (h : names.foldlM t.enter l = .ok m) :
    m = l ++ names ∧ ∀ name ∈ names, nameSize name ≤ nameLimit := by
  induction names generalizing l with
  | nil =>
    cases h
    exact ⟨(List.append_nil _).symm, fun _ h => by cases h⟩
  | cons name rest ih =>
    rw [List.mem_cons, not_or] at hdown
    rw [List.foldlM_cons, bind_eq_ok_iff] at h
    obtain ⟨l', hstep, h⟩ := h
    obtain ⟨-, hname, -, rfl⟩ := (enter_eq_ok_iff (Ne.symm hdown.1)).1 hstep
    obtain ⟨hm, hrest⟩ := ih hdown.2 h
    refine ⟨?_, List.forall_mem_cons.2 ⟨hname, hrest⟩⟩
    rw [hm, List.append_assoc, List.singleton_append]

theorem walk_of_checkPath (h : checkPath names = .ok ()) :
    t.walk names = names.foldlM t.enter [] := by
  rw [walk, h]
  rfl

/-- Names lead to what is at the location that they are. -/
theorem walk_of_isSome (hnames : Takes names) (h : (t.node? names).isSome) :
    t.walk names = .ok names := by
  rw [walk_of_checkPath hnames.path]
  exact foldlM_enter_of_isSome hnames.down hnames.size h

/-- Names that lead somewhere are the location, if they never turn back. -/
theorem eq_of_walk (hdown : FilePath.up ∉ names) (h : t.walk names = .ok l) :
    l = names ∧ ∀ name ∈ names, nameSize name ≤ nameLimit := by
  obtain ⟨_, -, h⟩ := bind_eq_ok_iff.1 h
  exact eq_of_foldlM_enter hdown h

theorem read_eq_ok_iff {content : Bytes} :
    t.read names = .ok content ↔
      ∃ l, t.walk names = .ok l ∧ t.node? l = some (.file content) := by
  rw [read, bind_eq_ok_iff]
  refine exists_congr fun l => and_congr_right fun _ => ?_
  split
  · next other hnode => rw [hnode, Except.ok.injEq, Option.some.injEq, Node.file.injEq]
  · next hnode =>
    constructor
    · intro h
      cases h
    · intro h
      exact absurd h (hnode content)

/-- **A file can be read by the names of its location.** -/
theorem read_of_node? (hnames : Takes names) {content : Bytes}
    (h : t.node? names = some (.file content)) : t.read names = .ok content :=
  read_eq_ok_iff.2 ⟨names, walk_of_isSome hnames (by rw [h]; rfl), h⟩

/-! ### Where something is made -/

/-- Something is made below a directory that the other names lead to. -/
theorem exists_of_target (h : t.target names = .ok (some l)) :
    ∃ above last, names.getLast? = some last ∧ checkPath names = .ok () ∧
      t.walk names.dropLast = .ok above ∧ t.node? above = some .directory ∧
      last ≠ FilePath.up ∧ nameSize last ≤ nameLimit ∧ l = above ++ [last] := by
  rw [target] at h
  split at h
  · cases h
  · next last hlast =>
    obtain ⟨_, hpath, h⟩ := bind_eq_ok_iff.1 h
    obtain ⟨above, hwalk, h⟩ := bind_eq_ok_iff.1 h
    split at h
    · cases h
    · next hdirectory =>
      split at h
      · cases h
      · next hup =>
        split at h
        · cases h
        · next hsize =>
          cases h
          exact ⟨above, last, hlast, hpath, hwalk, Decidable.not_not.1 hdirectory, hup,
            Nat.not_lt.1 hsize, rfl⟩

theorem node?_dropLast_of_target (h : t.target names = .ok (some l)) :
    l ≠ [] ∧ t.node? l.dropLast = some .directory := by
  obtain ⟨above, last, -, -, -, hdirectory, -, -, rfl⟩ := exists_of_target h
  refine ⟨List.append_ne_nil_of_right_ne_nil _ (List.cons_ne_nil _ _), ?_⟩
  rwa [List.dropLast_concat]

/-- Names that never turn back are the location at which something is made. -/
theorem eq_of_target (hdown : FilePath.up ∉ names) (h : t.target names = .ok (some l)) :
    l = names ∧ Takes names := by
  obtain ⟨above, last, hlast, hpath, hwalk, -, -, hsize, rfl⟩ := exists_of_target h
  obtain ⟨init, rfl⟩ := List.getLast?_eq_some_iff.1 hlast
  rw [List.dropLast_concat] at hwalk
  rw [List.mem_append, not_or] at hdown
  obtain ⟨rfl, hinit⟩ := eq_of_walk hdown.1 hwalk
  refine ⟨rfl, hpath, ?_, fun h => (List.mem_append.1 h).elim hdown.1 hdown.2⟩
  intro name hname
  rcases List.mem_append.1 hname with hname | hname
  · exact hinit name hname
  · rwa [List.mem_singleton.1 hname]

theorem exists_of_makeDirectory (h : t.makeDirectory names = .ok t') :
    ∃ l, t.target names = .ok (some l) ∧ t.node? l = none ∧ t' = t.insert l .directory := by
  obtain ⟨target, htarget, h⟩ := bind_eq_ok_iff.1 h
  split at h
  · cases h
  · next l =>
    split at h
    · cases h
    · next hnone =>
      cases h
      exact ⟨l, htarget, by simpa using hnone, rfl⟩

theorem exists_of_replace {content : Bytes} (h : t.replace names content = .ok t') :
    ∃ l, t.target names = .ok (some l) ∧ t.node? l ≠ some .directory ∧
      t' = t.insert l (.file content) := by
  obtain ⟨target, htarget, h⟩ := bind_eq_ok_iff.1 h
  split at h
  · cases h
  · next l =>
    split at h
    · cases h
    · next hnode =>
      cases h
      exact ⟨l, htarget, hnode, rfl⟩

/-! ### Making directories -/

/-- Everything that is in `t` is in `t'` as well. -/
def Within (t t' : FileTree) : Prop :=
  ∀ l node, t.node? l = some node → t'.node? l = some node

theorem Within.refl (t : FileTree) : Within t t := fun _ _ h => h

theorem Within.trans {t₁ t₂ t₃ : FileTree} (h : Within t₁ t₂) (h' : Within t₂ t₃) :
    Within t₁ t₃ :=
  fun l node hl => h' l node (h l node hl)

theorem within_makeDirectory (h : t.makeDirectory names = .ok t') : Within t t' := by
  obtain ⟨l, -, hnone, rfl⟩ := exists_of_makeDirectory h
  intro m node hm
  have hne : m ≠ l := by
    rintro rfl
    rw [hnone] at hm
    cases hm
  rw [node?_insert_of_ne t hne (by rw [hnone]; exact nofun)]
  exact hm

theorem makeUpwards_induction {P : FileTree → Prop} {lastFirst : List Text} (h : P t)
    (hstep : ∀ u u' p, p <+: lastFirst.reverse → P u → u.makeDirectory p = .ok u' → P u') :
    P (t.makeUpwards lastFirst).tree := by
  induction lastFirst with
  | nil => exact h
  | cons last above ih =>
    have habove : above.reverse <+: (last :: above).reverse := by
      rw [List.reverse_cons]
      exact List.prefix_append ..
    have hparents : P
        (if t.leads above.reverse then ⟨t, none⟩ else t.makeUpwards above : Change).tree := by
      split
      · exact h
      · exact ih fun u u' p hp => hstep u u' p (hp.trans habove)
    rw [makeUpwards]
    generalize (if t.leads above.reverse then ⟨t, none⟩ else t.makeUpwards above : Change) =
      parents at hparents ⊢
    split
    · rw [ensureDirectory]
      split
      · next hmake => exact hstep _ _ _ (List.prefix_refl _) hparents hmake
      · exact hparents
    · exact hparents

/-- **What every step keeps, making directories keeps.** A step makes one directory, whose names are
the beginning of the names that are asked for. -/
theorem makeDirectories_induction {P : FileTree → Prop} (h : P t)
    (hstep : ∀ u u' p, p <+: names → P u → u.makeDirectory p = .ok u' → P u') :
    P (t.makeDirectories names).tree := by
  refine makeUpwards_induction h ?_
  intro u u' p hp
  rw [List.reverse_reverse] at hp
  exact hstep u u' p hp

/-- Making directories takes nothing away. -/
theorem within_makeDirectories (t : FileTree) (names : List Text) :
    Within t (t.makeDirectories names).tree :=
  makeDirectories_induction (Within.refl t) fun _ _ _ _ hu hmake =>
    hu.trans (within_makeDirectory hmake)

/-! ### Writing -/

variable {content : Bytes}

/-- A write makes directories, and then replaces a file unless it fails. -/
theorem write_cases (t : FileTree) (names : List Text) (content : Bytes) :
    (t.write names content).fault ≠ none ∧
        (t.write names content).tree = (t.makeDirectories names.dropLast).tree ∨
      (t.write names content).fault = none ∧
        (t.makeDirectories names.dropLast).tree.replace names content =
          .ok (t.write names content).tree := by
  rw [write]
  cases hfault : (t.makeDirectories names.dropLast).fault with
  | some fault => exact .inl ⟨by rw [hfault]; exact nofun, rfl⟩
  | none =>
    cases hreplace : (t.makeDirectories names.dropLast).tree.replace names content with
    | error fault => exact .inl ⟨nofun, rfl⟩
    | ok t' => exact .inr ⟨rfl, rfl⟩

/-- A write that fails takes nothing away. -/
theorem within_write_of_fault (h : (t.write names content).fault ≠ none) :
    Within t (t.write names content).tree := by
  rcases write_cases t names content with ⟨-, htree⟩ | ⟨hfault, -⟩
  · rw [htree]
    exact within_makeDirectories t _
  · exact absurd hfault h

/-- A write that does not fail leaves the content in the file. -/
theorem node?_write_self (hdown : FilePath.up ∉ names)
    (h : (t.write names content).fault = none) :
    (t.write names content).tree.node? names = some (.file content) ∧ Takes names := by
  rcases write_cases t names content with ⟨hfault, -⟩ | ⟨-, hreplace⟩
  · exact absurd h hfault
  · obtain ⟨l, htarget, hnode, htree⟩ := exists_of_replace hreplace
    obtain ⟨hl, hdirectory⟩ := node?_dropLast_of_target htarget
    obtain ⟨rfl, hnames⟩ := eq_of_target hdown htarget
    rw [htree]
    exact ⟨node?_insert_self _ hl hdirectory hnode _, hnames⟩

/-- A write takes nothing away but the former content of the file. -/
theorem node?_write_of_ne (hdown : FilePath.up ∉ names) (hl : l ≠ names) {node : Node}
    (h : t.node? l = some node) : (t.write names content).tree.node? l = some node := by
  have hparents := within_makeDirectories t names.dropLast l node h
  rcases write_cases t names content with ⟨-, htree⟩ | ⟨-, hreplace⟩
  · rw [htree]
    exact hparents
  · obtain ⟨m, htarget, hnode, htree⟩ := exists_of_replace hreplace
    obtain ⟨rfl, -⟩ := eq_of_target hdown htarget
    rw [htree, node?_insert_of_ne _ hl hnode]
    exact hparents

end FileTree

end JsonShelf
