import JsonShelf.Proofs.FileTree.Growth

/-!
# What was written is read back

Files and directories stay what they are: no operation takes one away or makes the one out of the
other. Names that lead somewhere therefore go on leading there, whatever is made or written in the
meantime, also when they turn back on the way with a double dot. So a file that was written can be
read under the very names that it was written under, and nothing has to be known about these.

## Main definitions

* `FileTree.Keeps` — a tree that has everything of another one, each of its kind

## Main results

* `FileTree.Keeps.walk` — names that lead somewhere go on leading there
* `FileTree.keeps_write`, `FileTree.exists_node?_write` — what a write keeps, and what it changes
* `FileTree.read_write_self` — a file that was written can be read
-/

namespace JsonShelf

namespace FileTree

variable {t t' : FileTree} {l m : Location} {names : List Text} {content : Bytes}

/-- Everything in `t` is in `t'` as well, files as files and directories as directories. -/
def Keeps (t t' : FileTree) : Prop :=
  ∀ l node, t.node? l = some node →
    ∃ node', t'.node? l = some node' ∧ (node' = .directory ↔ node = .directory)

theorem Keeps.refl (t : FileTree) : Keeps t t := fun _ node h => ⟨node, h, Iff.rfl⟩

theorem Keeps.trans {t₁ t₂ t₃ : FileTree} (h : Keeps t₁ t₂) (h' : Keeps t₂ t₃) : Keeps t₁ t₃ := by
  intro l node hl
  obtain ⟨node', hl', hkind⟩ := h l node hl
  obtain ⟨node'', hl'', hkind'⟩ := h' l node' hl'
  exact ⟨node'', hl'', hkind'.trans hkind⟩

theorem Within.keeps (h : Within t t') : Keeps t t' :=
  fun l node hl => ⟨node, h l node hl, Iff.rfl⟩

theorem Keeps.directory (h : Keeps t t') (hl : t.node? l = some .directory) :
    t'.node? l = some .directory := by
  obtain ⟨node, hnode, hkind⟩ := h l .directory hl
  rw [hnode, hkind.2 rfl]

theorem Keeps.isSome (h : Keeps t t') (hl : (t.node? l).isSome) : (t'.node? l).isSome := by
  obtain ⟨node, hnode⟩ := Option.isSome_iff_exists.1 hl
  obtain ⟨node', hnode', -⟩ := h l node hnode
  rw [hnode']
  rfl

/-! ### Following names -/

theorem Keeps.enter (h : Keeps t t') {name : Text} (henter : t.enter l name = .ok m) :
    t'.enter l name = .ok m := by
  have hdirectory : t.node? l = some .directory := by
    rw [FileTree.enter] at henter
    split at henter
    · cases henter
    · next hdirectory => exact Decidable.not_not.1 hdirectory
  by_cases hup : name = FilePath.up
  · rw [FileTree.enter, if_neg (not_not_intro hdirectory), if_pos hup] at henter
    rw [FileTree.enter, if_neg (not_not_intro (h.directory hdirectory)), if_pos hup]
    exact henter
  · obtain ⟨-, hsize, hthere, rfl⟩ := (enter_eq_ok_iff hup).1 henter
    exact (enter_eq_ok_iff hup).2 ⟨h.directory hdirectory, hsize, h.isSome hthere, rfl⟩

theorem Keeps.foldlM_enter (h : Keeps t t') (hfold : names.foldlM t.enter l = .ok m) :
    names.foldlM t'.enter l = .ok m := by
  induction names generalizing l with
  | nil => exact hfold
  | cons name rest ih =>
    rw [List.foldlM_cons, bind_eq_ok_iff] at hfold ⊢
    obtain ⟨next, hstep, hfold⟩ := hfold
    exact ⟨next, h.enter hstep, ih hfold⟩

/-- **Names that lead somewhere go on leading there.** -/
theorem Keeps.walk (h : Keeps t t') (hwalk : t.walk names = .ok l) : t'.walk names = .ok l := by
  obtain ⟨_, hpath, hfold⟩ := bind_eq_ok_iff.1 hwalk
  exact bind_eq_ok_iff.2 ⟨_, hpath, h.foldlM_enter hfold⟩

/-- Files go on having their content. -/
theorem Within.read (h : Within t t') (hread : t.read names = .ok content) :
    t'.read names = .ok content := by
  obtain ⟨l, hwalk, hnode⟩ := read_eq_ok_iff.1 hread
  exact read_eq_ok_iff.2 ⟨l, h.keeps.walk hwalk, h l _ hnode⟩

/-- One more name is one more step. -/
theorem walk_concat {last : Text} (hpath : checkPath (names ++ [last]) = .ok ())
    (hwalk : t.walk names = .ok l) : t.walk (names ++ [last]) = t.enter l last := by
  obtain ⟨_, -, hfold⟩ := bind_eq_ok_iff.1 hwalk
  rw [walk_of_checkPath hpath, List.foldlM_append, hfold]
  exact bind_pure (t.enter l last)

/-! ### Writing -/

theorem keeps_insert_file (hnode : t.node? l ≠ some .directory) (hl : l ≠ [])
    (hparent : t.node? l.dropLast = some .directory) (content : Bytes) :
    Keeps t (t.insert l (.file content)) := by
  intro m node hm
  by_cases hml : m = l
  · subst hml
    refine ⟨_, node?_insert_self t hl hparent hnode _, ?_⟩
    constructor
    · exact nofun
    · rintro rfl
      exact absurd hm hnode
  · exact ⟨node, by rw [node?_insert_of_ne t hml hnode, hm], Iff.rfl⟩

/-- A write keeps everything, whether it fails or not. -/
theorem keeps_write (t : FileTree) (names : List Text) (content : Bytes) :
    Keeps t (t.write names content).tree := by
  by_cases hfault : (t.write names content).fault = none
  · obtain ⟨u, l, hgrows, htarget, hnode, htree⟩ := exists_of_write hfault
    obtain ⟨hl, hparent⟩ := node?_dropLast_of_target htarget
    rw [htree]
    exact hgrows.within.keeps.trans (keeps_insert_file hnode hl hparent content)
  · exact (within_write_of_fault hfault).keeps

/-- A write changes or adds one file at most. -/
theorem exists_node?_write (t : FileTree) (names : List Text) (content : Bytes) :
    ∃ l, ∀ m other, m ≠ l →
      ((t.write names content).tree.node? m = some (.file other) ↔
        t.node? m = some (.file other)) := by
  by_cases hfault : (t.write names content).fault = none
  · obtain ⟨u, l, hgrows, -, hnode, htree⟩ := exists_of_write hfault
    refine ⟨l, ?_⟩
    intro m other hm
    rw [htree, node?_insert_of_ne u hm hnode]
    exact hgrows.node?_eq_file_iff
  · exact ⟨[], fun _ _ _ => (grows_write_of_fault hfault).node?_eq_file_iff⟩

/-- **A file that was written can be read** under the same names, wherever these lead. -/
theorem read_write_self (h : (t.write names content).fault = none) :
    (t.write names content).tree.read names = .ok content := by
  obtain ⟨u, l, -, htarget, hnode, htree⟩ := exists_of_write h
  obtain ⟨hl, hparent⟩ := node?_dropLast_of_target htarget
  -- What leads to the directory of the file in `u` does so after the file is put there.
  have hkeeps := keeps_insert_file hnode hl hparent content
  have hself := node?_insert_self u hl hparent hnode (.file content)
  obtain ⟨above, last, hlast, hpath, hwalk, hdirectory, hup, hsize, rfl⟩ :=
    exists_of_target htarget
  obtain ⟨init, rfl⟩ := List.getLast?_eq_some_iff.1 hlast
  rw [List.dropLast_concat] at hwalk
  have hwalk' : (u.insert (above ++ [last]) (.file content)).walk (init ++ [last]) =
      .ok (above ++ [last]) := by
    rw [walk_concat hpath (hkeeps.walk hwalk)]
    exact (enter_eq_ok_iff hup).2
      ⟨hkeeps.directory hdirectory, hsize, by rw [hself]; rfl, rfl⟩
  rw [htree]
  exact read_eq_ok_iff.2 ⟨_, hwalk', hself⟩

end FileTree

end JsonShelf
