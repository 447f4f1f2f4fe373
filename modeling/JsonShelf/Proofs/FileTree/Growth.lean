import JsonShelf.Proofs.FileTree.Access

/-!
# What file operations add

Making a directory with its parents is a chain of single steps, each of which puts one directory
where nothing was. A write puts one file on top of that, unless it fails.

Names that never turn back say where: what is made is at the locations that they lead through. For
names with double dots nothing is said about the places, only that directories come where nothing
was.

## Main definitions

* `FileTree.OnWay` — the locations that names lead through
* `FileTree.Grows` — a tree that has more directories than another one, and is the same otherwise

## Main results

* `FileTree.grows_write_of_fault`, `FileTree.exists_of_write` — what a write leaves
* `FileTree.node?_write_cases` — what is where after a write, for names that never turn back
-/

namespace JsonShelf

namespace FileTree

variable {t t' : FileTree} {l m : Location} {names : List Text} {content : Bytes}

/-! ### Growth -/

/-- The locations that names lead through, the last one included, if they never turn back. -/
def OnWay (names : List Text) (l : Location) : Prop := FilePath.up ∉ names → l <+: names

/-- `t'` has all of `t`, and directories at some of the locations in `S`. -/
def Grows (S : Location → Prop) (t t' : FileTree) : Prop :=
  ∀ l, t'.node? l = t.node? l ∨ t.node? l = none ∧ t'.node? l = some .directory ∧ S l

theorem Grows.refl (S : Location → Prop) (t : FileTree) : Grows S t t := fun _ => .inl rfl

theorem Grows.trans {S : Location → Prop} {t₁ t₂ t₃ : FileTree} (h : Grows S t₁ t₂)
    (h' : Grows S t₂ t₃) : Grows S t₁ t₃ := by
  intro l
  rcases h' l with hl' | ⟨hnone, hnew, hS⟩
  · rw [hl']
    exact h l
  · refine .inr ⟨?_, hnew, hS⟩
    rcases h l with hl | ⟨hold, -, -⟩
    · rw [← hl, hnone]
    · exact hold

theorem Grows.within {S : Location → Prop} (h : Grows S t t') : Within t t' := by
  intro l node hl
  rcases h l with hsame | ⟨hnone, -, -⟩
  · rw [hsame, hl]
  · rw [hnone] at hl
    cases hl

/-- A tree does not grow outside of the locations. -/
theorem Grows.node?_eq {S : Location → Prop} (h : Grows S t t') (hl : ¬ S l) :
    t'.node? l = t.node? l :=
  (h l).resolve_right fun hnew => hl hnew.2.2

/-- A tree does not grow files. -/
theorem Grows.node?_eq_file_iff {S : Location → Prop} (h : Grows S t t') :
    t'.node? l = some (.file content) ↔ t.node? l = some (.file content) := by
  rcases h l with hsame | ⟨hnone, hnew, -⟩
  · rw [hsame]
  · rw [hnone, hnew]
    exact ⟨nofun, nofun⟩

/-- A directory that is made is the only thing that is new. -/
theorem grows_makeDirectory (h : t.makeDirectory names = .ok t') :
    Grows (fun l => FilePath.up ∉ names → l = names) t t' := by
  obtain ⟨l, htarget, hnone, rfl⟩ := exists_of_makeDirectory h
  have hnode : t.node? l ≠ some .directory := by
    rw [hnone]
    exact nofun
  intro m
  by_cases hm : m = l
  · subst hm
    obtain ⟨hne, hparent⟩ := node?_dropLast_of_target htarget
    exact .inr ⟨hnone, node?_insert_self t hne hparent hnode _,
      fun hdown => (eq_of_target hdown htarget).1⟩
  · exact .inl (node?_insert_of_ne t hm hnode _)

/-- Making directories only adds some, on the way that the names lead. -/
theorem grows_makeDirectories (t : FileTree) (names : List Text) :
    Grows (OnWay names) t (t.makeDirectories names).tree := by
  refine makeDirectories_induction (Grows.refl _ t) ?_
  intro u u' p hp hu hmake
  refine hu.trans ?_
  intro l
  rcases grows_makeDirectory hmake l with hsame | ⟨hnone, hnew, hl⟩
  · exact .inl hsame
  · refine .inr ⟨hnone, hnew, ?_⟩
    intro hdown
    rw [hl fun hmem => hdown (hp.subset hmem)]
    exact hp

/-! ### Writing -/

/-- A write that fails only adds directories, on the way to the file. -/
theorem grows_write_of_fault (h : (t.write names content).fault ≠ none) :
    Grows (OnWay names.dropLast) t (t.write names content).tree := by
  rcases write_cases t names content with ⟨-, htree⟩ | ⟨hfault, -⟩
  · rw [htree]
    exact grows_makeDirectories t _
  · exact absurd hfault h

/-- A write that does not fail adds directories, and then puts a file where no directory is. -/
theorem exists_of_write (h : (t.write names content).fault = none) :
    ∃ t' l, Grows (OnWay names.dropLast) t t' ∧ t'.target names = .ok (some l) ∧
      t'.node? l ≠ some .directory ∧
      (t.write names content).tree = t'.insert l (.file content) := by
  rcases write_cases t names content with ⟨hfault, -⟩ | ⟨-, hreplace⟩
  · exact absurd h hfault
  · obtain ⟨l, htarget, hnode, htree⟩ := exists_of_replace hreplace
    exact ⟨_, l, grows_makeDirectories t _, htarget, hnode, htree⟩

/-- **What is where after a write.** The content is at the names unless the write fails, directories
may be new on the way there, and everything else is as before. -/
theorem node?_write_cases (t : FileTree) (content : Bytes) (hdown : FilePath.up ∉ names)
    (l : Location) :
    (l = names ∧ (t.write names content).fault = none ∧
        (t.write names content).tree.node? l = some (.file content)) ∨
      (t.write names content).tree.node? l = t.node? l ∨
      (t.node? l = none ∧ (t.write names content).tree.node? l = some .directory ∧
        l <+: names.dropLast) := by
  have hway : FilePath.up ∉ names.dropLast := fun hmem => hdown (List.dropLast_subset names hmem)
  by_cases hfault : (t.write names content).fault = none
  · by_cases hl : l = names
    · subst hl
      exact .inl ⟨rfl, hfault, (node?_write_self hdown hfault).1⟩
    · right
      obtain ⟨u, m, hgrows, htarget, hnode, htree⟩ := exists_of_write hfault
      obtain ⟨rfl, -⟩ := eq_of_target hdown htarget
      rw [htree, node?_insert_of_ne u hl hnode]
      rcases hgrows l with hsame | ⟨hnone, hnew, hl⟩
      · exact .inl hsame
      · exact .inr ⟨hnone, hnew, hl hway⟩
  · right
    rcases grows_write_of_fault hfault l with hsame | ⟨hnone, hnew, hl⟩
    · exact .inl hsame
    · exact .inr ⟨hnone, hnew, hl hway⟩

/-- Away from the way to the file, a write changes nothing. -/
theorem node?_write_of_not_onWay (hdown : FilePath.up ∉ names) (hl : ¬ l <+: names)
    (content : Bytes) : (t.write names content).tree.node? l = t.node? l := by
  rcases node?_write_cases t content hdown l with ⟨rfl, -, -⟩ | hsame | ⟨-, -, hway⟩
  · exact absurd (List.prefix_refl _) hl
  · exact hsame
  · exact absurd (hway.trans (List.dropLast_prefix names)) hl

end FileTree

end JsonShelf
