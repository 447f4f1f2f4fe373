import JsonShelf.Proofs.FileTree.Growth

/-!
# Trees that agree on a way

Names that never turn back are looked up at the locations on their way and nowhere else. So two
trees that agree there cannot be told apart by any operation on these names, or on a beginning of
them: the operation has the same result in both, and leaves trees that still agree there.

Nothing is said about the rest of the trees, which may be as different as they like.

## Main definitions

* `FileTree.AgreeAlong` — two trees have the same at all locations on a way
* `FileTree.SameOutcome`, `FileTree.Change.Same` — the same result, up to what is off the way

## Main results

* `FileTree.AgreeAlong.read`, `FileTree.AgreeAlong.write` — reading and writing cannot tell trees
  apart that agree
-/

namespace JsonShelf

namespace FileTree

variable {t₁ t₂ : FileTree} {l : Location} {names p : List Text}

/-- Two trees have the same at all locations that names lead through. -/
def AgreeAlong (names : List Text) (t₁ t₂ : FileTree) : Prop :=
  ∀ l, l <+: names → t₁.node? l = t₂.node? l

/-- Both come to the same fault, or to trees that agree. -/
inductive SameOutcome (names : List Text) :
    Except FileFault FileTree → Except FileFault FileTree → Prop
  | ok {t₁ t₂ : FileTree} (h : AgreeAlong names t₁ t₂) : SameOutcome names (.ok t₁) (.ok t₂)
  | error (fault : FileFault) : SameOutcome names (.error fault) (.error fault)

/-- Both have the same fault, if any, and leave trees that agree. -/
structure Change.Same (names : List Text) (c₁ c₂ : Change) : Prop where
  tree : AgreeAlong names c₁.tree c₂.tree
  fault : c₁.fault = c₂.fault

/-! ### Following names -/

theorem AgreeAlong.enter (h : AgreeAlong names t₁ t₂) {name : Text} (hname : name ≠ FilePath.up)
    (hl : l ++ [name] <+: names) : t₁.enter l name = t₂.enter l name := by
  rw [FileTree.enter, FileTree.enter, if_neg hname, if_neg hname,
    h l ((List.prefix_append l [name]).trans hl), h _ hl]

theorem AgreeAlong.foldlM_enter (h : AgreeAlong names t₁ t₂) (hdown : FilePath.up ∉ p)
    (hl : l ++ p <+: names) : p.foldlM t₁.enter l = p.foldlM t₂.enter l := by
  induction p generalizing l with
  | nil => rfl
  | cons name rest ih =>
    rw [List.mem_cons, not_or] at hdown
    have hsplit : l ++ name :: rest = (l ++ [name]) ++ rest := by simp
    rw [hsplit] at hl
    have hname : l ++ [name] <+: names := (List.prefix_append _ rest).trans hl
    have hstep := h.enter (Ne.symm hdown.1) hname
    rw [List.foldlM_cons, List.foldlM_cons, ← hstep]
    cases hentered : t₁.enter l name with
    | error fault => rfl
    | ok l' =>
      obtain ⟨-, -, -, rfl⟩ := (enter_eq_ok_iff (Ne.symm hdown.1)).1 hentered
      exact ih hdown.2 hl

section

variable (h : AgreeAlong names t₁ t₂) (hp : p <+: names) (hdown : FilePath.up ∉ p)

include h hp hdown

theorem AgreeAlong.walk : t₁.walk p = t₂.walk p := by
  have hfold : p.foldlM t₁.enter [] = p.foldlM t₂.enter [] := h.foldlM_enter hdown hp
  rw [FileTree.walk, FileTree.walk, hfold]

theorem AgreeAlong.leads : t₁.leads p = t₂.leads p := by
  rw [FileTree.leads, FileTree.leads, h.walk hp hdown]

theorem AgreeAlong.leadsToDirectory : t₁.leadsToDirectory p = t₂.leadsToDirectory p := by
  rw [FileTree.leadsToDirectory, FileTree.leadsToDirectory, ← h.walk hp hdown]
  cases hwalk : t₁.walk p with
  | error fault => rfl
  | ok l =>
    obtain ⟨rfl, -⟩ := eq_of_walk hdown hwalk
    simp only [h _ hp]

/-- Reading cannot tell trees apart that agree. -/
theorem AgreeAlong.read : t₁.read p = t₂.read p := by
  rw [FileTree.read, FileTree.read, ← h.walk hp hdown]
  cases hwalk : t₁.walk p with
  | error fault => rfl
  | ok l =>
    obtain ⟨rfl, -⟩ := eq_of_walk hdown hwalk
    simp only [bind, Except.bind, h _ hp]

/-! ### Making something -/

theorem AgreeAlong.target : t₁.target p = t₂.target p := by
  have hbefore : p.dropLast <+: names := (List.dropLast_prefix p).trans hp
  have hway : FilePath.up ∉ p.dropLast := fun hup => hdown (List.dropLast_subset p hup)
  rw [FileTree.target, FileTree.target, ← h.walk hbefore hway]
  cases hwalk : t₁.walk p.dropLast with
  | error fault => rfl
  | ok above =>
    obtain ⟨rfl, -⟩ := eq_of_walk hway hwalk
    simp only [bind, Except.bind, h _ hbefore]

/-- The same node comes to the same place. -/
theorem AgreeAlong.insert (htarget : t₁.target p = .ok (some l))
    (hnode : t₁.node? l ≠ some .directory) (node : Node) :
    AgreeAlong names (t₁.insert l node) (t₂.insert l node) := by
  obtain ⟨hne, hparent₁⟩ := node?_dropLast_of_target htarget
  obtain ⟨-, hparent₂⟩ := node?_dropLast_of_target ((h.target hp hdown) ▸ htarget)
  obtain ⟨rfl, -⟩ := eq_of_target hdown htarget
  have hnode₂ : t₂.node? l ≠ some .directory := (h _ hp) ▸ hnode
  intro m hm
  by_cases hml : m = l
  · rw [hml, node?_insert_self t₁ hne hparent₁ hnode, node?_insert_self t₂ hne hparent₂ hnode₂]
  · rw [node?_insert_of_ne t₁ hml hnode, node?_insert_of_ne t₂ hml hnode₂]
    exact h m hm

theorem AgreeAlong.makeDirectory :
    SameOutcome names (t₁.makeDirectory p) (t₂.makeDirectory p) := by
  have htarget := h.target hp hdown
  rw [FileTree.makeDirectory, FileTree.makeDirectory, ← htarget]
  cases hfound : t₁.target p with
  | error fault => exact .error fault
  | ok place =>
    cases place with
    | none => exact .error .alreadyExists
    | some l =>
      obtain ⟨rfl, -⟩ := eq_of_target hdown hfound
      simp only [bind, Except.bind, ← h _ hp]
      split
      · exact .error .alreadyExists
      · next hnone =>
        refine .ok (h.insert hp hdown hfound ?_ _)
        intro hdirectory
        rw [hdirectory] at hnone
        exact hnone rfl

theorem AgreeAlong.replace (content : Bytes) :
    SameOutcome names (t₁.replace p content) (t₂.replace p content) := by
  have htarget := h.target hp hdown
  rw [FileTree.replace, FileTree.replace, ← htarget]
  cases hfound : t₁.target p with
  | error fault => exact .error fault
  | ok place =>
    cases place with
    | none => exact .error .isDirectory
    | some l =>
      obtain ⟨rfl, -⟩ := eq_of_target hdown hfound
      simp only [bind, Except.bind, ← h _ hp]
      split
      · exact .error .isDirectory
      · next hnode => exact .ok (h.insert hp hdown hfound hnode _)

theorem AgreeAlong.ensureDirectory :
    Change.Same names (t₁.ensureDirectory p) (t₂.ensureDirectory p) := by
  have hmake := h.makeDirectory hp hdown
  rw [FileTree.ensureDirectory, FileTree.ensureDirectory, ← h.leadsToDirectory hp hdown]
  generalize t₁.makeDirectory p = x₁, t₂.makeDirectory p = x₂ at hmake
  cases hmake with
  | ok hmade => exact ⟨hmade, rfl⟩
  | error fault => exact ⟨h, rfl⟩

end

theorem AgreeAlong.makeUpwards (h : AgreeAlong names t₁ t₂) {lastFirst : List Text}
    (hp : lastFirst.reverse <+: names) (hdown : FilePath.up ∉ lastFirst.reverse) :
    Change.Same names (t₁.makeUpwards lastFirst) (t₂.makeUpwards lastFirst) := by
  induction lastFirst with
  | nil => exact ⟨h, rfl⟩
  | cons last above ih =>
    have habove : above.reverse <+: (last :: above).reverse := by
      rw [List.reverse_cons]
      exact List.prefix_append ..
    have hup : FilePath.up ∉ above.reverse := fun hmem => hdown (habove.subset hmem)
    have hparents : Change.Same names
        (if t₁.leads above.reverse then ⟨t₁, none⟩ else t₁.makeUpwards above)
        (if t₂.leads above.reverse then ⟨t₂, none⟩ else t₂.makeUpwards above) := by
      rw [← h.leads (habove.trans hp) hup]
      split
      · exact ⟨h, rfl⟩
      · exact ih (habove.trans hp) hup
    rw [FileTree.makeUpwards, FileTree.makeUpwards]
    generalize (if t₁.leads above.reverse then ⟨t₁, none⟩ else t₁.makeUpwards above : Change) =
      parents₁, (if t₂.leads above.reverse then ⟨t₂, none⟩ else t₂.makeUpwards above : Change) =
      parents₂ at hparents ⊢
    rw [← hparents.fault]
    split
    · exact hparents.tree.ensureDirectory hp hdown
    · exact hparents

/-- Writing cannot tell trees apart that agree. -/
theorem AgreeAlong.write (h : AgreeAlong names t₁ t₂) (hdown : FilePath.up ∉ names)
    (content : Bytes) : Change.Same names (t₁.write names content) (t₂.write names content) := by
  have hparents : Change.Same names (t₁.makeDirectories names.dropLast)
      (t₂.makeDirectories names.dropLast) := by
    refine h.makeUpwards ?_ ?_
    · rw [List.reverse_reverse]
      exact List.dropLast_prefix names
    · rw [List.reverse_reverse]
      exact fun hup => hdown (List.dropLast_subset names hup)
  rw [FileTree.write, FileTree.write, ← hparents.fault]
  cases hfault : (t₁.makeDirectories names.dropLast).fault with
  | some fault => exact hparents
  | none =>
    have hreplace := hparents.tree.replace (List.prefix_refl names) hdown content
    dsimp only
    generalize (t₁.makeDirectories names.dropLast).tree.replace names content = x₁,
      (t₂.makeDirectories names.dropLast).tree.replace names content = x₂ at hreplace ⊢
    cases hreplace with
    | ok hmade => exact ⟨hmade, rfl⟩
    | error fault => exact ⟨hparents.tree, rfl⟩

end FileTree

end JsonShelf
