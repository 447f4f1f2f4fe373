import JsonShelf.Proofs.FileTree.Growth

/-!
# Ways that nothing blocks

A file in the middle of the way that names lead is the only thing a file system finds in the way.
Where there is none, the outcome of a look-up or a write hangs on the names alone: a file that is
missing is missing, and it can be written unless one of the names is too long.

Reading tells as much: a file that is read, or that is missed, has no file above it. So a write that
follows such a read fails for no other reason than the length of a name.

## Main definitions

* `FileTree.Passable` — no file is on the way that names lead, or at its end

## Main results

* `FileTree.passable_of_read` — reading a file, or missing it, tells that the way is free
* `FileTree.read_of_passable` — what is not there is missed
* `FileTree.fault_write_of_passable` — whether a write fails
-/

namespace JsonShelf

namespace FileTree

variable {t : FileTree} {l m : Location} {names above : List Text} {last : Text}
  {content : Bytes}

/-! ### Names that file systems take -/

theorem pathSize_le_append (names others : List Text) :
    pathSize names ≤ pathSize (names ++ others) := by
  induction names with
  | nil =>
    induction others with
    | nil => exact Nat.le_refl _
    | cons other others ih => exact Nat.le_trans ih (Nat.le_add_left ..)
  | cons name names ih => exact Nat.add_le_add_left ih _

theorem checkPath_eq_ok_iff :
    checkPath names = .ok () ↔
      (∀ name ∈ names, ¬ name.HasNul) ∧ pathSize names ≤ pathLimit := by
  rw [checkPath]
  split
  · next hnul =>
    obtain ⟨name, hname, hnul⟩ := hnul
    exact ⟨nofun, fun h => absurd hnul (h.1 name hname)⟩
  · next hnul =>
    split
    · next hsize => exact ⟨nofun, fun h => absurd h.2 (Nat.not_le.2 hsize)⟩
    · next hsize => exact ⟨fun _ => ⟨fun name hname h => hnul ⟨name, hname, h⟩,
        Nat.not_lt.1 hsize⟩, fun _ => rfl⟩

/-- If file systems take a path, they take every path to a place on the way. -/
theorem checkPath_of_isPrefix (hbefore : above <+: names) (h : checkPath names = .ok ()) :
    checkPath above = .ok () := by
  obtain ⟨others, rfl⟩ := hbefore
  obtain ⟨hnul, hsize⟩ := checkPath_eq_ok_iff.1 h
  refine checkPath_eq_ok_iff.2 ⟨?_, Nat.le_trans (pathSize_le_append above others) hsize⟩
  exact fun name hname => hnul name (List.mem_append_left _ hname)

theorem Takes.of_isPrefix (hbefore : above <+: names) (h : Takes names) : Takes above where
  path := checkPath_of_isPrefix hbefore h.path
  size name hname := h.size name (hbefore.subset hname)
  down hup := h.down (hbefore.subset hup)

theorem Takes.concat (h : Takes above) (hpath : checkPath (above ++ [last]) = .ok ())
    (hlast : last ≠ FilePath.up) (hsize : nameSize last ≤ nameLimit) :
    Takes (above ++ [last]) where
  path := hpath
  size name hname := by
    rcases List.mem_append.1 hname with hname | hname
    · exact h.size name hname
    · rwa [List.mem_singleton.1 hname]
  down hup := by
    rcases List.mem_append.1 hup with hup | hup
    · exact h.down hup
    · exact hlast (List.mem_singleton.1 hup).symm

/-! ### Ways without files -/

/-- No file is on the way that names lead, or at its end. -/
def Passable (t : FileTree) (names : List Text) : Prop :=
  ∀ l content, l <+: names → t.node? l ≠ some (.file content)

theorem Passable.of_isPrefix (hbefore : above <+: names) (h : Passable t names) :
    Passable t above :=
  fun l content hl => h l content (hl.trans hbefore)

/-- What is at the end of such a way is a directory. -/
theorem Passable.eq_directory (h : Passable t names) (hthere : (t.node? names).isSome) :
    t.node? names = some .directory := by
  obtain ⟨node, hnode⟩ := Option.isSome_iff_exists.1 hthere
  cases node with
  | directory => exact hnode
  | file content => exact absurd hnode (h names content (List.prefix_refl _))

theorem passable_of_dropLast (h : Passable t names.dropLast)
    (hfile : ∀ content, t.node? names ≠ some (.file content)) : Passable t names := by
  intro l content hl
  by_cases hne : names = []
  · rw [hne, List.prefix_nil] at hl
    rw [hl, node?_nil]
    exact nofun
  · rw [← List.dropLast_concat_getLast hne, List.prefix_concat_iff,
      List.dropLast_concat_getLast hne] at hl
    rcases hl with rfl | hl
    · exact hfile content
    · exact h l content hl

/-- Directories that are added block nothing. -/
theorem Passable.grows {S : Location → Prop} {t' : FileTree} (h : Passable t names)
    (hgrows : Grows S t t') : Passable t' names := by
  intro l content hl hfile
  exact h l content hl (hgrows.node?_eq_file_iff.1 hfile)

/-- Nothing is below what is not there. -/
theorem node?_append_of_eq_none (h : t.node? l = none) (m : Location) :
    t.node? (l ++ m) = none := by
  by_cases hm : m = []
  · rwa [hm, List.append_nil]
  · refine Option.not_isSome_iff_eq_none.1 ?_
    intro hthere
    rw [node?_of_append hthere hm] at h
    cases h

/-- Above a file or directory, nothing is in the way. -/
theorem passable_of_isSome (h : (t.node? (above ++ [last])).isSome) : Passable t above := by
  intro l content hl hfile
  obtain ⟨others, rfl⟩ := hl
  rw [List.append_assoc] at h
  rw [node?_of_append h (by simp)] at hfile
  cases hfile

/-! ### Reading -/

theorem enter_eq_notFound_iff {name : Text} (hname : name ≠ FilePath.up) :
    t.enter l name = .error .notFound ↔
      t.node? l = some .directory ∧ nameSize name ≤ nameLimit ∧ t.node? (l ++ [name]) = none := by
  rw [enter]
  by_cases hdirectory : t.node? l = some .directory
  · by_cases hsize : nameLimit < nameSize name
    · simp [hdirectory, hname, hsize, Nat.not_le.2 hsize]
    · cases hthere : t.node? (l ++ [name]) with
      | none => simp [hdirectory, hname, hsize, Nat.not_lt.1 hsize]
      | some node => simp [hdirectory, hname, hsize]
  · simp [hdirectory]

/-- A name that is missed is missed in a directory, and all the rest is missing with it. -/
theorem node?_of_foldlM_notFound (hdown : FilePath.up ∉ names)
    (h : names.foldlM t.enter l = .error .notFound) :
    t.node? (l ++ names) = none ∧
      ∀ m content, m <+: names → t.node? (l ++ m) ≠ some (.file content) := by
  induction names generalizing l with
  | nil => cases h
  | cons name rest ih =>
    rw [List.mem_cons, not_or] at hdown
    have hsplit : ∀ others, l ++ name :: others = (l ++ [name]) ++ others := by simp
    have hstep : ∀ hdirectory : t.node? l = some .directory, t.node? (l ++ [name] ++ rest) = none →
        (∀ m content, m <+: rest → t.node? (l ++ [name] ++ m) ≠ some (.file content)) →
        t.node? (l ++ name :: rest) = none ∧
          ∀ m content, m <+: name :: rest → t.node? (l ++ m) ≠ some (.file content) := by
      intro hdirectory hnone hway
      rw [hsplit]
      refine ⟨hnone, ?_⟩
      intro m content hm
      rcases List.prefix_cons_iff.1 hm with rfl | ⟨others, rfl, hothers⟩
      · rw [List.append_nil, hdirectory]
        exact nofun
      · rw [hsplit]
        exact hway others content hothers
    rw [List.foldlM_cons] at h
    rcases bind_eq_error_iff.1 h with hmissed | ⟨l', hentered, hmissed⟩
    · obtain ⟨hdirectory, -, hnone⟩ := (enter_eq_notFound_iff (Ne.symm hdown.1)).1 hmissed
      refine hstep hdirectory (node?_append_of_eq_none hnone rest) ?_
      intro m content _
      rw [node?_append_of_eq_none hnone m]
      exact nofun
    · obtain ⟨hdirectory, -, -, rfl⟩ := (enter_eq_ok_iff (Ne.symm hdown.1)).1 hentered
      obtain ⟨hnone, hway⟩ := ih hdown.2 hmissed
      exact hstep hdirectory hnone hway

/-- A file that is read is at the names. -/
theorem node?_of_read (hdown : FilePath.up ∉ names) (h : t.read names = .ok content) :
    t.node? names = some (.file content) ∧ Takes names := by
  obtain ⟨l, hwalk, hnode⟩ := read_eq_ok_iff.1 h
  obtain ⟨rfl, hsize⟩ := eq_of_walk hdown hwalk
  obtain ⟨_, hpath, -⟩ := bind_eq_ok_iff.1 hwalk
  exact ⟨hnode, hpath, hsize, hdown⟩

/-- Only walking misses a file, and only after the path is taken. -/
theorem foldlM_of_read_notFound (h : t.read names = .error .notFound) :
    checkPath names = .ok () ∧ names.foldlM t.enter [] = .error .notFound := by
  rcases bind_eq_error_iff.1 h with hwalk | ⟨l, -, hnode⟩
  · rcases bind_eq_error_iff.1 hwalk with hpath | ⟨_, hpath, hwalk⟩
    · rw [checkPath] at hpath
      split at hpath
      · cases hpath
      · split at hpath <;> cases hpath
    · exact ⟨hpath, hwalk⟩
  · split at hnode <;> cases hnode

/-- **Reading tells whether the way is free.** A file that is read or missed has no file above it,
and no directory is in its place. -/
theorem passable_of_read (hdown : FilePath.up ∉ above ++ [last])
    (h : (∃ content, t.read (above ++ [last]) = .ok content) ∨
      t.read (above ++ [last]) = .error .notFound) :
    checkPath (above ++ [last]) = .ok () ∧ Passable t above ∧
      t.node? (above ++ [last]) ≠ some .directory := by
  rcases h with ⟨content, h⟩ | h
  · obtain ⟨hnode, hnames⟩ := node?_of_read hdown h
    refine ⟨hnames.path, passable_of_isSome (by rw [hnode]; rfl), ?_⟩
    rw [hnode]
    exact nofun
  · obtain ⟨hpath, hwalk⟩ := foldlM_of_read_notFound h
    obtain ⟨hnone, hway⟩ := node?_of_foldlM_notFound hdown hwalk
    rw [List.nil_append] at hnone
    refine ⟨hpath, fun l content hl => hway l content (hl.trans (List.prefix_append ..)), ?_⟩
    rw [hnone]
    exact nofun

/-- A path that is refused is refused to readers. -/
theorem read_of_checkPath_error {fault : FileFault} (h : checkPath names = .error fault)
    (t : FileTree) : t.read names = .error fault := by
  rw [read, walk, h]
  rfl

theorem foldlM_enter_of_passable (hdown : FilePath.up ∉ names)
    (hsize : ∀ name ∈ names, nameSize name ≤ nameLimit) (hdirectory : t.node? l = some .directory)
    (hway : ∀ m content, m <+: names → t.node? (l ++ m) ≠ some (.file content))
    (h : t.node? (l ++ names) = none) : names.foldlM t.enter l = .error .notFound := by
  induction names generalizing l with
  | nil =>
    rw [List.append_nil, hdirectory] at h
    cases h
  | cons name rest ih =>
    rw [List.mem_cons, not_or] at hdown
    obtain ⟨hname, hrest⟩ := List.forall_mem_cons.1 hsize
    have hsplit : ∀ others, l ++ name :: others = (l ++ [name]) ++ others := by simp
    rw [List.foldlM_cons]
    cases hnode : t.node? (l ++ [name]) with
    | none =>
      rw [(enter_eq_notFound_iff (Ne.symm hdown.1)).2 ⟨hdirectory, hname, hnode⟩]
      rfl
    | some node =>
      have hnext : t.node? (l ++ [name]) = some .directory := by
        cases node with
        | directory => exact hnode
        | file content =>
          exact absurd hnode (hway [name] content (List.prefix_append [name] rest))
      rw [(enter_eq_ok_iff (Ne.symm hdown.1)).2 ⟨hdirectory, hname, by rw [hnode]; rfl, rfl⟩]
      refine ih hdown.2 hrest hnext ?_ ((hsplit rest) ▸ h)
      intro m content hm
      rw [← hsplit]
      exact hway (name :: m) content (List.cons_prefix_cons.2 ⟨rfl, hm⟩)

/-- **What is not there is missed,** if nothing is in the way. -/
theorem read_of_passable (hnames : Takes names) (hway : Passable t names)
    (h : t.node? names = none) : t.read names = .error .notFound := by
  have hwalk : t.walk names = .error .notFound := by
    rw [walk_of_checkPath hnames.path]
    exact foldlM_enter_of_passable hnames.down hnames.size (node?_nil t) hway h
  rw [read, hwalk]
  rfl

/-- Names that file systems take are refused to readers for what is in the tree only. -/
theorem fault_of_read (hnames : Takes names) {fault : FileFault} (h : t.read names = .error fault) :
    fault = .notFound ∨ fault = .notDirectory ∨ fault = .isDirectory := by
  rcases bind_eq_error_iff.1 h with hwalk | ⟨l, -, hnode⟩
  · rw [walk_of_checkPath hnames.path] at hwalk
    obtain ⟨name, hname, l, henter⟩ := exists_of_foldlM_eq_error hwalk
    have hup : name ≠ FilePath.up := fun hup => hnames.down (hup ▸ hname)
    rw [enter, if_neg hup, if_neg (Nat.not_lt.2 (hnames.size name hname))] at henter
    split at henter
    · cases henter
      exact .inr (.inl rfl)
    · split at henter
      · cases henter
      · cases henter
        exact .inl rfl
  · split at hnode
    · cases hnode
    · cases hnode
      exact .inr (.inr rfl)

/-! ### Making directories -/

theorem isSome_of_foldlM_enter (hdown : FilePath.up ∉ names) (hl : (t.node? l).isSome)
    (h : names.foldlM t.enter l = .ok m) : (t.node? m).isSome := by
  induction names generalizing l with
  | nil =>
    cases h
    exact hl
  | cons name rest ih =>
    rw [List.mem_cons, not_or] at hdown
    rw [List.foldlM_cons, bind_eq_ok_iff] at h
    obtain ⟨l', hstep, h⟩ := h
    obtain ⟨-, -, hthere, rfl⟩ := (enter_eq_ok_iff (Ne.symm hdown.1)).1 hstep
    exact ih hdown.2 hthere h

/-- In a directory, something can be made unless its name is too long. -/
theorem target_of_directory (habove : Takes above) (hpath : checkPath (above ++ [last]) = .ok ())
    (hlast : last ≠ FilePath.up) (hdirectory : t.node? above = some .directory) :
    t.target (above ++ [last]) =
      if nameLimit < nameSize last then .error .nameTooLong else .ok (some (above ++ [last])) := by
  have hwalk : t.walk above = .ok above := walk_of_isSome habove (by rw [hdirectory]; rfl)
  simp only [target, List.getLast?_concat, List.dropLast_concat, hpath, hwalk, bind, Except.bind]
  rw [if_neg (not_not_intro hdirectory), if_neg hlast]

/-- Names that lead somewhere are names that file systems take. -/
theorem takes_of_leads (hdown : FilePath.up ∉ names) (h : t.leads names) :
    Takes names ∧ (t.node? names).isSome := by
  rw [leads] at h
  cases hwalk : t.walk names with
  | error fault =>
    rw [hwalk] at h
    cases h
  | ok l =>
    obtain ⟨_, hpath, hfold⟩ := bind_eq_ok_iff.1 hwalk
    obtain ⟨rfl, hsize⟩ := eq_of_walk hdown hwalk
    exact ⟨⟨hpath, hsize, hdown⟩, isSome_of_foldlM_enter hdown (by rw [node?_nil]; rfl) hfold⟩

theorem makeDirectory_of_directory (habove : Takes above)
    (hpath : checkPath (above ++ [last]) = .ok ()) (hlast : last ≠ FilePath.up)
    (hdirectory : t.node? above = some .directory) :
    t.makeDirectory (above ++ [last]) =
      if nameLimit < nameSize last then .error .nameTooLong
      else if (t.node? (above ++ [last])).isSome then .error .alreadyExists
      else .ok (t.insert (above ++ [last]) .directory) := by
  rw [makeDirectory, target_of_directory habove hpath hlast hdirectory]
  split <;> rfl

/-- A directory is had in a directory, be it there already or not, unless its name is too long. -/
theorem ensureDirectory_of_directory (habove : Takes above)
    (hpath : checkPath (above ++ [last]) = .ok ()) (hlast : last ≠ FilePath.up)
    (hdirectory : t.node? above = some .directory)
    (hfile : ∀ content, t.node? (above ++ [last]) ≠ some (.file content)) :
    (Takes (above ++ [last]) ∧ (t.ensureDirectory (above ++ [last])).fault = none ∧
        (t.ensureDirectory (above ++ [last])).tree.node? (above ++ [last]) = some .directory) ∨
      (¬ Takes (above ++ [last]) ∧
        (t.ensureDirectory (above ++ [last])).fault = some .nameTooLong) := by
  have hmake := makeDirectory_of_directory habove hpath hlast hdirectory
  by_cases hsize : nameLimit < nameSize last
  · right
    rw [if_pos hsize] at hmake
    have hnot : ¬ Takes (above ++ [last]) :=
      fun htakes => Nat.not_le.2 hsize (htakes.size last (by simp))
    have hleads : t.leadsToDirectory (above ++ [last]) = false := by
      rw [leadsToDirectory]
      split
      · next l hwalk =>
        have hdown : FilePath.up ∉ above ++ [last] := by
          rw [List.mem_append, List.mem_singleton, not_or]
          exact ⟨habove.down, Ne.symm hlast⟩
        exact absurd ⟨hpath, (eq_of_walk hdown hwalk).2, hdown⟩ hnot
      · rfl
    rw [ensureDirectory, hmake]
    simp only [hleads]
    exact ⟨hnot, rfl⟩
  · left
    have hnames := habove.concat hpath hlast (Nat.not_lt.1 hsize)
    rw [if_neg hsize] at hmake
    cases hnode : t.node? (above ++ [last]) with
    | none =>
      have hparent : t.node? (above ++ [last]).dropLast = some .directory := by
        rwa [List.dropLast_concat]
      rw [hnode, if_neg (by simp)] at hmake
      rw [ensureDirectory, hmake]
      refine ⟨hnames, rfl, node?_insert_self t (by simp) hparent ?_ _⟩
      rw [hnode]
      exact (Option.some_ne_none _).symm
    | some node =>
      have hthere : t.node? (above ++ [last]) = some .directory := by
        cases node with
        | directory => exact hnode
        | file content => exact absurd hnode (hfile content)
      have hleads : t.leadsToDirectory (above ++ [last]) = true := by
        rw [leadsToDirectory, walk_of_isSome hnames (by rw [hthere]; rfl)]
        exact decide_eq_true hthere
      rw [hnode, if_pos (Option.isSome_some)] at hmake
      rw [ensureDirectory, hmake]
      simp only [hleads]
      exact ⟨hnames, rfl, hthere⟩

/-- Parents that are there are left alone. -/
theorem makeUpwards_cons_of_leads {lastFirst : List Text} (h : t.leads lastFirst.reverse) :
    t.makeUpwards (last :: lastFirst) = t.ensureDirectory (lastFirst.reverse ++ [last]) := by
  rw [makeUpwards, if_pos h, List.reverse_cons]
  exact if_pos (.inl rfl)

/-- Parents that are not there are made first. -/
theorem makeUpwards_cons_of_not_leads {lastFirst : List Text} (h : ¬ t.leads lastFirst.reverse) :
    t.makeUpwards (last :: lastFirst) =
      if (t.makeUpwards lastFirst).fault = none ∨
          (t.makeUpwards lastFirst).fault = some .alreadyExists then
        (t.makeUpwards lastFirst).tree.ensureDirectory (lastFirst.reverse ++ [last])
      else t.makeUpwards lastFirst := by
  rw [makeUpwards, if_neg h, List.reverse_cons]

theorem Passable.makeUpwards (h : Passable t names) (lastFirst : List Text) :
    Passable (t.makeUpwards lastFirst).tree names :=
  makeUpwards_induction (P := (Passable · names)) h fun _ _ _ _ hu hmake =>
    hu.grows (grows_makeDirectory hmake)

/-- The induction is on the names from the last to the first, as they are made; what is made on the
way leaves it free. -/
theorem makeUpwards_of_passable {lastFirst : List Text}
    (hpath : checkPath lastFirst.reverse = .ok ()) (hdown : FilePath.up ∉ lastFirst.reverse)
    (hway : Passable t lastFirst.reverse) :
    (Takes lastFirst.reverse ∧ (t.makeUpwards lastFirst).fault = none ∧
        (t.makeUpwards lastFirst).tree.node? lastFirst.reverse = some .directory) ∨
      (¬ Takes lastFirst.reverse ∧ (t.makeUpwards lastFirst).fault = some .nameTooLong) := by
  induction lastFirst with
  | nil => exact .inl ⟨⟨hpath, nofun, hdown⟩, rfl, node?_nil t⟩
  | cons last above ih =>
    rw [List.reverse_cons] at hpath hdown hway ⊢
    have hbefore : above.reverse <+: above.reverse ++ [last] := List.prefix_append ..
    have hlast : last ≠ FilePath.up := fun h => hdown (by simp [h])
    have habove : FilePath.up ∉ above.reverse := fun h => hdown (hbefore.subset h)
    by_cases hleads : t.leads above.reverse
    · obtain ⟨htakes, hthere⟩ := takes_of_leads habove hleads
      rw [makeUpwards_cons_of_leads hleads]
      exact ensureDirectory_of_directory htakes hpath hlast
        ((hway.of_isPrefix hbefore).eq_directory hthere)
        fun content => hway _ content (List.prefix_refl _)
    · rw [makeUpwards_cons_of_not_leads hleads]
      rcases ih (checkPath_of_isPrefix hbefore hpath) habove (hway.of_isPrefix hbefore) with
        ⟨htakes, hfault, hdirectory⟩ | ⟨htakes, hfault⟩
      · rw [if_pos (.inl hfault)]
        exact ensureDirectory_of_directory htakes hpath hlast hdirectory
          fun content => hway.makeUpwards above _ content (List.prefix_refl _)
      · rw [hfault, if_neg (by simp)]
        exact .inr ⟨fun h => htakes (h.of_isPrefix hbefore), hfault⟩

/-- **Whether a directory is made with its parents,** if nothing is in the way: unless a name is too
long. -/
theorem makeDirectories_of_passable (hpath : checkPath names = .ok ())
    (hdown : FilePath.up ∉ names) (hway : Passable t names) :
    (Takes names ∧ (t.makeDirectories names).fault = none ∧
        (t.makeDirectories names).tree.node? names = some .directory) ∨
      (¬ Takes names ∧ (t.makeDirectories names).fault = some .nameTooLong) := by
  have h := @makeUpwards_of_passable t names.reverse
  rw [List.reverse_reverse] at h
  exact h hpath hdown hway

/-! ### Writing -/

/-- A write that puts no file on a way leaves it free. -/
theorem Passable.write (h : Passable t names) {file : List Text} (hdown : FilePath.up ∉ file)
    (hfile : ¬ file <+: names) (content : Bytes) :
    Passable (t.write file content).tree names := by
  intro l other hl
  rcases node?_write_cases t content hdown l with ⟨rfl, -, -⟩ | hsame | ⟨-, hnew, -⟩
  · exact absurd hl hfile
  · rw [hsame]
    exact h l other hl
  · rw [hnew]
    exact nofun

/-- **Whether a write fails,** if nothing is in the way: for nothing but the length of a name. -/
theorem fault_write_of_passable (hpath : checkPath (above ++ [last]) = .ok ())
    (hdown : FilePath.up ∉ above ++ [last]) (hway : Passable t above)
    (hnode : t.node? (above ++ [last]) ≠ some .directory) (content : Bytes) :
    (Takes (above ++ [last]) ∧ (t.write (above ++ [last]) content).fault = none) ∨
      (¬ Takes (above ++ [last]) ∧
        (t.write (above ++ [last]) content).fault = some .nameTooLong) := by
  have hbefore : above <+: above ++ [last] := List.prefix_append ..
  have habove : FilePath.up ∉ above := fun h => hdown (hbefore.subset h)
  have hlast : last ≠ FilePath.up := fun h => hdown (by simp [h])
  rw [write, List.dropLast_concat]
  rcases makeDirectories_of_passable (checkPath_of_isPrefix hbefore hpath) habove hway with
    ⟨htakes, hfault, hdirectory⟩ | ⟨htakes, hfault⟩
  · have hsame : (t.makeDirectories above).tree.node? (above ++ [last]) ≠ some .directory := by
      rw [(grows_makeDirectories t above).node?_eq]
      · exact hnode
      · intro hway
        have hlength := (hway habove).length_le
        rw [List.length_append, List.length_singleton] at hlength
        omega
    rw [hfault]
    by_cases hsize : nameLimit < nameSize last
    · right
      have hreplace : (t.makeDirectories above).tree.replace (above ++ [last]) content =
          .error .nameTooLong := by
        rw [replace, target_of_directory htakes hpath hlast hdirectory, if_pos hsize]
        rfl
      rw [hreplace]
      exact ⟨fun h => Nat.not_le.2 hsize (h.size last (by simp)), rfl⟩
    · left
      have hreplace : (t.makeDirectories above).tree.replace (above ++ [last]) content =
          .ok ((t.makeDirectories above).tree.insert (above ++ [last]) (.file content)) := by
        rw [replace, target_of_directory htakes hpath hlast hdirectory, if_neg hsize]
        exact if_neg hsame
      rw [hreplace]
      exact ⟨htakes.concat hpath hlast (Nat.not_lt.1 hsize), rfl⟩
  · rw [hfault]
    exact .inr ⟨fun h => htakes (h.of_isPrefix hbefore), hfault⟩

end FileTree

end JsonShelf
