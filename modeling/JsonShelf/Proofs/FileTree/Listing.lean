import JsonShelf.Proofs.FilePath.Names
import JsonShelf.Proofs.FileTree.Access
import Mathlib.Data.List.Nodup

/-!
# What is listed of a tree

A listing shows files and directories by the texts of their locations. In a tree whose directories
have every name only once, it shows exactly what is there: nothing twice, nothing that a look-up
would not find, and nothing without the directory that it is in. These trees are what one gets by
putting nodes under proper names, starting from an empty one.

## Main definitions

* `FileTree.Proper` — trees whose directories have every name once
* `FileTree.WellListed` — everything is listed once, and below a directory that is listed

## Main results

* `FileTree.Proper.insert`, `FileTree.Proper.write` — trees stay proper
* `FileTree.mem_entries_iff`, `FileTree.mem_listing_iff` — what is listed is what is there
* `FileTree.Proper.wellListed` — the listing of a proper tree
-/

namespace JsonShelf

namespace FileTree

open FilePath

variable {t : FileTree} {l : Location} {node : Node} {name : Text}

/-- The names in a directory are names, and no two are the same; and so on below. -/
def Proper : FileTree → Prop
  | empty => True
  | file name _ others => IsName name ∧ others.node? [name] = none ∧ others.Proper
  | directory name below others =>
    IsName name ∧ others.node? [name] = none ∧ below.Proper ∧ others.Proper

/-- A node under proper names keeps a tree proper. -/
theorem Proper.insert (h : t.Proper) (hl : ∀ name ∈ l, IsName name)
    (hnode : t.node? l ≠ some .directory) (node : Node) : (t.insert l node).Proper := by
  fun_induction FileTree.insert t l node with
  | case1 => exact h
  | case2 name node =>
    have hname := hl name List.mem_cons_self
    cases node with
    | directory => exact ⟨hname, rfl, trivial, trivial⟩
    | file content => exact ⟨hname, rfl, trivial⟩
  | case3 => exact h
  | case4 content others name node =>
    obtain ⟨hname, hfresh, hothers⟩ := h
    cases node with
    | directory => exact ⟨hname, hfresh, trivial, hothers⟩
    | file content => exact ⟨hname, hfresh, hothers⟩
  | case5 => exact h
  | case6 n content others name rest node hne ih =>
    obtain ⟨hname, hfresh, hothers⟩ := h
    rw [node?_file_of_ne hne] at hnode
    refine ⟨hname, ?_, ih hothers hl hnode⟩
    rw [node?_insert_of_ne others (fun he => hne (List.cons.inj he).1) hnode, hfresh]
  | case7 below others name rest node ih =>
    obtain ⟨hname, hfresh, hbelow, hothers⟩ := h
    rw [node?_directory_self] at hnode
    exact ⟨hname, hfresh, ih hbelow (fun n hn => hl n (List.mem_cons_of_mem _ hn)) hnode, hothers⟩
  | case8 n below others name rest node hne ih =>
    obtain ⟨hname, hfresh, hbelow, hothers⟩ := h
    rw [node?_directory_of_ne hne] at hnode
    refine ⟨hname, ?_, hbelow, ih hothers hl hnode⟩
    rw [node?_insert_of_ne others (fun he => hne (List.cons.inj he).1) hnode, hfresh]

/-- Everything in a proper tree is at names. -/
theorem Proper.isName (h : t.Proper) (hl : (t.node? l).isSome) : ∀ name ∈ l, IsName name := by
  fun_induction node? t l with
  | case1 => exact List.forall_mem_nil _
  | case2 => cases hl
  | case3 => exact List.forall_mem_singleton.2 h.1
  | case4 => cases hl
  | case5 n content others name rest hne ih => exact ih h.2.2 hl
  | case6 below others name rest ih => exact List.forall_mem_cons.2 ⟨h.1, ih h.2.2.1 hl⟩
  | case7 n below others name rest hne ih => exact ih h.2.2.2 hl

/-- Something is made at names only, if it is asked for by names. -/
theorem Proper.isName_target (h : t.Proper) {names : List Text}
    (hnames : ∀ name ∈ names, IsName name) (htarget : t.target names = .ok (some l)) :
    ∀ name ∈ l, IsName name := by
  obtain ⟨above, last, hlast, -, -, hdirectory, -, -, rfl⟩ := exists_of_target htarget
  intro name hname
  rcases List.mem_append.1 hname with hname | hname
  · exact h.isName (by rw [hdirectory]; rfl) name hname
  · rw [List.mem_singleton.1 hname]
    exact hnames last (List.mem_of_getLast? hlast)

theorem Proper.makeDirectories (h : t.Proper) {names : List Text}
    (hnames : ∀ name ∈ names, IsName name) : (t.makeDirectories names).tree.Proper := by
  refine makeDirectories_induction h ?_
  intro u u' p hp hu hmake
  obtain ⟨l, htarget, hnone, rfl⟩ := exists_of_makeDirectory hmake
  have hl := hu.isName_target (fun name hname => hnames name (hp.subset hname)) htarget
  exact hu.insert hl (by rw [hnone]; exact nofun) _

/-- Writing to names keeps a tree proper. -/
theorem Proper.write (h : t.Proper) {names : List Text} (hnames : ∀ name ∈ names, IsName name)
    (content : Bytes) : (t.write names content).tree.Proper := by
  have hparents : (t.makeDirectories names.dropLast).tree.Proper :=
    h.makeDirectories fun name hname => hnames name (List.dropLast_subset names hname)
  rcases write_cases t names content with ⟨-, htree⟩ | ⟨-, hreplace⟩
  · rw [htree]
    exact hparents
  · obtain ⟨l, htarget, hnode, htree⟩ := exists_of_replace hreplace
    rw [htree]
    exact hparents.insert (hparents.isName_target hnames htarget) hnode _

/-! ### Entries -/

/-- Where a name is not, nothing is below it either. -/
theorem ne_of_node?_eq_none (h : t.node? [name] = none) {first : Text} {rest : Location}
    (hthere : t.node? (first :: rest) = some node) : name ≠ first := by
  rintro rfl
  by_cases hrest : rest = []
  · rw [hrest, h] at hthere
    cases hthere
  · have hdirectory : t.node? [name] = some .directory :=
      node?_of_append (m := rest) (by rw [List.singleton_append, hthere]; rfl) hrest
    rw [h] at hdirectory
    cases hdirectory

/-- **Entries are what is there,** apart from the root. -/
theorem mem_entries_iff (h : t.Proper) :
    (l, node) ∈ t.entries ↔ l ≠ [] ∧ t.node? l = some node := by
  induction t generalizing l with
  | empty => cases l <;> simp [entries]
  | file n content others ih =>
    obtain ⟨-, hfresh, hothers⟩ := h
    rw [entries, List.mem_cons, ih hothers]
    constructor
    · rintro (⟨⟨⟩⟩ | ⟨hl, hnode⟩)
      · exact ⟨List.cons_ne_nil _ _, node?_cons_self n others (.file content)⟩
      · refine ⟨hl, ?_⟩
        obtain ⟨first, rest, rfl⟩ := List.exists_cons_of_ne_nil hl
        rwa [node?_file_of_ne (ne_of_node?_eq_none hfresh hnode)]
    · rintro ⟨hl, hnode⟩
      obtain ⟨first, rest, rfl⟩ := List.exists_cons_of_ne_nil hl
      by_cases hn : n = first
      · subst hn
        by_cases hrest : rest = []
        · rw [hrest, show (file n content others).node? [n] = some (.file content) from
            node?_cons_self n others (.file content)] at hnode
          rw [hrest, Option.some_inj.1 hnode]
          exact .inl rfl
        · rw [node?_file_below n content others hrest] at hnode
          cases hnode
      · rw [node?_file_of_ne hn] at hnode
        exact .inr ⟨hl, hnode⟩
  | directory n below others ihb iho =>
    obtain ⟨-, hfresh, hbelow, hothers⟩ := h
    rw [entries, List.mem_append, List.mem_cons, List.mem_map, iho hothers]
    constructor
    · rintro ((⟨⟨⟩⟩ | ⟨⟨m, node⟩, hentry, ⟨⟩⟩) | ⟨hl, hnode⟩)
      · refine ⟨List.cons_ne_nil _ _, ?_⟩
        rw [node?_directory_self, node?_nil]
      · refine ⟨List.cons_ne_nil _ _, ?_⟩
        rw [node?_directory_self]
        exact ((ihb hbelow).1 hentry).2
      · refine ⟨hl, ?_⟩
        obtain ⟨first, rest, rfl⟩ := List.exists_cons_of_ne_nil hl
        rwa [node?_directory_of_ne (ne_of_node?_eq_none hfresh hnode)]
    · rintro ⟨hl, hnode⟩
      obtain ⟨first, rest, rfl⟩ := List.exists_cons_of_ne_nil hl
      by_cases hn : n = first
      · subst hn
        rw [node?_directory_self] at hnode
        by_cases hrest : rest = []
        · rw [hrest, node?_nil] at hnode
          rw [hrest, ← Option.some_inj.1 hnode]
          exact .inl (.inl rfl)
        · exact .inl (.inr ⟨(rest, node), (ihb hbelow).2 ⟨hrest, hnode⟩, rfl⟩)
      · rw [node?_directory_of_ne hn] at hnode
        exact .inr ⟨hl, hnode⟩

theorem isSome_of_mem_entries (h : t.Proper) (hl : l ∈ t.entries.map Prod.fst) :
    l ≠ [] ∧ (t.node? l).isSome := by
  obtain ⟨⟨l, node⟩, hentry, rfl⟩ := List.mem_map.1 hl
  obtain ⟨hne, hnode⟩ := (mem_entries_iff h).1 hentry
  exact ⟨hne, by rw [hnode]; rfl⟩

/-- No two entries are at the same location. -/
theorem nodup_entries (h : t.Proper) : (t.entries.map Prod.fst).Nodup := by
  induction t with
  | empty => exact List.nodup_nil
  | file n content others ih =>
    obtain ⟨-, hfresh, hothers⟩ := h
    rw [entries, List.map_cons, List.nodup_cons]
    refine ⟨?_, ih hothers⟩
    intro hmem
    have hthere := (isSome_of_mem_entries hothers hmem).2
    rw [hfresh] at hthere
    cases hthere
  | directory n below others ihb iho =>
    obtain ⟨-, hfresh, hbelow, hothers⟩ := h
    have hmap : (below.entries.map fun entry => (n :: entry.1, entry.2)).map Prod.fst =
        (below.entries.map Prod.fst).map (n :: ·) := by
      rw [List.map_map, List.map_map]
      rfl
    rw [entries, List.map_append, List.map_cons, hmap, List.nodup_append']
    refine ⟨List.nodup_cons.2 ⟨?_, ?_⟩, iho hothers, ?_⟩
    · intro hmem
      obtain ⟨m, hm, hcons⟩ := List.mem_map.1 hmem
      exact (isSome_of_mem_entries hbelow hm).1 (List.cons.inj hcons).2
    · exact (ihb hbelow).map List.cons_injective
    · have hapart : ∀ rest, n :: rest ∉ others.entries.map Prod.fst := by
        intro rest hmem
        obtain ⟨node, hnode⟩ := Option.isSome_iff_exists.1 (isSome_of_mem_entries hothers hmem).2
        exact ne_of_node?_eq_none hfresh hnode rfl
      intro m hm hmem
      rcases List.mem_cons.1 hm with rfl | hm
      · exact hapart [] hmem
      · obtain ⟨rest, -, rfl⟩ := List.mem_map.1 hm
        exact hapart rest hmem

/-! ### Listing -/

variable {path : Text}

/-- **What is listed is what is there,** under the text that its names make. -/
theorem mem_listing_iff (h : t.Proper) :
    (path, node) ∈ t.listing ↔
      ∃ l, l ≠ [] ∧ t.node? l = some node ∧ path = [slash].intercalate l := by
  rw [listing, List.mem_mergeSort, List.mem_map]
  constructor
  · rintro ⟨⟨l, node⟩, hentry, ⟨⟩⟩
    obtain ⟨hl, hnode⟩ := (mem_entries_iff h).1 hentry
    exact ⟨l, hl, hnode, rfl⟩
  · rintro ⟨l, hl, hnode, rfl⟩
    exact ⟨(l, node), (mem_entries_iff h).2 ⟨hl, hnode⟩, rfl⟩

/-- The location of what is listed under a path. -/
theorem node?_of_mem_listing (h : t.Proper) (hpath : (path, node) ∈ t.listing) :
    t.node? (path.splitOn slash) = some node := by
  obtain ⟨l, hl, hnode, rfl⟩ := (mem_listing_iff h).1 hpath
  have hnames := h.isName (by rw [hnode]; rfl)
  rwa [List.splitOn_intercalate slash (fun name hname => (hnames name hname).slash_not_mem) hl]

/-- Everything is listed once, and what is not right below the root is listed below a directory. -/
structure WellListed (t : FileTree) : Prop where
  once : (t.listing.map Prod.fst).Nodup
  parent : ∀ above name node, slash ∉ name → (above ++ slash :: name, node) ∈ t.listing →
    (above, .directory) ∈ t.listing

/-- **A proper tree is well listed.** -/
theorem Proper.wellListed (h : t.Proper) : t.WellListed := by
  constructor
  · -- Sorting does not matter, and neither does it to go from locations to texts.
    have hperm : (t.listing.map Prod.fst).Perm
        ((t.entries.map Prod.fst).map [slash].intercalate) := by
      rw [List.map_map, listing]
      refine ((List.mergeSort_perm _ _).map Prod.fst).trans ?_
      rw [List.map_map]
      rfl
    rw [hperm.nodup_iff]
    refine (nodup_entries h).map_on ?_
    intro l hl m hm hsame
    obtain ⟨hne, hthere⟩ := isSome_of_mem_entries h hl
    obtain ⟨hne', hthere'⟩ := isSome_of_mem_entries h hm
    exact intercalate_inj (h.isName hthere) (h.isName hthere') hne hne' hsame
  · intro above name node hname hmem
    have hnode := node?_of_mem_listing h hmem
    rw [List.splitOn_append_cons_self, List.splitOn_eq_singleton hname] at hnode
    refine (mem_listing_iff h).2 ⟨above.splitOn slash, List.splitOn_ne_nil _ _, ?_, ?_⟩
    · exact node?_of_append (by rw [hnode]; rfl) (List.cons_ne_nil _ _)
    · exact (List.intercalate_splitOn slash).symm

end FileTree

end JsonShelf
