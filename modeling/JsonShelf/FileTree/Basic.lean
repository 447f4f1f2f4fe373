import JsonShelf.Encoding.Utf8
import JsonShelf.FilePath
import JsonShelf.FileTree.Fault

/-!
# File trees

A file tree is what is in a directory: files, and directories with what is below them. There are no
links. Every file and directory is at a location, which is the list of names that leads there. Names
are followed one by one, as a file system does it: every name is looked up in the directory reached
so far, so a way through a file or through something that is missing ends there, even if it would
turn back with a double dot right away. The root is its own parent.

Before any name is followed, all of them together are looked at as one path, which file systems
refuse if it is too long or holds a NUL. A path counts as it is written, so names that turn back
make it longer, and the way to the root is a part of it.

Names are meant to be Unicode, and everything said here of file systems is about such names. Half of
a surrogate pair has no bytes in UTF-8: systems refuse a name with one, or take some of these halves
for single bytes that are no UTF-8. Neither is described here; a name with such a half is treated as
any other, with three bytes for the half.

## Main definitions

* `FileTree`, `FileTree.node?` — trees, and what is at a location
* `FileTree.insert` — a tree with one more file or directory
* `FileTree.checkPath` — whether file systems take names as one path
* `FileTree.walk` — the location that names lead to
* `FileTree.listing` — everything in a tree, in order

## Main results

* `FileTree.node?_insert_self`, `FileTree.node?_insert_of_ne` — what is where after an insertion
-/

namespace JsonShelf

/-- What is in a directory, as a chain of entries. -/
inductive FileTree
  /-- The end of the chain; on its own, an empty directory. -/
  | empty
  /-- A file, and the other entries. -/
  | file (name : Text) (content : Bytes) (others : FileTree)
  /-- A directory with what is below it, and the other entries. -/
  | directory (name : Text) (below others : FileTree)
deriving DecidableEq

namespace FileTree

/-- The names that lead from the root to a file or directory. -/
abbrev Location := List Text

/-- What is at a location. -/
inductive Node
  | directory
  | file (content : Bytes)
deriving DecidableEq

/-- What is at a location; the root is a directory. -/
def node? : FileTree → Location → Option Node
  | _, [] => some .directory
  | empty, _ :: _ => none
  | file n content others, name :: rest =>
    if n = name then (if rest = [] then some (.file content) else none)
    else others.node? (name :: rest)
  | directory n below others, name :: rest =>
    if n = name then below.node? rest else others.node? (name :: rest)

/-- Entries with one more in front: a file, or a directory that is still empty. -/
def cons (name : Text) (others : FileTree) : Node → FileTree
  | .file content => file name content others
  | .directory => directory name empty others

/-- Put a node at a location below directories that are there. A directory is not replaced. -/
def insert : FileTree → Location → Node → FileTree
  | t, [], _ => t
  | empty, name :: rest, node => if rest = [] then cons name empty node else empty
  | file n content others, name :: rest, node =>
    if n = name then (if rest = [] then cons n others node else file n content others)
    else file n content (others.insert (name :: rest) node)
  | directory n below others, name :: rest, node =>
    if n = name then directory n (below.insert rest node) others
    else directory n below (others.insert (name :: rest) node)

@[simp] theorem node?_nil (t : FileTree) : t.node? [] = some .directory := by
  cases t <;> rfl

@[simp] theorem node?_empty (name : Text) (rest : Location) :
    empty.node? (name :: rest) = none := rfl

@[simp] theorem node?_directory_self (name : Text) (below others : FileTree) (rest : Location) :
    (directory name below others).node? (name :: rest) = below.node? rest := by
  simp [node?]

theorem node?_directory_of_ne {n name : Text} (h : n ≠ name) (below others : FileTree)
    (rest : Location) :
    (directory n below others).node? (name :: rest) = others.node? (name :: rest) := by
  simp [node?, h]

theorem node?_file_of_ne {n name : Text} (h : n ≠ name) (content : Bytes) (others : FileTree)
    (rest : Location) :
    (file n content others).node? (name :: rest) = others.node? (name :: rest) := by
  simp [node?, h]

/-- Nothing is below a file. -/
theorem node?_file_below (name : Text) (content : Bytes) (others : FileTree) {rest : Location}
    (h : rest ≠ []) : (file name content others).node? (name :: rest) = none := by
  simp [node?, h]

theorem node?_cons_self (name : Text) (others : FileTree) (node : Node) :
    (cons name others node).node? [name] = some node := by
  cases node <;> simp [cons, node?]

theorem node?_cons_of_ne {n name : Text} (h : n ≠ name) (others : FileTree) (node : Node)
    (rest : Location) :
    (cons n others node).node? (name :: rest) = others.node? (name :: rest) := by
  cases node with
  | directory => exact node?_directory_of_ne h ..
  | file content => exact node?_file_of_ne h ..

/-- Nothing is below a node that has just been made. -/
theorem node?_cons_below (name : Text) (others : FileTree) (node : Node) {rest : Location}
    (h : rest ≠ []) : (cons name others node).node? (name :: rest) = none := by
  obtain ⟨next, rest, rfl⟩ := List.exists_cons_of_ne_nil h
  cases node with
  | directory => exact node?_directory_self ..
  | file content => exact node?_file_below _ _ _ h

/-- A node is there after it has been put below a directory. -/
theorem node?_insert_self (t : FileTree) {l : Location} (hl : l ≠ [])
    (hparent : t.node? l.dropLast = some .directory) (hnode : t.node? l ≠ some .directory)
    (node : Node) : (t.insert l node).node? l = some node := by
  fun_induction insert t l node with
  | case1 => exact absurd rfl hl
  | case2 => exact node?_cons_self ..
  | case3 name rest node h => simp [List.dropLast_cons_of_ne_nil h] at hparent
  | case4 => exact node?_cons_self ..
  | case5 content others name rest node h =>
    simp [List.dropLast_cons_of_ne_nil h, node?] at hparent
  | case6 n content others name rest node h ih =>
    rw [node?_file_of_ne h] at hnode ⊢
    refine ih hl ?_ hnode
    cases rest with
    | nil => exact node?_nil _
    | cons next rest => exact hparent ▸ (node?_file_of_ne h ..).symm
  | case7 below others name rest node ih =>
    by_cases h : rest = []
    · simp [h] at hnode
    rw [List.dropLast_cons_of_ne_nil h, node?_directory_self] at hparent
    rw [node?_directory_self] at hnode ⊢
    exact ih h hparent hnode
  | case8 n below others name rest node h ih =>
    rw [node?_directory_of_ne h] at hnode ⊢
    refine ih hl ?_ hnode
    cases rest with
    | nil => exact node?_nil _
    | cons next rest => exact hparent ▸ (node?_directory_of_ne h ..).symm

/-- A node that is put somewhere changes nothing elsewhere, unless it replaces a directory. -/
theorem node?_insert_of_ne (t : FileTree) {l m : Location} (hne : m ≠ l)
    (hnode : t.node? l ≠ some .directory) (node : Node) :
    (t.insert l node).node? m = t.node? m := by
  cases m with
  | nil => rw [node?_nil, node?_nil]
  | cons other m =>
  fun_induction insert t l node generalizing other m with
  | case1 => rfl
  | case2 name node =>
    by_cases h : name = other
    · subst h; exact node?_cons_below _ _ _ fun e => hne (by rw [e])
    · exact node?_cons_of_ne h ..
  | case3 => rfl
  | case4 content others name node =>
    by_cases h : name = other
    · subst h
      have hm : m ≠ [] := fun e => hne (by rw [e])
      rw [node?_cons_below _ _ _ hm, node?_file_below _ _ _ hm]
    · rw [node?_cons_of_ne h, node?_file_of_ne h]
  | case5 => rfl
  | case6 n content others name rest node h ih =>
    rw [node?_file_of_ne h] at hnode
    by_cases ho : n = other
    · simp [node?, ho]
    · rw [node?_file_of_ne ho, node?_file_of_ne ho, ih hnode other m hne]
  | case7 below others name rest node ih =>
    rw [node?_directory_self] at hnode
    by_cases ho : name = other
    · subst ho
      rw [node?_directory_self, node?_directory_self]
      cases m with
      | nil => rw [node?_nil, node?_nil]
      | cons next m => exact ih hnode next m fun e => hne (by rw [e])
    · rw [node?_directory_of_ne ho, node?_directory_of_ne ho]
  | case8 n below others name rest node h ih =>
    rw [node?_directory_of_ne h] at hnode
    by_cases ho : n = other
    · subst ho
      rw [node?_directory_self, node?_directory_self]
    · rw [node?_directory_of_ne ho, node?_directory_of_ne ho, ih hnode other m hne]

/-! ### Following names -/

/-- The longest name, in bytes of UTF-8. -/
def nameLimit : Nat := 255

/-- The length of a name in bytes of UTF-8, for names in Unicode. -/
def nameSize : Text → Nat
  | [] => 0
  | c :: rest => Encoding.Utf8.size c + nameSize rest

/-- The longest path, in bytes of UTF-8. -/
def pathLimit : Nat := 4095

/-- The bytes of a path that lead to the root. A tree does not tell where its root is; sixteen bytes
are those of a working directory that is made for one run, with a name of eleven characters
below `/tmp`. Only what is said of single paths depends on the number. -/
def rootSize : Nat := 16

/-- The length of the path that names make, in bytes of UTF-8. Every name follows a slash. -/
def pathSize : List Text → Nat
  | [] => rootSize
  | name :: rest => nameSize name + 1 + pathSize rest

/-- File systems take a path of Unicode names if no name holds a NUL and it is not too long. -/
def checkPath (names : List Text) : Except FileFault Unit :=
  if ∃ name ∈ names, Text.HasNul name then .error .nulInName
  else if pathLimit < pathSize names then .error .nameTooLong
  else .ok ()

/-- The location that one name leads to. -/
def enter (t : FileTree) (l : Location) (name : Text) : Except FileFault Location :=
  if t.node? l ≠ some .directory then .error .notDirectory
  else if name = FilePath.up then .ok l.dropLast
  else if nameLimit < nameSize name then .error .nameTooLong
  else if (t.node? (l ++ [name])).isSome then .ok (l ++ [name])
  else .error .notFound

/-- The location that names lead to from the root. -/
def walk (t : FileTree) (names : List Text) : Except FileFault Location := do
  checkPath names
  names.foldlM t.enter []

/-- Whether names lead somewhere. -/
def leads (t : FileTree) (names : List Text) : Bool := (t.walk names).isOk

/-- Whether names lead to a directory. -/
def leadsToDirectory (t : FileTree) (names : List Text) : Bool :=
  match t.walk names with
  | .ok l => t.node? l = some .directory
  | .error _ => false

/-! ### Listing -/

/-- The order of texts by code points. -/
def textLe : Text → Text → Bool
  | [], _ => true
  | _ :: _, [] => false
  | c :: s, d :: t => if c = d then textLe s t else c.val < d.val

/-- Everything in a tree, by location. -/
def entries : FileTree → List (Location × Node)
  | empty => []
  | file name content others => ([name], .file content) :: others.entries
  | directory name below others =>
    ([name], .directory) :: below.entries.map (fun entry => (name :: entry.1, entry.2)) ++
      others.entries

/-- Everything below the root, by the text of its location and ordered by it. -/
def listing (t : FileTree) : List (Text × Node) :=
  (t.entries.map fun entry => ([FilePath.slash].intercalate entry.1, entry.2)).mergeSort
    fun a b => textLe a.1 b.1

end FileTree

end JsonShelf
