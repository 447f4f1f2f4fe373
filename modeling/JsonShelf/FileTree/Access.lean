import JsonShelf.FileTree.Basic

/-!
# Reading and changing file trees

The operations on files and directories that documents need. Making directories goes from the top
down, and what was made before a fault stays, so operations that change a tree tell both the tree
they leave and the fault, if there is one.

A directory that is asked for may be there already. Its name may also be one that cannot be made,
such as a double dot, as long as the names lead to a directory afterwards; this is how asking for
`x/..` comes to make `x`.

Any number of parents can be made at once, although machines that nest calls to a certain depth only
fail when more of them are missing.

## Main definitions

* `FileTree.read` — the content of a file
* `FileTree.makeDirectory`, `FileTree.makeDirectories` — one directory, and one with its parents
* `FileTree.replace`, `FileTree.write` — the content of a file, and with its parents
* `FileTree.Change` — a tree that is left and a fault
-/

namespace JsonShelf

namespace FileTree

/-- The content of the file that names lead to. -/
def read (t : FileTree) (names : List Text) : Except FileFault Bytes := do
  let l ← t.walk names
  match t.node? l with
  | some (.file content) => .ok content
  | _ => .error .isDirectory

/-- The location where the last name would be made, if it is a name at all; the root and a double
dot are directories that are there. -/
def target (t : FileTree) (names : List Text) : Except FileFault (Option Location) :=
  match names.getLast? with
  | none => .ok none
  | some last => do
    checkPath names
    let l ← t.walk names.dropLast
    if t.node? l ≠ some .directory then .error .notDirectory
    else if last = FilePath.up then .ok none
    else if nameLimit < nameSize last then .error .nameTooLong
    else .ok (some (l ++ [last]))

/-- Make the directory that the last name stands for. -/
def makeDirectory (t : FileTree) (names : List Text) : Except FileFault FileTree := do
  match ← t.target names with
  | none => .error .alreadyExists
  | some l => if (t.node? l).isSome then .error .alreadyExists else .ok (t.insert l .directory)

/-- Set the content of the file that the last name stands for, and make the file if there is
none. -/
def replace (t : FileTree) (names : List Text) (content : Bytes) : Except FileFault FileTree := do
  match ← t.target names with
  | none => .error .isDirectory
  | some l =>
    if t.node? l = some .directory then .error .isDirectory
    else .ok (t.insert l (.file content))

/-- The tree that an operation leaves, and why it failed, if it did. -/
structure Change where
  tree : FileTree
  fault : Option FileFault
deriving DecidableEq

/-- Make the directory that the last name stands for, unless the names lead to one already. -/
def ensureDirectory (t : FileTree) (names : List Text) : Change :=
  match t.makeDirectory names with
  | .ok t' => ⟨t', none⟩
  | .error fault => ⟨t, if t.leadsToDirectory names then none else some fault⟩

/-- Make a directory with all its parents; its names are given from the last to the first. Parents
are made first unless they are there. That a parent is there after all, be it as a file, is left for
the directory itself to find out. -/
def makeUpwards (t : FileTree) : (lastFirst : List Text) → Change
  | [] => ⟨t, none⟩
  | last :: above =>
    let parents : Change :=
      if t.leads above.reverse then ⟨t, none⟩ else t.makeUpwards above
    if parents.fault = none ∨ parents.fault = some .alreadyExists then
      parents.tree.ensureDirectory (last :: above).reverse
    else parents

/-- Make a directory with all its parents. -/
def makeDirectories (t : FileTree) (names : List Text) : Change := t.makeUpwards names.reverse

/-- Set the content of a file, with all its parents. -/
def write (t : FileTree) (names : List Text) (content : Bytes) : Change :=
  let parents := t.makeDirectories names.dropLast
  match parents.fault with
  | some _ => parents
  | none =>
    match parents.tree.replace names content with
    | .ok t' => ⟨t', none⟩
    | .error fault => ⟨parents.tree, some fault⟩

end FileTree

end JsonShelf
