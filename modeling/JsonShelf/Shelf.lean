import JsonShelf.Document
import JsonShelf.FileTree.Access

/-!
# Shelves of documents

A shelf keeps documents as the files of a tree, below a base directory. File names are seen from
the base; an absolute name leaves it, and so may one with double dots. The base need not exist: it
is made together with the other parents when the first document is written.

A write reads first and changes the tree last, so only a fault of the file system can leave
something behind when it fails, and that is nothing but directories.

## Main definitions

* `Shelf` — a base directory and how documents are stored
* `Shelf.load`, `Shelf.write` — read and write a document at a path
-/

namespace JsonShelf

/-- A base directory with settings for the documents below it. -/
structure Shelf where
  /-- The directory that file names are seen from. -/
  base : FilePath
  /-- How documents are stored. -/
  settings : Settings
deriving DecidableEq

namespace Shelf

/-- The names that lead from the root of the tree to a file. -/
def resolve (s : Shelf) (file : Text) : List Text := (s.base.join (.ofText file)).names

/-- The content of a file, or none if it is missing. -/
def content (s : Shelf) (t : FileTree) (file : Text) : Except Error (Option Bytes) :=
  match t.read (s.resolve file) with
  | .ok bytes => .ok (some bytes)
  | .error .notFound => .ok none
  | .error fault => .error (.file fault)

/-- The value of a document at a path. -/
def load (s : Shelf) (t : FileTree) (file path : Text) : Except Error Json := do
  let content ← s.content t file
  Document.load s.settings content path

/-- The tree that a write leaves, and why it failed, if it did. -/
structure Change where
  tree : FileTree
  error : Option Error
deriving DecidableEq

/-- Put a value into a document at a path. -/
def write (s : Shelf) (t : FileTree) (file path : Text) (value : Json) : Change :=
  let changed := do
    let content ← s.content t file
    Document.write s.settings content path value
  match changed with
  | .error e => ⟨t, some e⟩
  | .ok bytes =>
    let change := t.write (s.resolve file) bytes
    ⟨change.tree, change.fault.map .file⟩

end Shelf

end JsonShelf
