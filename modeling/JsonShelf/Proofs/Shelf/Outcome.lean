import JsonShelf.Proofs.Except
import JsonShelf.Shelf

/-!
# What calls on a shelf come to

A call on a shelf asks the file system for the content of a file, works on it as a document, and may
write the new content back. These lemmas tell which of the three an outcome comes from. The errors
are told apart by where they arise: work on a document never fails with an error of the file system,
except that what is missing cannot be read; and reading never fails because something exists.

## Main definitions

* `Error.OfFile`, `Error.OfEncoding` — the errors of the file system, and those of encodings

## Main results

* `Document.not_ofFile_of_write`, `Document.eq_notFound_of_load` — errors in work on a document
* `Shelf.write_eq_or` — a write comes to an error before the tree is changed, or it is a write to
  the tree
-/

namespace JsonShelf

/-- The errors of the file system. -/
def Error.OfFile : Error → Prop
  | .file _ => True
  | _ => False

/-- The errors of encodings and their labels. -/
def Error.OfEncoding : Error → Prop
  | .unencodable _ | .nulInLabel | .unknownEncoding _ => True
  | _ => False

theorem Error.OfEncoding.not_ofFile {e : Error} (h : e.OfEncoding) : ¬ e.OfFile := by
  cases e with
  | unencodable | nulInLabel | unknownEncoding => exact id
  | _ => exact h.elim

/-! ### Errors in documents -/

namespace Document

variable {s : Settings} {file : Option Bytes} {expression label : Text} {value : Json} {e : Error}

theorem ofEncoding_of_checkLabel (h : checkLabel label = .error e) : e.OfEncoding := by
  rw [checkLabel] at h
  split at h
  · cases h
    trivial
  · split at h
    · cases h
      trivial
    · cases h

theorem ofEncoding_of_encodingOf (h : encodingOf label = .error e) : e.OfEncoding := by
  rw [encodingOf] at h
  split at h
  · cases h
  · cases h
    trivial

/-- Every value has a text, so that printing fails for the encoding only. -/
theorem ofEncoding_of_print (h : print s value = .error e) : e.OfEncoding := by
  rcases bind_eq_error_iff.1 h with hlabel | ⟨_, -, h⟩
  · exact ofEncoding_of_checkLabel hlabel
  · rcases bind_eq_error_iff.1 h with hencoding | ⟨e', -, h⟩
    · exact ofEncoding_of_encodingOf hencoding
    · obtain ⟨u, -, rfl⟩ := mapError_eq_error_iff.1 h
      trivial

theorem not_ofFile_of_decode {content : Bytes} (h : decode label content = .error e) :
    ¬ e.OfFile := by
  rcases bind_eq_error_iff.1 h with hlabel | ⟨_, -, h⟩
  · exact (ofEncoding_of_checkLabel hlabel).not_ofFile
  · split at h
    · cases h
    · rcases bind_eq_error_iff.1 h with hencoding | ⟨e', -, h⟩
      · exact (ofEncoding_of_encodingOf hencoding).not_ofFile
      · obtain ⟨u, -, rfl⟩ := mapError_eq_error_iff.1 h
        exact id

theorem not_ofFile_of_read {content : Bytes} (h : read s content = .error e) : ¬ e.OfFile := by
  rcases bind_eq_error_iff.1 h with hdecode | ⟨t, -, htext⟩
  · exact not_ofFile_of_decode hdecode
  · obtain ⟨fault, -, rfl⟩ := mapError_eq_error_iff.1 htext
    cases fault <;> exact id

theorem not_ofFile_of_path (h : path expression = .error e) : ¬ e.OfFile := by
  obtain ⟨fault, -, rfl⟩ := mapError_eq_error_iff.1 h
  cases fault <;> exact id

/-- The file system has no part in a write to a document. -/
theorem not_ofFile_of_write (h : write s file expression value = .error e) : ¬ e.OfFile := by
  have hchange : ∀ document : Json, (do
      let p ← path expression
      if (document.write p value).done then print s (document.write p value).root
      else .error .invalidPath) = .error e → ¬ e.OfFile := by
    intro document h
    rcases bind_eq_error_iff.1 h with hpath | ⟨p, -, h⟩
    · exact not_ofFile_of_path hpath
    · split at h
      · exact (ofEncoding_of_print h).not_ofFile
      · cases h
        exact id
  cases file with
  | none => exact hchange _ h
  | some content =>
    rcases bind_eq_error_iff.1 h with hread | ⟨document, -, h⟩
    · exact not_ofFile_of_read hread
    · exact hchange document h

end Document

/-! ### Errors in reading files -/

namespace FileTree

variable {t : FileTree} {names : List Text}

theorem foldlM_enter_ne_alreadyExists {l : Location} :
    names.foldlM t.enter l ≠ .error .alreadyExists := by
  have henter : ∀ l name, t.enter l name ≠ .error .alreadyExists := by
    intro l name
    rw [enter]
    repeat' split
    all_goals exact nofun
  induction names generalizing l with
  | nil => exact nofun
  | cons name rest ih =>
    rw [List.foldlM_cons]
    intro h
    rcases bind_eq_error_iff.1 h with hstep | ⟨l', -, hrest⟩
    · exact henter l name hstep
    · exact ih hrest

/-- A file is never refused for being there. -/
theorem read_ne_alreadyExists : t.read names ≠ .error .alreadyExists := by
  intro h
  rcases bind_eq_error_iff.1 h with hwalk | ⟨l, -, hnode⟩
  · rcases bind_eq_error_iff.1 hwalk with hpath | ⟨_, -, hfold⟩
    · rw [checkPath] at hpath
      repeat' split at hpath
      all_goals cases hpath
    · exact foldlM_enter_ne_alreadyExists hfold
  · split at hnode <;> cases hnode

end FileTree

namespace Shelf

variable {s : Shelf} {t : FileTree} {file path : Text} {value : Json}

/-- The content of a file is had by reading it, or missing it. -/
theorem read_of_content {content : Option Bytes} (h : s.content t file = .ok content) :
    (∃ bytes, t.read (s.resolve file) = .ok bytes) ∨
      t.read (s.resolve file) = .error .notFound := by
  rw [Shelf.content] at h
  split at h
  · next bytes hread => exact .inl ⟨bytes, hread⟩
  · next hread => exact .inr hread
  · cases h

theorem read_of_content_some {bytes : Bytes} (h : s.content t file = .ok (some bytes)) :
    t.read (s.resolve file) = .ok bytes := by
  rw [Shelf.content] at h
  split at h
  · next bytes' hread =>
    cases h
    exact hread
  · cases h
  · cases h

theorem content_of_read {bytes : Bytes} (h : t.read (s.resolve file) = .ok bytes) :
    s.content t file = .ok (some bytes) := by
  rw [Shelf.content, h]

theorem content_of_read_notFound (h : t.read (s.resolve file) = .error .notFound) :
    s.content t file = .ok none := by
  rw [Shelf.content, h]

theorem read_of_content_error {e : Error} (h : s.content t file = .error e) :
    ∃ fault, e = .file fault ∧ fault ≠ .notFound ∧ t.read (s.resolve file) = .error fault := by
  rw [Shelf.content] at h
  split at h
  · cases h
  · cases h
  · next fault hne hread =>
    cases h
    exact ⟨fault, rfl, hne, hread⟩

/-- A file whose content cannot be had is there, or its name is refused. -/
theorem exists_of_content_eq_error {e : Error} (h : s.content t file = .error e) :
    ∃ fault, e = .file fault ∧ fault ≠ .notFound ∧ fault ≠ .alreadyExists := by
  obtain ⟨fault, rfl, hne, hread⟩ := read_of_content_error h
  refine ⟨fault, rfl, hne, ?_⟩
  rintro rfl
  exact FileTree.read_ne_alreadyExists hread

theorem write_of_document {content : Option Bytes} {bytes : Bytes}
    (hcontent : s.content t file = .ok content)
    (hdocument : Document.write s.settings content path value = .ok bytes) :
    s.write t file path value =
      ⟨(t.write (s.resolve file) bytes).tree,
        (t.write (s.resolve file) bytes).fault.map .file⟩ := by
  rw [write, hcontent]
  simp only [bind, Except.bind, hdocument]

theorem write_of_document_error {content : Option Bytes} {e : Error}
    (hcontent : s.content t file = .ok content)
    (hdocument : Document.write s.settings content path value = .error e) :
    s.write t file path value = ⟨t, some e⟩ := by
  rw [write, hcontent]
  simp only [bind, Except.bind, hdocument]

/-- **How far a write gets.** It comes to an error before it changes the tree, and then what is
missing or there already is not the reason; or it is a write to the tree. -/
theorem write_eq_or (s : Shelf) (t : FileTree) (file path : Text) (value : Json) :
    (∃ e, s.write t file path value = ⟨t, some e⟩ ∧ e ≠ .file .notFound ∧
        e ≠ .file .alreadyExists) ∨
      ∃ content bytes, s.content t file = .ok content ∧
        Document.write s.settings content path value = .ok bytes := by
  cases hchanged : (s.content t file >>= (Document.write s.settings · path value)) with
  | error e =>
    left
    refine ⟨e, ?_, ?_⟩
    · rw [write, hchanged]
    · rcases bind_eq_error_iff.1 hchanged with hcontent | ⟨content, -, hwrite⟩
      · obtain ⟨fault, rfl, hfound, hexists⟩ := exists_of_content_eq_error hcontent
        exact ⟨fun h => hfound (Error.file.inj h), fun h => hexists (Error.file.inj h)⟩
      · have hfile := Document.not_ofFile_of_write hwrite
        exact ⟨fun h => hfile (h ▸ trivial), fun h => hfile (h ▸ trivial)⟩
  | ok bytes =>
    obtain ⟨content, hcontent, hbytes⟩ := bind_eq_ok_iff.1 hchanged
    exact .inr ⟨content, bytes, hcontent, hbytes⟩

end Shelf

end JsonShelf
