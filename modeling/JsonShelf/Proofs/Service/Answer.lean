import JsonShelf.Proofs.FilePath.Names
import JsonShelf.Proofs.FileTree.OpenWay
import JsonShelf.Proofs.Shelf.Outcome
import JsonShelf.Service.Basic

/-!
# What requests do to the tree

Most requests leave the tree as it is. The others are puts that get as far as the file: their body
has a value, their file name is allowed, the document that they find can be read, and the changed
one can be printed. What they do then is nothing but a write to the tree, and they are answered 204
exactly if it does not fail.

What does not get as far is refused, or it is an internal error. Neither ever has a file behind it
that is missing or that is there already.

## Main definitions

* `Service.location` — where the file of a document is
* `Service.Failure.Internal` — what may be behind an internal error
* `Service.Writes` — a request that gets as far as the file

## Main results

* `Service.put_eq_or` — how far a put gets
* `Service.answer_cases` — a request leaves the tree as it is or writes to a file
-/

namespace JsonShelf

namespace Service

variable {s : Service} {t : FileTree} {r : Request}

/-! ### Statuses -/

@[simp] theorem Response.status_refusal (status : Nat) (detail : Text) :
    (refusal status detail).status = status := rfl

@[simp] theorem Response.status_badFile : badFile.status = 400 := rfl

@[simp] theorem Response.status_internalError (failure : Failure) :
    (internalError failure).status = 500 := rfl

theorem Response.status_ofError_ne (e : Error) : (ofError e).status ≠ 204 := by
  rw [ofError, refusal?.eq_def]
  split
  · exact nofun
  all_goals simp

theorem Response.status_ofBodyError_ne (e : Body.ReadError) : (ofBodyError e).status ≠ 204 := by
  cases e <;> simp [ofBodyError]

/-! ### Failures -/

/-- What may be behind an internal error. Files that are missing or in the way, malformed documents
and bodies, bytes that are no text, and paths that lead nowhere are not among it. -/
inductive Failure.Internal : Failure → Prop
  | notFinite : Internal .notFinite
  | nameTooLong : Internal (.error (.file .nameTooLong))
  | nulInName : Internal (.error (.file .nulInName))
  | tooManyDigits (count : Nat) : Internal (.error (.tooManyDigits count))
  | unencodable (u : Encoding.Unencodable) : Internal (.error (.unencodable u))
  | nulInLabel : Internal (.error .nulInLabel)
  | unknownEncoding (label : Text) : Internal (.error (.unknownEncoding label))

/-- All failures behind a response are internal ones. -/
def Response.FailsInternally (response : Response) : Prop :=
  ∀ failure, response.failure = some failure → failure.Internal

theorem Response.failsInternally_of_none {response : Response} (h : response.failure = none) :
    response.FailsInternally := by
  intro failure hfailure
  rw [h] at hfailure
  cases hfailure

theorem Response.failsInternally_internalError {failure : Failure} (h : failure.Internal) :
    (internalError failure).FailsInternally := by
  intro other hother
  cases hother
  exact h

/-- Errors that are refused have no failure behind them; of the others, two never come up. -/
theorem Response.failsInternally_ofError {e : Error} (hfound : e ≠ .file .notFound)
    (hexists : e ≠ .file .alreadyExists) : (ofError e).FailsInternally := by
  cases e with
  | file fault =>
    cases fault with
    | notFound => exact absurd rfl hfound
    | alreadyExists => exact absurd rfl hexists
    | notDirectory => exact failsInternally_of_none rfl
    | isDirectory => exact failsInternally_of_none rfl
    | nameTooLong => exact failsInternally_internalError .nameTooLong
    | nulInName => exact failsInternally_internalError .nulInName
  | malformed defect => exact failsInternally_of_none rfl
  | tooManyDigits count => exact failsInternally_internalError (.tooManyDigits count)
  | invalidPath => exact failsInternally_of_none rfl
  | unencodable u => exact failsInternally_internalError (.unencodable u)
  | nulInLabel => exact failsInternally_internalError .nulInLabel
  | unknownEncoding label => exact failsInternally_internalError (.unknownEncoding label)

theorem Response.failsInternally_ofBodyError (e : Body.ReadError) :
    (ofBodyError e).FailsInternally := by
  cases e with
  | undecodable u => exact failsInternally_of_none rfl
  | malformed defect => exact failsInternally_of_none rfl
  | tooManyDigits count => exact failsInternally_internalError (.tooManyDigits count)

/-- Where the file of a document is. -/
def location (file : Text) : FileTree.Location := Text.ofString "data" :: FilePath.namesOf file

theorem resolve_of_addresses (settings : Settings) {file : Text} (h : Addresses file) :
    (ofSettings settings).shelf.resolve file = location file := by
  rw [Shelf.resolve, FilePath.join, if_pos h.2.1]
  rfl

theorem up_not_mem_location {file : Text} (h : Addresses file) : FilePath.up ∉ location file := by
  have hdata : FilePath.up ≠ Text.ofString "data" := by decide
  rw [location, List.mem_cons, not_or]
  exact ⟨hdata, h.2.2⟩

theorem nul_not_mem_location {file : Text} (h : ¬ file.HasNul) :
    ∀ name ∈ location file, ¬ name.HasNul := by
  intro name hname hnul
  rcases List.mem_cons.1 hname with rfl | hname
  · revert hnul
    decide
  · exact h (FilePath.mem_of_mem_namesOf hname hnul)

/-- File systems take the names of a document, unless they are too long as a path. -/
theorem takes_location {file : Text} (haddress : Addresses file) (hnul : ¬ file.HasNul)
    (hsize : ∀ name ∈ FilePath.namesOf file, FileTree.nameSize name ≤ FileTree.nameLimit)
    (hpath : FileTree.pathSize (location file) ≤ FileTree.pathLimit) :
    FileTree.Takes (location file) where
  path := FileTree.checkPath_eq_ok_iff.2 ⟨nul_not_mem_location hnul, hpath⟩
  size := List.forall_mem_cons.2 ⟨by decide, hsize⟩
  down := up_not_mem_location haddress

/-- A request other than a put leaves the tree as it is. -/
theorem answer_of_ne_put (h : r.method ≠ .put) : (s.answer t r).1 = t := by
  rw [answer]
  split
  · rfl
  · next hput => exact absurd hput h
  · rfl

/-- **How far a put gets.** It leaves the tree as it is, or it comes to the file: then it has read
or missed the file and has the new content, and its answer tells whether the write to the tree has
failed. -/
theorem put_eq_or (s : Service) (t : FileTree) (r : Request) :
    (∃ response : Response, s.put t r = (t, response) ∧ response.status ≠ 204 ∧
        response.FailsInternally) ∨
      ∃ value content bytes, Body.read r.body = .ok value ∧ Addresses r.file ∧
        s.shelf.content t r.file = .ok content ∧
        Document.write s.shelf.settings content r.path value = .ok bytes ∧
        s.put t r = ((t.write (s.shelf.resolve r.file) bytes).tree,
          (t.write (s.shelf.resolve r.file) bytes).fault.elim .noContent (.ofError ∘ .file)) := by
  cases hbody : Body.read r.body with
  | error e =>
    refine .inl ⟨.ofBodyError e, ?_, Response.status_ofBodyError_ne e,
      Response.failsInternally_ofBodyError e⟩
    rw [put, hbody]
  | ok value =>
    by_cases haddress : Addresses r.file
    · rcases s.shelf.write_eq_or t r.file r.path value with
        ⟨e, hwrite, hfound, hexists⟩ | ⟨content, bytes, hcontent, hdocument⟩
      · refine .inl ⟨.ofError e, ?_, Response.status_ofError_ne e,
          Response.failsInternally_ofError hfound hexists⟩
        rw [put, hbody]
        simp only [if_pos haddress, hwrite]
      · refine .inr ⟨value, content, bytes, rfl, haddress, hcontent, hdocument, ?_⟩
        rw [put, hbody]
        simp only [if_pos haddress, Shelf.write_of_document hcontent hdocument]
        cases (t.write (s.shelf.resolve r.file) bytes).fault <;> rfl
    · refine .inl ⟨.badFile, ?_, by simp, Response.failsInternally_of_none rfl⟩
      rw [put, hbody]
      exact if_neg haddress

/-- A request that gets as far as the file and writes `bytes` there. -/
structure Writes (s : Service) (t : FileTree) (r : Request) (bytes : Bytes) : Prop where
  method : r.method = .put
  addresses : Addresses r.file
  /-- The bytes are the changed document. -/
  document : ∃ value content, Body.read r.body = .ok value ∧
    s.shelf.content t r.file = .ok content ∧
    Document.write s.shelf.settings content r.path value = .ok bytes
  tree : (s.answer t r).1 = (t.write (s.shelf.resolve r.file) bytes).tree
  /-- The status tells whether the file system took the bytes. -/
  status : (s.answer t r).2.status = 204 ↔ (t.write (s.shelf.resolve r.file) bytes).fault = none

/-- **A request leaves the tree as it is or writes to a file.** -/
theorem answer_cases (s : Service) (t : FileTree) (r : Request) :
    ((s.answer t r).1 = t ∧ (r.method = .put → (s.answer t r).2.status ≠ 204)) ∨
      ∃ bytes, Writes s t r bytes := by
  by_cases hmethod : r.method = .put
  · have hanswer : s.answer t r = s.put t r := by rw [answer, hmethod]
    rcases put_eq_or s t r with
      ⟨response, hput, hstatus, -⟩ |
        ⟨value, content, bytes, hbody, haddress, hcontent, hbytes, hput⟩
    · rw [hanswer, hput]
      exact .inl ⟨rfl, fun _ => hstatus⟩
    · refine .inr ⟨bytes, hmethod, haddress, ⟨value, content, hbody, hcontent, hbytes⟩, ?_, ?_⟩
      · rw [hanswer, hput]
      · rw [hanswer, hput]
        cases (t.write (s.shelf.resolve r.file) bytes).fault with
        | none => exact ⟨fun _ => rfl, fun _ => rfl⟩
        | some fault => exact ⟨fun h => absurd h (Response.status_ofError_ne _), nofun⟩
  · exact .inl ⟨answer_of_ne_put hmethod, fun h => absurd h hmethod⟩

end Service

end JsonShelf
