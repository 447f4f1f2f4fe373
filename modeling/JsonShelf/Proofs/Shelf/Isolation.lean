import JsonShelf.Proofs.FileTree.OpenWay
import JsonShelf.Proofs.Service.Answer
import JsonShelf.Proofs.Shelf.Session

/-!
# Documents on one shelf do not meet

Calls on many documents of one tree, in any order, come to the same as if every document were alone:
its calls are answered as by a file of its own, and the file in the tree is that file. It does not
matter how the name of a document is spelled, nor whether a call comes by way of the service's shelf
or from the working directory, which meet in the same file.

This takes names that lead to different places or to the same, and none that leads below another
one; then a document cannot be in the way of another one, and directories never are. The simulation
relation says of the tree no more than that: the file is the one that the document would have alone,
and no file is above it. A call on the document itself keeps it, as the file can be read and written
then, and a call on any other document keeps it, as it does not touch the file and only adds
directories on the way.

File systems limit names, but also whole paths, so it is not enough that every name is short: a
document that is far below is out of reach, even if nothing was ever written.

## Main definitions

* `Session.Errand` — a call on a document, under a name below the data directory
* `Session.Errand.Plain` — what is asked of the name
* `Session.Mirrors` — a tree that holds a document as if it were alone

## Main results

* `Session.Mirrors.own`, `Session.Mirrors.other` — calls on the document and on others
* `Session.documents_isolated` — sessions answer every document as if it were alone
* `Session.answer_of_pathLimit_lt` — documents that are out of reach
-/

namespace JsonShelf

namespace Session

open FileTree

/-! ### Errands -/

/-- A call on a document whose name is seen from the data directory. -/
structure Errand where
  origin : Origin
  file : Text
  call : Document.Call

namespace Errand

/-- The name of the document as it is seen from the origin. -/
def spelling (errand : Errand) : Text :=
  match errand.origin with
  | .dataDirectory => errand.file
  | .workingDirectory => Text.ofString "data/" ++ errand.file

/-- The step of a session that an errand is. -/
def step (errand : Errand) : Step := .call errand.origin errand.spelling errand.call

/-- Where the file of the document is. -/
def location (errand : Errand) : Location := Service.location errand.file

/-- The name addresses a document, without a NUL and with short names only; and both origins store
documents in the same way, if the working directory is used at all. -/
structure Plain (settings : Settings) (errand : Errand) : Prop where
  addresses : Service.Addresses errand.file
  nul : ¬ errand.file.HasNul
  size : ∀ name ∈ FilePath.namesOf errand.file, nameSize name ≤ nameLimit
  settings : errand.origin = .workingDirectory → settings = {}

instance (settings : Settings) (errand : Errand) : Decidable (errand.Plain settings) :=
  decidable_of_iff
    (Service.Addresses errand.file ∧ ¬ errand.file.HasNul ∧
      (∀ name ∈ FilePath.namesOf errand.file, nameSize name ≤ nameLimit) ∧
      (errand.origin = .workingDirectory → settings = {}))
    ⟨fun ⟨haddress, hnul, hsize, hsettings⟩ => ⟨haddress, hnul, hsize, hsettings⟩,
      fun h => ⟨h.addresses, h.nul, h.size, h.settings⟩⟩

end Errand

variable {settings : Settings} {t : FileTree} {l : Location} {errand : Errand}

/-- Both origins lead to the same file. -/
theorem resolve_spelling (h : errand.Plain settings) :
    (errand.origin.shelf settings).resolve errand.spelling = errand.location := by
  obtain ⟨origin, file, call⟩ := errand
  cases origin with
  | dataDirectory => exact Service.resolve_of_addresses settings h.addresses
  | workingDirectory =>
    have hspelling : Text.ofString "data/" ++ file =
        Text.ofString "data" ++ FilePath.slash :: file := by
      rw [show Text.ofString "data/" = Text.ofString "data" ++ [FilePath.slash] by decide,
        List.append_assoc, List.singleton_append]
    have hdata : FilePath.namesOf (Text.ofString "data") = [Text.ofString "data"] := by decide
    show (Shelf.mk ⟨.root, []⟩ {}).resolve (Text.ofString "data/" ++ file) = Service.location file
    rw [Shelf.resolve, FilePath.join]
    -- The base is the root, so it does not matter whether the name is relative.
    have hnames : (FilePath.ofText (Text.ofString "data/" ++ file)).names =
        Service.location file := by
      show FilePath.namesOf _ = _
      rw [hspelling, FilePath.namesOf_append_slash, hdata]
      rfl
    split
    · exact hnames
    · exact hnames

/-- Both origins store documents in the same way. -/
theorem settings_shelf (h : errand.Plain settings) :
    (errand.origin.shelf settings).settings = settings := by
  cases horigin : errand.origin with
  | dataDirectory => rfl
  | workingDirectory => exact (h.settings horigin).symm

theorem Errand.Plain.nul_not_mem (h : errand.Plain settings) :
    ∀ name ∈ errand.location, ¬ name.HasNul :=
  Service.nul_not_mem_location h.nul

/-- File systems take the names, unless they are too long as a path. -/
theorem Errand.Plain.takes (h : errand.Plain settings)
    (hpath : pathSize errand.location ≤ pathLimit) : Takes errand.location :=
  Service.takes_location h.addresses h.nul h.size hpath

/-! ### The simulation relation -/

/-- At `l` the tree has the file, and nothing but directories above it. -/
structure Mirrors (t : FileTree) (l : Location) (file : Option Bytes) : Prop where
  node : t.node? l = file.map .file
  way : Passable t l.dropLast

theorem mirrors_empty (hl : l ≠ []) : Mirrors .empty l none where
  node := by
    obtain ⟨name, rest, rfl⟩ := List.exists_cons_of_ne_nil hl
    rfl
  way m content _ := by
    cases m <;> exact nofun

/-- What a shelf finds of a document is the file. -/
theorem Mirrors.content {file : Option Bytes} (h : Mirrors t l file) (hl : Takes l) {s : Shelf}
    {name : Text} (hname : s.resolve name = l) : s.content t name = .ok file := by
  cases file with
  | some bytes =>
    exact Shelf.content_of_read (by rw [hname]; exact read_of_node? hl h.node)
  | none =>
    refine Shelf.content_of_read_notFound ?_
    rw [hname]
    refine read_of_passable hl (passable_of_dropLast h.way ?_) h.node
    intro content
    rw [h.node]
    exact nofun

/-- A write to the file leaves its content there, and nothing but directories above it. -/
theorem Mirrors.write {file : Option Bytes} (h : Mirrors t l file) (hl : Takes l) (hne : l ≠ [])
    (bytes : Bytes) :
    (t.write l bytes).fault = none ∧ Mirrors (t.write l bytes).tree l (some bytes) := by
  have hfault : (t.write l bytes).fault = none := by
    obtain ⟨above, last, rfl⟩ : ∃ above last, l = above ++ [last] :=
      ⟨l.dropLast, l.getLast hne, (List.dropLast_concat_getLast hne).symm⟩
    have hway := h.way
    rw [List.dropLast_concat] at hway
    have hnode : t.node? (above ++ [last]) ≠ some .directory := by
      rw [h.node]
      cases file <;> exact nofun
    rcases fault_write_of_passable hl.path hl.down hway hnode bytes with hok | hlong
    · exact hok.2
    · exact absurd hl hlong.1
  refine ⟨hfault, (node?_write_self hl.down hfault).1, h.way.write hl.down ?_ bytes⟩
  intro hbefore
  have hlength := hbefore.length_le
  rw [List.length_dropLast] at hlength
  exact hne (List.length_eq_zero_iff.1 (by omega))

/-- **A call on the document** is answered as by a file of its own, and the tree goes on holding
that file. -/
theorem Mirrors.own {file : Option Bytes} (h : Mirrors t errand.location file)
    (hplain : errand.Plain settings) (hpath : pathSize errand.location ≤ pathLimit) :
    (errand.step.on settings t).1 = (errand.call.onFile settings file).1.map .document ∧
      Mirrors (errand.step.on settings t).2 errand.location
        (errand.call.onFile settings file).2 := by
  have hl := hplain.takes hpath
  have hname := resolve_spelling hplain
  have hcall := errand.call.onShelf_of_content (h.content hl hname)
  rw [settings_shelf hplain, hname] at hcall
  rw [Errand.step, Step.on]
  rcases hcall with ⟨hshelf, hfile⟩ | ⟨bytes, hfile, hshelf⟩
  · rw [hshelf, hfile]
    exact ⟨rfl, h⟩
  · obtain ⟨hfault, hmirrors⟩ := h.write hl (List.cons_ne_nil _ _) bytes
    rw [hshelf, hfile, hfault]
    exact ⟨rfl, hmirrors⟩

/-- **A call on another document** has no part in this one. -/
theorem Mirrors.other {file : Option Bytes} (h : Mirrors t l file) (hplain : errand.Plain settings)
    (hbelow : ¬ l <+: errand.location) (habove : ¬ errand.location <+: l) :
    Mirrors (errand.step.on settings t).2 l file := by
  have hdown : FilePath.up ∉ errand.location := Service.up_not_mem_location hplain.addresses
  rw [Errand.step, Step.on]
  rcases errand.call.onShelf_cases (errand.origin.shelf settings) t errand.spelling with
    htree | ⟨bytes, htree, -⟩
  · rw [htree]
    exact h
  · rw [htree, resolve_spelling hplain]
    refine ⟨?_, h.way.write hdown ?_ bytes⟩
    · rw [node?_write_of_not_onWay hdown hbelow]
      exact h.node
    · intro hbefore
      exact habove (hbefore.trans (List.dropLast_prefix l))

/-! ### Sessions -/

/-- Whether an errand is about the document whose file is at `l`. -/
def Errand.isAt (errand : Errand) (l : Location) : Bool := decide (errand.location = l)

/-- The answers that a session of errands gives to those at `l`. -/
def answersAt (settings : Settings) (t : FileTree) (errands : List Errand) (l : Location) :
    List Answer :=
  ((errands.zip (run settings t (errands.map Errand.step)).1).filter fun entry =>
    entry.1.isAt l).map Prod.snd

/-- The calls of errands on a file of its own. -/
def alone (settings : Settings) (file : Option Bytes) (errands : List Errand) (l : Location) :
    List Document.Answer × Option Bytes :=
  Document.run (Document.Call.onFile settings) file ((errands.filter (·.isAt l)).map Errand.call)

section

variable {file : Option Bytes} (errands : List Errand)

theorem answersAt_cons_self (settings : Settings) (t : FileTree) (errand : Errand) :
    answersAt settings t (errand :: errands) errand.location =
      (errand.step.on settings t).1 ::
        answersAt settings (errand.step.on settings t).2 errands errand.location := by
  simp [answersAt, run_cons, Errand.isAt]

theorem answersAt_cons_of_ne (settings : Settings) (t : FileTree) (h : errand.location ≠ l) :
    answersAt settings t (errand :: errands) l =
      answersAt settings (errand.step.on settings t).2 errands l := by
  simp [answersAt, run_cons, Errand.isAt, h]

theorem alone_cons_self (settings : Settings) (errand : Errand) :
    alone settings file (errand :: errands) errand.location =
      ((errand.call.onFile settings file).1 ::
          (alone settings (errand.call.onFile settings file).2 errands errand.location).1,
        (alone settings (errand.call.onFile settings file).2 errands errand.location).2) := by
  simp [alone, Document.run_cons, Errand.isAt]

theorem alone_cons_of_ne (settings : Settings) (h : errand.location ≠ l) :
    alone settings file (errand :: errands) l = alone settings file errands l := by
  simp [alone, Errand.isAt, h]

end

/-- What a session keeps of a document. -/
theorem Mirrors.run {file : Option Bytes} {errands : List Errand} (h : Mirrors t l file)
    (hplain : ∀ errand ∈ errands, errand.Plain settings)
    (hpath : ∀ errand ∈ errands, pathSize errand.location ≤ pathLimit)
    (hapart : ∀ errand ∈ errands, errand.location ≠ l →
      ¬ l <+: errand.location ∧ ¬ errand.location <+: l) :
    answersAt settings t errands l =
        (alone settings file errands l).1.map (·.map .document) ∧
      (Session.run settings t (errands.map Errand.step)).2.node? l =
        (alone settings file errands l).2.map .file := by
  -- An errand on the document takes both tree and file one step further, any other only the tree.
  induction errands generalizing t file with
  | nil => exact ⟨rfl, h.node⟩
  | cons errand errands ih =>
    obtain ⟨hplain, hplains⟩ := List.forall_mem_cons.1 hplain
    obtain ⟨hpath, hpaths⟩ := List.forall_mem_cons.1 hpath
    obtain ⟨hapart, haparts⟩ := List.forall_mem_cons.1 hapart
    rw [List.map_cons, run_cons]
    by_cases hat : errand.location = l
    · subst hat
      obtain ⟨hanswer, hnext⟩ := h.own hplain hpath
      obtain ⟨hanswers, hnode⟩ := ih hnext hplains hpaths haparts
      rw [answersAt_cons_self, alone_cons_self, List.map_cons, hanswer, hanswers]
      exact ⟨rfl, hnode⟩
    · rw [answersAt_cons_of_ne errands settings t hat, alone_cons_of_ne errands settings hat]
      exact ih (h.other hplain (hapart hat).1 (hapart hat).2) hplains hpaths haparts

/-- **Documents are isolated from each other.** If no name leads below another one, and none is too
long as a whole, then in any session from an empty tree the calls on a document are answered as they
are on a file of its own that is missing at first, and the file in the tree is this file. -/
theorem documents_isolated {errands : List Errand}
    (hplain : ∀ errand ∈ errands, errand.Plain settings)
    (hpath : ∀ errand ∈ errands, pathSize errand.location ≤ pathLimit)
    (hapart : ∀ errand ∈ errands, ∀ other ∈ errands,
      FilePath.namesOf errand.file <+: FilePath.namesOf other.file →
        FilePath.namesOf errand.file = FilePath.namesOf other.file) :
    ∀ errand ∈ errands,
      answersAt settings .empty errands errand.location =
          (alone settings none errands errand.location).1.map (·.map .document) ∧
        (run settings .empty (errands.map Errand.step)).2.node? errand.location =
          (alone settings none errands errand.location).2.map .file := by
  have hlocation : ∀ errand ∈ errands, ∀ other ∈ errands,
      errand.location <+: other.location → errand.location = other.location := by
    intro errand herrand other hother hbefore
    rw [Errand.location, Errand.location, Service.location, Service.location,
      hapart errand herrand other hother (List.cons_prefix_cons.1 hbefore).2]
  intro errand herrand
  refine (mirrors_empty (List.cons_ne_nil _ _)).run hplain hpath ?_
  intro other hother hne
  refine ⟨fun hbelow => hne ?_, fun habove => hne ?_⟩
  · exact (hlocation errand herrand other hother hbelow).symm
  · exact hlocation other hother errand herrand habove

/-- One document that is written and read under different spellings and from different origins, with
a call on another document in the same directory in between. -/
theorem documents_isolated_spellings :
    let first : Errand :=
      ⟨.dataDirectory, Text.ofString "d/x", .write (Text.ofString "a") (.int 1)⟩
    let second : Errand :=
      ⟨.dataDirectory, Text.ofString "d/y", .write (Text.ofString "a") (.int 2)⟩
    let third : Errand := ⟨.workingDirectory, Text.ofString "./d//x", .load (Text.ofString "a")⟩
    (∀ errand ∈ [first, second, third], errand.Plain {}) ∧
      answersAt {} .empty [first, second, third] first.location =
        [.ok (.document none), .ok (.document (some (.int 1)))] := by
  intro first second third
  have hplain : ∀ errand ∈ [first, second, third], errand.Plain {} := by decide +kernel
  obtain ⟨hanswers, -⟩ := documents_isolated hplain (by decide +kernel) (by decide +kernel) first
    List.mem_cons_self
  refine ⟨hplain, hanswers.trans ?_⟩
  with_unfolding_all rfl

/-! ### Paths that are too long -/

/-- Calls on a document that is too far below are refused, whatever is in the tree. -/
theorem answer_of_pathLimit_lt (hplain : errand.Plain settings)
    (hpath : pathLimit < pathSize errand.location) (t : FileTree) :
    (errand.step.on settings t).1 = .error (.file .nameTooLong) := by
  have hnul : ¬ ∃ name ∈ errand.location, name.HasNul :=
    fun ⟨name, hname, hnul⟩ => hplain.nul_not_mem name hname hnul
  have hread : t.read errand.location = .error .nameTooLong :=
    read_of_checkPath_error (by rw [checkPath, if_neg hnul, if_pos hpath]) t
  have hcontent : (errand.origin.shelf settings).content t errand.spelling =
      .error (.file .nameTooLong) := by
    rw [Shelf.content, resolve_spelling hplain, hread]
  rw [Errand.step, Step.on, Document.Call.onShelf_of_content_error hcontent]
  rfl

/-- **Short names are not enough.** Twenty names of 250 bytes are too long as a path, so to load a
document there is refused, while a file of its own would be missing. -/
theorem not_isolated_far_below :
    let names : List Text := List.replicate 20 (List.replicate 250 'a')
    let errand : Errand := ⟨.dataDirectory, [FilePath.slash].intercalate names, .load []⟩
    errand.Plain {} ∧
      answersAt {} .empty [errand] errand.location = [.error (.file .nameTooLong)] ∧
      (alone {} none [errand] errand.location).1.map (·.map Reply.document) =
        [.error (.file .notFound)] := by
  intro names errand
  have hplain : errand.Plain {} := by decide +kernel
  have hpath : pathLimit < pathSize errand.location := by decide +kernel
  refine ⟨hplain, ?_, ?_⟩
  · rw [answersAt_cons_self, answer_of_pathLimit_lt hplain hpath]
    rfl
  · rw [alone_cons_self]
    rfl

end Session

end JsonShelf
