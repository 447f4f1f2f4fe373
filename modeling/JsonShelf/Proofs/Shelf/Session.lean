import JsonShelf.Proofs.Document.Refinement
import JsonShelf.Proofs.FileTree.Listing
import JsonShelf.Proofs.FileTree.ReadBack
import JsonShelf.Proofs.Shelf.Outcome
import JsonShelf.Service.Basic

/-!
# Sessions on a file tree

A session is a sequence of steps on one tree. Documents are loaded and written, by the service's
shelf or by a shelf at the working directory, which is the root of the tree; files are read and
written as they are; and directories are made. File names may be anything: they may turn back with
double dots, leave the base, or name the base itself, which then becomes a file.

Whatever a step asks for, it ends as one of three things, a tree that is left alone, a write, or
directories that are made, and the names that it follows are names. So what a step keeps is known
from what these three keep, and what a session keeps is known from its steps. Nothing depends on
where the names lead.

## Main definitions

* `Document.Call.onShelf` — a call on a document of a shelf
* `Session.Origin` — where file names are seen from
* `Session.Step`, `Session.Step.on` — a step, and what it does to a tree
* `Session.run` — the answers to steps and the tree after them

## Main results

* `Document.Call.onShelf_cases`, `Document.Call.onShelf_of_content` — what a call on a shelf does
* `Session.Step.on_cases` — what a step may do to a tree
* `Session.steps_keep_listing` — what is listed before and after every step of a session
-/

namespace JsonShelf

/-- The answer after a call that changes a tree, which may have failed. -/
def answerOf {α : Type} (answer : α) : Option Error → Except Error α
  | none => .ok answer
  | some e => .error e

theorem eq_none_of_answerOf {α : Type} {answer given : α} {error : Option Error}
    (h : answerOf answer error = .ok given) : error = none := by
  cases error with
  | none => rfl
  | some e => exact nomatch h

/-- The answer to a call on a document of a shelf, and the tree after it. -/
def Document.Call.onShelf (s : Shelf) (t : FileTree) (file : Text) : Call → Answer × FileTree
  | load expression => ((s.load t file expression).map some, t)
  | write expression value =>
    (answerOf none (s.write t file expression value).error,
      (s.write t file expression value).tree)

namespace Document.Call

variable {s : Shelf} {t : FileTree} {name : Text}

/-- **What a call on a shelf does to the tree.** It leaves it alone, or writes to the file; and it
does not fail if it writes without a fault. -/
theorem onShelf_cases (s : Shelf) (t : FileTree) (name : Text) (c : Call) :
    (c.onShelf s t name).2 = t ∨
      ∃ bytes, (c.onShelf s t name).2 = (t.write (s.resolve name) bytes).tree ∧
        ((t.write (s.resolve name) bytes).fault = none → (c.onShelf s t name).1 = .ok none) := by
  cases c with
  | load expression => exact .inl rfl
  | write expression value =>
    rw [onShelf]
    rcases Shelf.write_eq_or s t name expression value with
      ⟨e, hwrite, -, -⟩ | ⟨content, bytes, hcontent, hdocument⟩
    · left
      rw [hwrite]
    · right
      rw [Shelf.write_of_document hcontent hdocument]
      refine ⟨bytes, rfl, ?_⟩
      intro hfault
      rw [hfault]
      rfl

/-- **A call on a shelf that finds the content is one on the file.** What the call makes of the file
is written to the tree, unless it makes nothing of it. -/
theorem onShelf_of_content {file : Option Bytes} (hcontent : s.content t name = .ok file)
    (c : Call) :
    (c.onShelf s t name = ((c.onFile s.settings file).1, t) ∧
        (c.onFile s.settings file).2 = file) ∨
      ∃ bytes, c.onFile s.settings file = (.ok none, some bytes) ∧
        c.onShelf s t name =
          (answerOf none ((t.write (s.resolve name) bytes).fault.map .file),
            (t.write (s.resolve name) bytes).tree) := by
  cases c with
  | load expression =>
    left
    rw [onShelf, onFile, Shelf.load, hcontent]
    exact ⟨rfl, rfl⟩
  | write expression value =>
    rw [onShelf, onFile]
    cases hwrite : Document.write s.settings file expression value with
    | error e =>
      left
      rw [Shelf.write_of_document_error hcontent hwrite]
      exact ⟨rfl, rfl⟩
    | ok bytes =>
      right
      rw [Shelf.write_of_document hcontent hwrite]
      exact ⟨bytes, rfl, rfl⟩

/-- Where the content cannot be had, that is the answer to every call. -/
theorem onShelf_of_content_error {e : Error} (hcontent : s.content t name = .error e) (c : Call) :
    c.onShelf s t name = (.error e, t) := by
  cases c with
  | load expression =>
    rw [onShelf, Shelf.load, hcontent]
    rfl
  | write expression value =>
    rw [onShelf, Shelf.write, hcontent]
    rfl

end Document.Call

namespace Session

/-! ### Steps -/

/-- Where file names are seen from. -/
inductive Origin
  /-- The directory of the service. -/
  | dataDirectory
  /-- The root of the tree. -/
  | workingDirectory
deriving DecidableEq

/-- The shelf at an origin. Documents are stored as in the settings by the service only. -/
def Origin.shelf (settings : Settings) : Origin → Shelf
  | dataDirectory => (Service.ofSettings settings).shelf
  | workingDirectory => ⟨⟨.root, []⟩, {}⟩

/-- One step of a session. -/
inductive Step
  /-- Load or write a document. -/
  | call (origin : Origin) (file : Text) (call : Document.Call)
  /-- Read the content of a file. -/
  | read (origin : Origin) (file : Text)
  /-- Set the content of a file. -/
  | write (origin : Origin) (file : Text) (content : Bytes)
  /-- Make a directory in the working directory, with its parents. -/
  | makeDirectory (name : Text)

/-- What a step is answered, unless it fails. -/
inductive Reply
  | document (answer : Option Json)
  | content (bytes : Bytes)
  | done

/-- The answer to a step. -/
abbrev Answer := Except Error Reply

/-- The answer to a step, and the tree after it. -/
def Step.on (settings : Settings) (t : FileTree) : Step → Answer × FileTree
  | .call origin file c =>
    ((c.onShelf (origin.shelf settings) t file).1.map .document,
      (c.onShelf (origin.shelf settings) t file).2)
  | .read origin file =>
    (((t.read ((origin.shelf settings).resolve file)).mapError .file).map .content, t)
  | .write origin file content =>
    let change := t.write ((origin.shelf settings).resolve file) content
    (answerOf .done (change.fault.map .file), change.tree)
  | .makeDirectory name =>
    let change := t.makeDirectories (FilePath.namesOf name)
    (answerOf .done (change.fault.map .file), change.tree)

/-- The steps that only look at the tree. -/
def Step.Reads : Step → Prop
  | call _ _ (.load _) => True
  | read _ _ => True
  | _ => False

/-- The answers to steps one after the other, and the tree that they leave. -/
def run (settings : Settings) : FileTree → List Step → List Answer × FileTree
  | t, [] => ([], t)
  | t, step :: steps =>
    let answered := step.on settings t
    let rest := run settings answered.2 steps
    (answered.1 :: rest.1, rest.2)

variable {settings : Settings} {t : FileTree} {step : Step}

theorem run_cons (settings : Settings) (t : FileTree) (step : Step) (steps : List Step) :
    run settings t (step :: steps) =
      ((step.on settings t).1 :: (run settings (step.on settings t).2 steps).1,
        (run settings (step.on settings t).2 steps).2) := rfl

/-! ### What a step does -/

/-- Whatever a file name is, what is followed are names. -/
theorem isName_of_mem_resolve (settings : Settings) (origin : Origin) (file : Text) :
    ∀ name ∈ (origin.shelf settings).resolve file, FilePath.IsName name := by
  have hfile : ∀ name ∈ (FilePath.ofText file).names, FilePath.IsName name :=
    fun name hname => FilePath.isName_of_mem_namesOf hname
  intro name hname
  rw [Shelf.resolve, FilePath.join] at hname
  split at hname
  · rcases List.mem_append.1 hname with hbase | hname
    · cases origin with
      | dataDirectory =>
        rw [List.mem_singleton.1 hbase]
        exact ⟨by decide, by decide⟩
      | workingDirectory => exact absurd hbase List.not_mem_nil
    · exact hfile name hname
  · exact hfile name hname

theorem Step.on_of_reads (h : step.Reads) (settings : Settings) (t : FileTree) :
    (step.on settings t).2 = t := by
  match step, h with
  | .call _ _ (.load _), _ => rfl
  | .read _ _, _ => rfl

theorem on_write_of_fault {origin : Origin} {file : Text} {content : Bytes}
    (h : (t.write ((origin.shelf settings).resolve file) content).fault = none) :
    ((Step.write origin file content).on settings t).1 = .ok .done := by
  show answerOf Reply.done (Option.map _ _) = _
  rw [h]
  rfl

/-- **What a step does to a tree.** It leaves it alone, or writes to a file, or makes a directory;
and a step does not fail if it writes without a fault. -/
theorem Step.on_cases (settings : Settings) (t : FileTree) (step : Step) :
    (step.on settings t).2 = t ∨
      ∃ names, (∀ name ∈ names, FilePath.IsName name) ∧
        ((∃ content, (step.on settings t).2 = (t.write names content).tree ∧
            ((t.write names content).fault = none → ∃ reply, (step.on settings t).1 = .ok reply)) ∨
          (step.on settings t).2 = (t.makeDirectories names).tree) := by
  cases step with
  | call origin file c =>
    rw [Step.on]
    rcases c.onShelf_cases (origin.shelf settings) t file with htree | ⟨bytes, htree, hanswer⟩
    · exact .inl htree
    · refine .inr ⟨_, isName_of_mem_resolve settings origin file, .inl ⟨bytes, htree, ?_⟩⟩
      intro hfault
      rw [hanswer hfault]
      exact ⟨.document none, rfl⟩
  | read origin file => exact .inl rfl
  | write origin file content =>
    right
    refine ⟨_, isName_of_mem_resolve settings origin file, .inl ⟨content, rfl, ?_⟩⟩
    exact fun hfault => ⟨.done, on_write_of_fault hfault⟩
  | makeDirectory name =>
    exact .inr ⟨_, fun part hpart => FilePath.isName_of_mem_namesOf hpart, .inr rfl⟩

/-! ### What a step keeps -/

theorem proper_on (h : t.Proper) (settings : Settings) (step : Step) :
    (step.on settings t).2.Proper := by
  rcases step.on_cases settings t with htree | ⟨names, hnames, ⟨content, htree, -⟩ | htree⟩
  · rw [htree]
    exact h
  · rw [htree]
    exact h.write hnames content
  · rw [htree]
    exact h.makeDirectories hnames

theorem keeps_on (settings : Settings) (t : FileTree) (step : Step) :
    t.Keeps (step.on settings t).2 := by
  rcases step.on_cases settings t with htree | ⟨names, -, ⟨content, htree, -⟩ | htree⟩
  · rw [htree]
    exact .refl t
  · rw [htree]
    exact FileTree.keeps_write t names content
  · rw [htree]
    exact (FileTree.within_makeDirectories t names).keeps

/-- A step that fails leaves all files as they are. -/
theorem node?_on_of_error {e : Error} (h : (step.on settings t).1 = .error e)
    (l : FileTree.Location) (content : Bytes) :
    (step.on settings t).2.node? l = some (.file content) ↔
      t.node? l = some (.file content) := by
  rcases step.on_cases settings t with htree | ⟨names, -, ⟨bytes, htree, hanswer⟩ | htree⟩
  · rw [htree]
  · rw [htree]
    refine (FileTree.grows_write_of_fault ?_).node?_eq_file_iff
    intro hfault
    obtain ⟨reply, hok⟩ := hanswer hfault
    rw [h] at hok
    exact nomatch hok
  · rw [htree]
    exact (FileTree.grows_makeDirectories t names).node?_eq_file_iff

/-- A step changes or adds one file at most. -/
theorem exists_node?_on (settings : Settings) (t : FileTree) (step : Step) :
    ∃ changed, ∀ l content, l ≠ changed →
      ((step.on settings t).2.node? l = some (.file content) ↔
        t.node? l = some (.file content)) := by
  rcases step.on_cases settings t with htree | ⟨names, -, ⟨bytes, htree, -⟩ | htree⟩
  · rw [htree]
    exact ⟨[], fun _ _ _ => Iff.rfl⟩
  · rw [htree]
    exact FileTree.exists_node?_write t names bytes
  · rw [htree]
    exact ⟨[], fun _ _ _ => (FileTree.grows_makeDirectories t names).node?_eq_file_iff⟩

/-- A file that was written is read as it was written. -/
theorem read_on_write (settings : Settings) (t : FileTree) (origin : Origin) (file : Text)
    {content : Bytes} {reply : Reply}
    (h : ((Step.write origin file content).on settings t).1 = .ok reply) :
    ((Step.read origin file).on settings ((Step.write origin file content).on settings t).2).1 =
      .ok (.content content) := by
  have hfault : (t.write ((origin.shelf settings).resolve file) content).fault = none :=
    Option.map_eq_none_iff.1 (eq_none_of_answerOf h)
  show (((t.write _ content).tree.read _).mapError Error.file).map Reply.content = _
  rw [FileTree.read_write_self hfault]
  rfl

/-! ### Runs -/

theorem proper_run (h : t.Proper) (settings : Settings) (steps : List Step) :
    (run settings t steps).2.Proper := by
  induction steps generalizing t with
  | nil => exact h
  | cons step steps ih =>
    rw [run_cons]
    exact ih (proper_on h settings step)

/-- **What is listed during a session.** After any steps from an empty tree, and one step more:
nothing is listed twice, and everything is listed below the root or a directory that is listed; what
was listed before that step is still there and of its kind; the step has changed nothing if it only
reads, no file if it failed, and one file at most in any case; and a file that it has written is
read as it was written. -/
theorem steps_keep_listing (settings : Settings) (steps : List Step) (step : Step) :
    let before := (run settings .empty steps).2
    let after := (step.on settings before).2
    after.WellListed ∧
      (∀ path node, (path, node) ∈ before.listing →
        ∃ node', (path, node') ∈ after.listing ∧ (node' = .directory ↔ node = .directory)) ∧
      (step.Reads → after = before) ∧
      (∀ e, (step.on settings before).1 = .error e → ∀ path content,
        (path, .file content) ∈ after.listing ↔ (path, .file content) ∈ before.listing) ∧
      (∃ changed, ∀ path content, path ≠ changed →
        ((path, .file content) ∈ after.listing ↔ (path, .file content) ∈ before.listing)) ∧
      ∀ origin file content reply, step = .write origin file content →
        (step.on settings before).1 = .ok reply →
          ((Step.read origin file).on settings after).1 = .ok (.content content) := by
  intro before after
  have hbefore : before.Proper := proper_run (t := .empty) trivial settings steps
  have hafter : after.Proper := proper_on hbefore settings step
  refine ⟨hafter.wellListed, ?_, fun h => Step.on_of_reads h settings before, ?_, ?_, ?_⟩
  · intro path node hlisted
    obtain ⟨l, hl, hnode, rfl⟩ := (FileTree.mem_listing_iff hbefore).1 hlisted
    obtain ⟨node', hnode', hkind⟩ := keeps_on settings before step l node hnode
    exact ⟨node', (FileTree.mem_listing_iff hafter).2 ⟨l, hl, hnode', rfl⟩, hkind⟩
  · intro e herror path content
    rw [FileTree.mem_listing_iff hafter, FileTree.mem_listing_iff hbefore]
    simp only [after, node?_on_of_error herror]
  · obtain ⟨changed, hsame⟩ := exists_node?_on settings before step
    refine ⟨[FilePath.slash].intercalate changed, ?_⟩
    intro path content hpath
    rw [FileTree.mem_listing_iff hafter, FileTree.mem_listing_iff hbefore]
    refine exists_congr fun l => and_congr_right fun _ => and_congr_left ?_
    rintro rfl
    exact hsame l content fun heq => hpath (by rw [heq])
  · rintro origin file content reply rfl hanswer
    exact read_on_write settings before origin file hanswer

/-- A file beside a directory that is not there until it is written: the write makes the directory
only to turn back, and leaves the file beside it. -/
theorem steps_keep_listing_beside :
    let file := Text.ofString "x/../f"
    let before := (run {} .empty [.read .dataDirectory file]).2
    let written := (Step.write .dataDirectory file [0x31]).on {} before
    written.1 = .ok .done ∧
      written.2 = .directory (Text.ofString "data")
        (.directory (Text.ofString "x") .empty (.file (Text.ofString "f") [0x31] .empty)) .empty ∧
      ((Step.read .dataDirectory file).on {} written.2).1 = .ok (.content [0x31]) := by
  intro file before written
  have hok : written.1 = .ok .done := on_write_of_fault (by decide +kernel)
  obtain ⟨-, -, -, -, -, hread⟩ :=
    steps_keep_listing {} [.read .dataDirectory file] (.write .dataDirectory file [0x31])
  refine ⟨hok, ?_, hread _ _ _ _ rfl hok⟩
  decide +kernel

end Session

end JsonShelf
