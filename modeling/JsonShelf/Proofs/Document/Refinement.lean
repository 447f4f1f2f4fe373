import JsonShelf.Document
import JsonShelf.Proofs.Encoding.RoundTrip
import JsonShelf.Proofs.Except
import JsonShelf.Proofs.Json.RoundTrip

/-!
# Documents as trees in memory

A document is a file, and every call starts from its bytes and ends with them. Seen from outside
there is no difference to a tree that stays in memory: the same calls get the same answers, and
whenever one looks at the file, its bytes stand for the tree.

The tree lacks what a failing write has made on its way, as this never gets to the file. It also
does not change when its text has no bytes in the encoding of the file, so the encoding is a part of
what a call does to the tree. The text itself is not: reading undoes printing for every value that
is well formed, which readers guarantee and writes keep.

## Main definitions

* `Settings.Uses` — the encoding that a label stands for
* `Document.Call`, `Call.onFile`, `Call.onTree` — a call on the bytes of a file and on a tree
* `Document.StandsFor` — when a file is a tree

## Main results

* `Document.read_of_print` — content that was printed is read as what was printed
* `Document.calls_refine_tree` — runs of calls on a file and on a tree agree
-/

namespace JsonShelf

/-- The label in the settings can be looked up, and stands for the encoding `e`. -/
structure Settings.Uses (s : Settings) (e : Encoding) : Prop where
  label : Document.checkLabel s.encoding = .ok ()
  encoding : Encoding.ofLabel? s.encoding = some e

/-- Every encoding can be used by its name. -/
theorem Settings.uses_name (indent : Option Int) :
    ∀ entry ∈ Encoding.entries,
      Settings.Uses ⟨indent, Text.ofString entry.name⟩ entry.encoding := by
  intro entry h
  have hlabel : Document.checkLabel (Text.ofString entry.name) = .ok () := by
    revert entry
    decide
  have hencoding : Encoding.ofLabel? (Text.ofString entry.name) = some entry.encoding := by
    revert entry
    decide +kernel
  exact ⟨hlabel, hencoding⟩

namespace Document

variable {s : Settings} {e : Encoding}

/-! ### Storing and reading back -/

theorem encodingOf_eq_ok_iff {label : Text} :
    encodingOf label = .ok e ↔ Encoding.ofLabel? label = some e := by
  rw [encodingOf]
  cases Encoding.ofLabel? label with
  | some e' => rw [Except.ok.injEq, Option.some.injEq]
  | none => exact ⟨nofun, nofun⟩

theorem print_of_uses (hs : s.Uses e) (v : Json) :
    print s v = (e.encode (v.print (Json.Style.file s.indent))).mapError .unencodable := by
  rw [print, hs.label, encodingOf, hs.encoding]
  rfl

/-- Only settings with an encoding print anything. -/
theorem exists_uses_of_print {v : Json} {content : Bytes} (h : print s v = .ok content) :
    ∃ e, s.Uses e ∧ e.encode (v.print (Json.Style.file s.indent)) = .ok content := by
  obtain ⟨_, hlabel, h⟩ := bind_eq_ok_iff.1 h
  obtain ⟨e, hencoding, h⟩ := bind_eq_ok_iff.1 h
  exact ⟨e, ⟨hlabel, encodingOf_eq_ok_iff.1 hencoding⟩, mapError_eq_ok_iff.1 h⟩

theorem decode_nil (e : Encoding) : e.decode [] = .ok [] := by
  cases e <;> simp [Encoding.decode, Encoding.decodeWith, Encoding.opening, Encoding.pieces_nil] <;>
    rfl

/-- Content without bytes is no exception, as it is the empty text in every encoding. -/
theorem decode_of_uses (hs : s.Uses e) {t : Text} {content : Bytes}
    (h : e.decode content = .ok t) : decode s.encoding content = .ok t := by
  rw [decode, hs.label]
  by_cases hempty : content = []
  · rw [hempty, decode_nil] at h
    cases h
    simp only [hempty, if_pos]
    rfl
  · simp only [if_neg hempty, encodingOf, hs.encoding]
    show decodeIn s.encoding e content = .ok t
    rw [decodeIn, h]
    rfl

theorem decode_of_encode (hs : s.Uses e) {t : Text} {content : Bytes}
    (h : e.encode t = .ok content) : decode s.encoding content = .ok t :=
  decode_of_uses hs (Encoding.decode_of_encode h)

/-- **Content that was printed is read as what was printed.** -/
theorem read_of_print {v : Json} {content : Bytes} (hv : v.WellFormed)
    (h : print s v = .ok content) : read s content = .ok v := by
  obtain ⟨e, hs, hencode⟩ := exists_uses_of_print h
  rw [read, decode_of_encode hs hencode]
  show ofText (v.print (Json.Style.file s.indent)) = .ok v
  rw [ofText, Json.readDocument_print (Json.Style.plain_file s.indent) hv]
  rfl

/-- What is read from a file is well formed. -/
theorem wellFormed_of_read {v : Json} {content : Bytes} (h : read s content = .ok v) :
    v.WellFormed := by
  obtain ⟨t, -, h⟩ := bind_eq_ok_iff.1 h
  exact Json.wellFormed_of_readDocument (mapError_eq_ok_iff.1 h)

/-! ### Calls -/

/-- The value of a tree at the path that an expression writes. -/
def lookUp (root : Option Json) (expression : Text) : Except Error Json :=
  match root, path expression with
  | none, _ => .error (.file .notFound)
  | some _, .error fault => .error fault
  | some t, .ok p => (t.get? p).elim (.error .invalidPath) .ok

/-- One use of a document. -/
inductive Call
  /-- Ask for the value at the path that an expression writes. -/
  | load (expression : Text)
  /-- Put a value at the path that an expression writes. -/
  | write (expression : Text) (value : Json)

/-- The answer to a call: a value that was asked for, or nothing after a write. -/
abbrev Answer := Except Error (Option Json)

namespace Call

/-- The values that a call brings along are ones that can be read from a text. -/
def Readable : Call → Prop
  | load _ => True
  | write _ value => ∃ t, Json.read t = .ok value

/-- The answer to a call on a file, and the file after it. -/
def onFile (s : Settings) (file : Option Bytes) : Call → Answer × Option Bytes
  | load expression => ((Document.load s file expression).map some, file)
  | write expression value =>
    match Document.write s file expression value with
    | .ok content => (.ok none, some content)
    | .error fault => (.error fault, file)

/-- The answer to a call on a tree, and the tree after it. A write changes the tree if its path can
be written to and the new tree has a text in the encoding. -/
def onTree (indent : Option Int) (e : Encoding) (root : Option Json) :
    Call → Answer × Option Json
  | load expression => ((lookUp root expression).map some, root)
  | write expression value =>
    match path expression with
    | .error fault => (.error fault, root)
    | .ok p =>
      let written := (root.getD (.obj [])).write p value
      if written.done then
        match e.encode (written.root.print (Json.Style.file indent)) with
        | .error u => (.error (.unencodable u), root)
        | .ok _ => (.ok none, some written.root)
      else (.error .invalidPath, root)

end Call

/-- The answers to calls one after the other, and the state that they leave. -/
def run {σ : Type} (step : σ → Call → Answer × σ) : σ → List Call → List Answer × σ
  | state, [] => ([], state)
  | state, call :: calls =>
    let answered := step state call
    let rest := run step answered.2 calls
    (answered.1 :: rest.1, rest.2)

theorem run_cons {σ : Type} (step : σ → Call → Answer × σ) (state : σ) (call : Call)
    (calls : List Call) :
    run step state (call :: calls) =
      ((step state call).1 :: (run step (step state call).2 calls).1,
        (run step (step state call).2 calls).2) := rfl

/-- A file stands for a tree if its content is read as the tree. A missing file stands for none. -/
inductive StandsFor (s : Settings) : (file : Option Bytes) → (root : Option Json) → Prop
  | missing : StandsFor s none none
  | content {bytes : Bytes} {root : Json} (h : read s bytes = .ok root) :
    StandsFor s (some bytes) (some root)

/-! ### Refinement -/

variable {file : Option Bytes} {root : Option Json} {expression : Text} {p : Path}

theorem StandsFor.unique {root' : Option Json} (h : StandsFor s file root)
    (h' : StandsFor s file root') : root = root' := by
  obtain _ | hread := h
  · obtain _ | _ := h'
    rfl
  · obtain _ | hread' := h'
    rw [hread] at hread'
    cases hread'
    rfl

/-- What a write to a file starts from. -/
theorem StandsFor.wellFormed_getD (h : StandsFor s file root) :
    (root.getD (.obj [])).WellFormed := by
  obtain _ | hread := h
  · exact .nil
  · exact wellFormed_of_read hread

/-- What a write to a file does once the path is known. -/
theorem write_of_standsFor (h : StandsFor s file root) (hp : path expression = .ok p)
    (value : Json) :
    write s file expression value =
      if ((root.getD (.obj [])).write p value).done then
        print s ((root.getD (.obj [])).write p value).root
      else .error .invalidPath := by
  obtain _ | hread := h
  · rw [write, hp]
    rfl
  · rw [write, hread, hp]
    rfl

/-- A write to a file starts with the path as soon as the content is read. -/
theorem write_of_path_error (h : StandsFor s file root) {fault : Error}
    (hp : path expression = .error fault) (value : Json) :
    write s file expression value = .error fault := by
  obtain _ | hread := h
  · rw [write, hp]
    rfl
  · rw [write, hread, hp]
    rfl

theorem load_of_standsFor (h : StandsFor s file root) (expression : Text) :
    load s file expression = lookUp root expression := by
  obtain _ | @⟨bytes, root, hread⟩ := h
  · rfl
  · rw [load, hread]
    cases hp : path expression with
    | error fault =>
      simp only [lookUp, hp]
      rfl
    | ok p =>
      cases hv : root.get? p with
      | none => simp only [lookUp, hp, hv, Option.elim_none, bind, Except.bind]
      | some v => simp only [lookUp, hp, hv, Option.elim_some, bind, Except.bind]

/-- What an expression finds in a tree, once the path is known. -/
theorem lookUp_of_parse (hp : Path.parse expression = .ok p) (t : Json) :
    lookUp (some t) expression = (t.get? p).elim (.error .invalidPath) .ok := by
  have hpath : path expression = .ok p := mapError_eq_ok_iff.2 hp
  simp only [lookUp, hpath]

/-- What is wrong with the content is told by every load, whatever the expression. -/
theorem load_of_read_error {content : Bytes} {fault : Error} (h : read s content = .error fault)
    (expression : Text) : load s (some content) expression = .error fault :=
  bind_eq_error_iff.2 (.inl h)

/-- It is told by every write too. -/
theorem write_of_read_error {content : Bytes} {fault : Error} (h : read s content = .error fault)
    (expression : Text) (value : Json) :
    write s (some content) expression value = .error fault :=
  bind_eq_error_iff.2 (.inl h)

/-- What a load has found when it comes to an end. -/
theorem exists_of_load {content : Bytes} {v : Json}
    (h : load s (some content) expression = .ok v) :
    ∃ root p, read s content = .ok root ∧ path expression = .ok p ∧ root.get? p = some v := by
  obtain ⟨root, hread, h⟩ := bind_eq_ok_iff.1 h
  obtain ⟨p, hp, h⟩ := bind_eq_ok_iff.1 h
  split at h
  · cases h
  · next v' hv =>
    cases h
    exact ⟨root, p, hread, hp, hv⟩

/-- What a write has found and done when it comes to an end. -/
theorem exists_of_write {value : Json} {content : Bytes}
    (h : write s file expression value = .ok content) :
    ∃ root p, StandsFor s file root ∧ Path.parse expression = .ok p ∧
      ((root.getD (.obj [])).write p value).done = true ∧
      print s ((root.getD (.obj [])).write p value).root = .ok content := by
  obtain ⟨root, hroot⟩ : ∃ root, StandsFor s file root := by
    cases file with
    | none => exact ⟨none, .missing⟩
    | some bytes =>
      obtain ⟨root, hread, -⟩ := bind_eq_ok_iff.1 h
      exact ⟨some root, .content hread⟩
  cases hp : path expression with
  | error fault =>
    rw [write_of_path_error hroot hp] at h
    cases h
  | ok p =>
    rw [write_of_standsFor hroot hp] at h
    split at h
    · next hdone => exact ⟨root, p, hroot, mapError_eq_ok_iff.1 hp, hdone, h⟩
    · cases h

/-- One call on a file is one on the tree that the file stands for. -/
theorem StandsFor.step (hs : s.Uses e) (h : StandsFor s file root) {call : Call}
    (hcall : call.Readable) :
    (call.onFile s file).1 = (call.onTree s.indent e root).1 ∧
      StandsFor s (call.onFile s file).2 (call.onTree s.indent e root).2 := by
  cases call with
  | load expression =>
    rw [Call.onFile, Call.onTree, load_of_standsFor h]
    exact ⟨rfl, h⟩
  | write expression value =>
    obtain ⟨t, ht⟩ := hcall
    cases hp : path expression with
    | error fault =>
      simp only [Call.onFile, Call.onTree, write_of_path_error h hp, hp]
      exact ⟨trivial, h⟩
    | ok p =>
      have hwrite := write_of_standsFor h hp value
      by_cases hdone : ((root.getD (.obj [])).write p value).done = true
      · rw [if_pos hdone, print_of_uses hs] at hwrite
        cases hbytes : e.encode
            (((root.getD (.obj [])).write p value).root.print (Json.Style.file s.indent)) with
        | error u =>
          rw [hbytes] at hwrite
          simp only [Call.onFile, Call.onTree, hp, hwrite, if_pos hdone, hbytes, Except.mapError]
          exact ⟨trivial, h⟩
        | ok content =>
          have hroot := h.wellFormed_getD.write p (Json.wellFormed_of_read ht)
          have hprint : print s ((root.getD (.obj [])).write p value).root = .ok content := by
            rw [print_of_uses hs, hbytes]
            rfl
          rw [hbytes] at hwrite
          simp only [Call.onFile, Call.onTree, hp, hwrite, if_pos hdone, hbytes, Except.mapError]
          exact ⟨trivial, .content (read_of_print hroot hprint)⟩
      · rw [if_neg hdone] at hwrite
        simp only [Call.onFile, Call.onTree, hp, hwrite, if_neg hdone]
        exact ⟨trivial, h⟩

/-- **A document is a tree in memory.** Any calls on a file get the answers that they get on the
tree that the file stands for, and the file stands for the tree afterwards. As every beginning of a
run is a run, this holds after each of the calls. -/
theorem calls_refine_tree (hs : s.Uses e) (h : StandsFor s file root) {calls : List Call}
    (hcalls : ∀ call ∈ calls, call.Readable) :
    (run (Call.onFile s) file calls).1 = (run (Call.onTree s.indent e) root calls).1 ∧
      StandsFor s (run (Call.onFile s) file calls).2
        (run (Call.onTree s.indent e) root calls).2 := by
  induction calls generalizing file root with
  | nil => exact ⟨rfl, h⟩
  | cons call calls ih =>
    obtain ⟨hcall, hcalls⟩ := List.forall_mem_cons.1 hcalls
    obtain ⟨hanswer, hnext⟩ := StandsFor.step hs h hcall
    obtain ⟨hanswers, hlast⟩ := ih hnext hcalls
    rw [run_cons, run_cons]
    exact ⟨by rw [hanswer, hanswers], hlast⟩

/-- A missing file in UTF-16: a write that fails halfway, one that does not, and a look at it. -/
theorem calls_refine_tree_utf16 :
    let s : Settings := ⟨none, Text.ofString "utf-16"⟩
    let calls : List Call :=
      [.write (Text.ofString "a.b[0]") (.str (Text.ofString "é")),
        .write (Text.ofString "a.b") (.str (Text.ofString "é")), .load (Text.ofString "a")]
    (run (Call.onFile s) none calls).1 = (run (Call.onTree none .utf16Marked) none calls).1 ∧
      StandsFor s (run (Call.onFile s) none calls).2
        (run (Call.onTree none .utf16Marked) none calls).2 := by
  intro s calls
  have hs : s.Uses .utf16Marked :=
    Settings.uses_name none ⟨.utf16Marked, "utf-16", ["utf16", "u16"]⟩ (by decide)
  have hfile : StandsFor s none none := .missing
  have hvalue : ∃ t, Json.read t = .ok (.str (Text.ofString "é")) :=
    ⟨_, Json.read_print Json.Style.plain_compact (.str (Text.ofString "é"))⟩
  refine calls_refine_tree hs hfile ?_
  intro call hcall
  simp only [calls, List.mem_cons, List.not_mem_nil, or_false] at hcall
  rcases hcall with rfl | rfl | rfl
  · exact hvalue
  · exact hvalue
  · exact trivial

end Document

end JsonShelf
