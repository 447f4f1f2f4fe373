import JsonShelf.Proofs.Document.PrintedContent
import JsonShelf.Proofs.Json.Alphabet
import JsonShelf.Proofs.Service.Answer

/-!
# What was put lasts

A value that was put, and acknowledged, is answered as long as nobody puts something else over it:
at its path, above it or below it. All other requests may do what they like: write elsewhere in the
same document, write or fail to write other files, make directories on the way, or send nonsense.

The invariant is about the bytes of the file. They were printed from a document with the value at
the path, so every later request reads this very document, and what it puts elsewhere in the
document leaves the value where it is. The other files are not looked at.

JSON in the strict sense has no text for infinities and for what is no number. A value that holds
one of these lasts as well, but to ask for it is an internal error.

## Main definitions

* `Service.run` — the tree after requests
* `Service.Spares` — requests that put nothing over a path
* `Response.Gives` — the answer that holds a value

## Main results

* `Service.put_lasts` — a value that was put is answered after any requests that spare it
-/

namespace JsonShelf

/-- The value of a body is well formed. -/
theorem Body.wellFormed_of_read {body : Bytes} {v : Json} (h : Body.read body = .ok v) :
    v.WellFormed := by
  obtain ⟨t, -, h⟩ := bind_eq_ok_iff.1 h
  exact Json.wellFormed_of_read (mapError_eq_ok_iff.1 h)

namespace Document

variable {s : Settings} {p : Path} {v : Json} {content : Bytes}

/-! ### Content -/

/-- Files hold no halves of surrogate pairs, whatever the encoding. -/
theorem storable_of_print (hv : v.WellFormed) (h : print s v = .ok content) : v.Storable := by
  obtain ⟨e, -, hencode⟩ := exists_uses_of_print h
  refine (Json.storable_iff (Json.Style.plain_file s.indent) 0 hv).2 ?_
  exact fun c hc => (Encoding.exists_encode_iff.1 ⟨_, hencode⟩ c hc).not_isSurrogate

theorem Bears.exists_encode (h : Bears s p v content) :
    ∃ bytes, (Encoding.plain .utf8).encode (v.print Json.Style.compact) = .ok bytes := by
  obtain ⟨root, hroot, hprint, hget⟩ := h
  have hv := Json.hereditary_storable.get? (storable_of_print hroot hprint) hget
  exact (Json.storable_iff_exists_encode Json.Style.plain_compact hv.wellFormed).1 hv

end Document

namespace Service

variable {settings : Settings} {file : Text} {p : Path} {v : Json} {t : FileTree}

/-! ### The invariant -/

/-- The file is there, and its content bears `v` at `p`. -/
def Holds (settings : Settings) (file : Text) (p : Path) (v : Json) (t : FileTree) : Prop :=
  ∃ content, t.node? (location file) = some (.file content) ∧
    Document.Bears settings p v content

/-- A put that is done lays a value over the one at `p`: at its path, above it or below it. -/
def Overwrites (s : Service) (file : Text) (p : Path) (t : FileTree) (r : Request) : Prop :=
  r.method = .put ∧ (s.answer t r).2.status = 204 ∧
    FilePath.namesOf r.file = FilePath.namesOf file ∧
    ∃ q, Path.parse r.path = .ok q ∧ (q <+: p ∨ p <+: q)

/-- A file that is there is what a shelf reads. -/
theorem content_of_node? (settings : Settings) (hfile : Addresses file)
    (hnames : FileTree.Takes (location file)) {content : Bytes}
    (h : t.node? (location file) = some (.file content)) :
    (ofSettings settings).shelf.content t file = .ok (some content) := by
  rw [Shelf.content, resolve_of_addresses settings hfile, FileTree.read_of_node? hnames h]

/-- A put that is done makes the invariant hold. -/
theorem holds_of_put {r : Request} (hmethod : r.method = .put)
    (hstatus : ((ofSettings settings).answer t r).2.status = 204)
    (hv : Body.read r.body = .ok v) :
    ∃ p, Path.parse r.path = .ok p ∧ Addresses r.file ∧ FileTree.Takes (location r.file) ∧
      Holds settings r.file p v ((ofSettings settings).answer t r).1 := by
  rcases answer_cases (ofSettings settings) t r with ⟨-, hne⟩ | ⟨bytes, hwrites⟩
  · exact absurd hstatus (hne hmethod)
  · obtain ⟨value, content, hvalue, -, hwrite⟩ := hwrites.document
    rw [hv] at hvalue
    cases hvalue
    obtain ⟨p, hp, hbears⟩ := Document.bears_of_write (Body.wellFormed_of_read hv) hwrite
    have hfault := hwrites.status.1 hstatus
    have htree := hwrites.tree
    rw [resolve_of_addresses settings hwrites.addresses] at hfault htree
    obtain ⟨hnode, hnames⟩ :=
      FileTree.node?_write_self (up_not_mem_location hwrites.addresses) hfault
    rw [htree]
    exact ⟨p, hp, hwrites.addresses, hnames, bytes, hnode, hbears⟩

/-- No other request breaks the invariant. A write to the file itself starts from the document that
bears the value; one to another file does not touch this one. -/
theorem Holds.answer (hnames : FileTree.Takes (location file)) (h : Holds settings file p v t)
    {r : Request} (hspares : ¬ Overwrites (ofSettings settings) file p t r) :
    Holds settings file p v ((ofSettings settings).answer t r).1 := by
  obtain ⟨content, hnode, hbears⟩ := h
  rcases answer_cases (ofSettings settings) t r with ⟨htree, -⟩ | ⟨bytes, hwrites⟩
  · rw [htree]
    exact ⟨content, hnode, hbears⟩
  · have htree := hwrites.tree
    have hstatus := hwrites.status
    rw [resolve_of_addresses settings hwrites.addresses] at htree hstatus
    have hdown := up_not_mem_location hwrites.addresses
    rw [htree]
    by_cases hsame : FilePath.namesOf r.file = FilePath.namesOf file
    · have hlocation : location r.file = location file := by rw [location, hsame, location]
      by_cases hfault : (t.write (location r.file) bytes).fault = none
      · obtain ⟨value, found, hvalue, hfound, hwrite⟩ := hwrites.document
        have hcontent := content_of_node? settings hwrites.addresses
          (hlocation ▸ hnames) (hlocation ▸ hnode)
        rw [hcontent] at hfound
        cases hfound
        obtain ⟨hnode', -⟩ := FileTree.node?_write_self hdown hfault
        rw [hlocation] at hnode' ⊢
        refine ⟨bytes, hnode', hbears.write (Body.wellFormed_of_read hvalue) hwrite ?_⟩
        intro q hq hover
        exact hspares ⟨hwrites.method, hstatus.2 hfault, hsame, q, hq, hover⟩
      · exact ⟨content, FileTree.within_write_of_fault hfault _ _ hnode, hbears⟩
    · have hne : location file ≠ location r.file := by
        intro heq
        exact hsame (List.cons.inj heq).2.symm
      exact ⟨content, FileTree.node?_write_of_ne hdown hne hnode, hbears⟩

/-! ### Runs -/

/-- The tree after requests. -/
def run (s : Service) (t : FileTree) (requests : List Request) : FileTree :=
  requests.foldl (fun t r => (s.answer t r).1) t

/-- None of the requests is a put that is done and lays a value over the one at `p`. -/
def Spares (s : Service) (file : Text) (p : Path) : FileTree → List Request → Prop
  | _, [] => True
  | t, r :: requests => ¬ Overwrites s file p t r ∧ Spares s file p (s.answer t r).1 requests

theorem Holds.run (hnames : FileTree.Takes (location file)) (h : Holds settings file p v t)
    {requests : List Request}
    (hspares : Spares (ofSettings settings) file p t requests) :
    Holds settings file p v (run (ofSettings settings) t requests) := by
  induction requests generalizing t with
  | nil => exact h
  | cons r requests ih => exact ih (h.answer hnames hspares.1) hspares.2

/-! ### Answers -/

/-- The response holds the value in JSON and in UTF-8, or tells that there is no JSON for it. -/
def Response.Gives (response : Response) (v : Json) : Prop :=
  if v.allFinite then
    response.status = 200 ∧ response.contentType = some "application/json" ∧
      (∃ bytes, (Encoding.plain .utf8).encode response.body = .ok bytes) ∧
      Json.readDocument response.body = .ok v
  else response.status = 500 ∧ response.failure = some .notFinite

/-- Under the invariant, the value is what is answered. -/
theorem Holds.gives (hfile : Addresses file) (hnames : FileTree.Takes (location file))
    (h : Holds settings file p v t) {r : Request} (hmethod : r.method = .get) (hr : r.file = file)
    (hp : Path.parse r.path = .ok p) : (((ofSettings settings).answer t r).2).Gives v := by
  obtain ⟨content, hnode, hbears⟩ := h
  have hload : (ofSettings settings).shelf.load t r.file r.path = .ok v := by
    rw [Shelf.load, hr, content_of_node? settings hfile hnames hnode]
    exact hbears.load hp
  have hanswer : ((ofSettings settings).answer t r).2 = .ofValue v := by
    rw [Service.answer, hmethod]
    show (ofSettings settings).get t r = _
    rw [get, if_pos (hr ▸ hfile), hload]
  obtain ⟨bytes, hbytes⟩ := hbears.exists_encode
  rw [hanswer, Response.Gives, Response.ofValue]
  split
  · simp only [hbytes]
    exact ⟨rfl, rfl, ⟨bytes, hbytes⟩,
      Json.readDocument_print Json.Style.plain_compact hbears.wellFormed⟩
  · exact ⟨rfl, rfl⟩

/-- **No update is lost.** A value that was put, and acknowledged, is answered after any requests,
be they more puts to the same document, to other files or to none, as long as no put is done that
lays another value over it. -/
theorem put_lasts {r : Request} (hmethod : r.method = .put)
    (hstatus : ((ofSettings settings).answer t r).2.status = 204)
    (hv : Body.read r.body = .ok v) :
    ∃ p, Path.parse r.path = .ok p ∧ ∀ requests body,
      Spares (ofSettings settings) r.file p ((ofSettings settings).answer t r).1 requests →
        (((ofSettings settings).answer
          (run (ofSettings settings) ((ofSettings settings).answer t r).1 requests)
          ⟨.get, r.file, r.path, body⟩).2).Gives v := by
  obtain ⟨p, hp, hfile, hnames, hholds⟩ := holds_of_put hmethod hstatus hv
  refine ⟨p, hp, ?_⟩
  intro requests body hspares
  exact (hholds.run hnames hspares).gives hfile hnames rfl rfl hp

/-- A list in a document in UTF-16, a put beside it, and one that takes the document for a
directory. -/
theorem put_lasts_beside :
    let s := ofSettings ⟨none, Text.ofString "utf-16"⟩
    let r : Request := ⟨.put, Text.ofString "x", Text.ofString "a.b", [0x5B, 0x30, 0x5D]⟩
    let beside : Request := ⟨.put, Text.ofString "x", Text.ofString "a.c", [0x31]⟩
    let below : Request := ⟨.put, Text.ofString "x/y", Text.ofString "a", [0x31]⟩
    ((s.answer .empty r).2.status = 204 ∧ Body.read r.body = .ok (.arr [.int 0])) ∧
      (s.answer (s.run (s.answer .empty r).1 [beside, below]) ⟨.get, r.file, r.path, []⟩).2.Gives
        (.arr [.int 0]) := by
  intro s r beside below
  have hstatus : (s.answer .empty r).2.status = 204 := by decide +kernel
  have hv : Body.read r.body = .ok (.arr [.int 0]) := by with_unfolding_all rfl
  obtain ⟨p, hp, hlasts⟩ := put_lasts rfl hstatus hv
  refine ⟨⟨hstatus, hv⟩, hlasts [beside, below] [] ⟨?_, ?_, trivial⟩⟩
  · rintro ⟨-, -, -, q, hq, hover⟩
    have hpath : Path.parse r.path =
        .ok [.key (Text.ofString "a"), .key (Text.ofString "b")] := by with_unfolding_all rfl
    have hbeside : Path.parse beside.path =
        .ok [.key (Text.ofString "a"), .key (Text.ofString "c")] := by with_unfolding_all rfl
    rw [hpath] at hp
    rw [hbeside] at hq
    cases hp
    cases hq
    revert hover
    decide
  · rintro ⟨-, -, hnames, -⟩
    revert hnames
    decide

end Service

end JsonShelf
