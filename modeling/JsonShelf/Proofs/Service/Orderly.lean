import JsonShelf.Proofs.FileTree.ReadBack
import JsonShelf.Proofs.Service.FailedRequest
import JsonShelf.Proofs.Service.LastingWrite

/-!
# Trees that requests leave

What puts leave in a tree are the texts of documents, and nothing else is in a file of a tree that
was empty at first. As long as only finite numbers are put, they are documents with finite numbers.
So a name that file systems take leads to such a document, or to none, or something is in the way;
and what was put once is found from then on.

The documents may be in any encoding. There is none that has the halves of surrogate pairs, so every
document that is found has a text in UTF-8 as well.

## Main definitions

* `Service.Orderly` — trees whose files are texts of documents with finite numbers
* `Service.Finds`, `Service.Blocked` — the document that is found under a name, if any can be

## Main results

* `Service.Orderly.answer`, `Service.Orderly.run` — requests keep trees orderly
* `Service.Orderly.finds_or_blocked` — what a name leads to
* `Service.Orderly.finds_of_put` — what was put is found
-/

namespace JsonShelf

namespace Service

open Document (StandsFor lookUp)

variable {settings : Settings} {t : FileTree} {r : Request} {file : Text} {root : Option Json}

/-! ### The invariant -/

/-- The numbers that a request puts are finite. -/
def Request.Finite (r : Request) : Prop :=
  r.method = .put → ∀ v, Body.read r.body = .ok v → v.allFinite

/-- All files are texts of documents in which all numbers are finite. -/
def Orderly (settings : Settings) (t : FileTree) : Prop :=
  ∀ l content, t.node? l = some (.file content) →
    ∃ root : Json, root.WellFormed ∧ root.allFinite ∧
      Document.print settings root = .ok content

theorem orderly_empty (settings : Settings) : Orderly settings .empty := by
  intro l content h
  cases l <;> cases h

/-- The document that is found under a name, if there is one. It can be answered with, and it can be
stored again. -/
structure Finds (settings : Settings) (t : FileTree) (file : Text) (root : Option Json) : Prop where
  content : ∃ content, (ofSettings settings).shelf.content t file = .ok content ∧
    StandsFor settings content root
  storable : (root.getD (.obj [])).Storable
  finite : (root.getD (.obj [])).allFinite

/-- Under the invariant, a document is found wherever a file is read or missed. -/
theorem Orderly.exists_finds (h : Orderly settings t) (haddress : Addresses file)
    {content : Option Bytes}
    (hcontent : (ofSettings settings).shelf.content t file = .ok content) :
    ∃ root, Finds settings t file root := by
  cases content with
  | none => exact ⟨none, ⟨none, hcontent, .missing⟩, Json.storable_nil, rfl⟩
  | some bytes =>
    have hread := Shelf.read_of_content_some hcontent
    rw [resolve_of_addresses _ haddress] at hread
    obtain ⟨hnode, -⟩ := FileTree.node?_of_read (up_not_mem_location haddress) hread
    obtain ⟨root, hroot, hfinite, hprint⟩ := h _ _ hnode
    exact ⟨some root, ⟨some bytes, hcontent, .content (Document.read_of_print hroot hprint)⟩,
      Document.storable_of_print hroot hprint, hfinite⟩

/-- **One request keeps a tree orderly** if the numbers that it puts are finite. -/
theorem Orderly.answer (h : Orderly settings t) (hr : r.Finite) :
    Orderly settings ((ofSettings settings).answer t r).1 := by
  rcases answer_cases (ofSettings settings) t r with ⟨htree, -⟩ | ⟨bytes, hwrites⟩
  · rw [htree]
    exact h
  · obtain ⟨value, content, hvalue, hcontent, hwrite⟩ := hwrites.document
    obtain ⟨root, ⟨content', hcontent', hstands⟩, -, hfinite⟩ :=
      h.exists_finds hwrites.addresses hcontent
    rw [hcontent] at hcontent'
    cases hcontent'
    obtain ⟨root', p, hstands', -, -, hprint⟩ := Document.exists_of_write hwrite
    cases hstands.unique hstands'
    rw [hwrites.tree, resolve_of_addresses _ hwrites.addresses]
    intro l content' hnode
    rcases FileTree.node?_write_cases t bytes (up_not_mem_location hwrites.addresses) l with
      ⟨-, -, hnew⟩ | hsame | ⟨-, hdirectory, -⟩
    · rw [hnew] at hnode
      cases hnode
      exact ⟨_, hstands.wellFormed_getD.write p (Body.wellFormed_of_read hvalue),
        Json.hereditary_allFinite.write hfinite (fun _ _ => trivial)
          (hr hwrites.method value hvalue), hprint⟩
    · exact h l content' (hsame ▸ hnode)
    · rw [hdirectory] at hnode
      cases hnode

/-- **Any requests keep a tree orderly** if the numbers that they put are finite. -/
theorem Orderly.run (h : Orderly settings t) {requests : List Request}
    (hfinite : ∀ q ∈ requests, q.Finite) :
    Orderly settings (run (ofSettings settings) t requests) := by
  induction requests generalizing t with
  | nil => exact h
  | cons r requests ih =>
    obtain ⟨hr, hrequests⟩ := List.forall_mem_cons.1 hfinite
    exact ih (h.answer hr) hrequests

/-! ### What a name leads to -/

/-- The file of a document cannot be looked at, because a file is in the way or a directory in its
place. -/
def Blocked (settings : Settings) (t : FileTree) (file : Text) : Prop :=
  ∃ fault, (fault = .notDirectory ∨ fault = .isDirectory) ∧
    (ofSettings settings).shelf.content t file = .error (.file fault)

/-- Names that file systems take lead to a document unless something is in the way. -/
theorem Orderly.finds_or_blocked (h : Orderly settings t) (haddress : Addresses file)
    (htakes : FileTree.Takes (location file)) :
    (∃ root, Finds settings t file root) ∨ Blocked settings t file := by
  cases hcontent : (ofSettings settings).shelf.content t file with
  | ok content => exact .inl (h.exists_finds haddress hcontent)
  | error e =>
    obtain ⟨fault, rfl, hne, hread⟩ := Shelf.read_of_content_error hcontent
    rw [resolve_of_addresses _ haddress] at hread
    exact .inr ⟨fault, (FileTree.fault_of_read htakes hread).resolve_left hne, hcontent⟩

theorem Finds.load (h : Finds settings t file root) (expression : Text) :
    (ofSettings settings).shelf.load t file expression = lookUp root expression := by
  obtain ⟨content, hcontent, hstands⟩ := h.content
  rw [Shelf.load, hcontent]
  exact Document.load_of_standsFor hstands expression

theorem Blocked.load (h : Blocked settings t file) (expression : Text) :
    ∃ fault, (fault = .notDirectory ∨ fault = .isDirectory) ∧
      (ofSettings settings).shelf.load t file expression = .error (.file fault) := by
  obtain ⟨fault, hfault, hcontent⟩ := h
  refine ⟨fault, hfault, ?_⟩
  rw [Shelf.load, hcontent]
  rfl

/-- The whole document is at the empty path. -/
theorem lookUp_nil (root : Option Json) :
    lookUp root [] = root.elim (.error (.file .notFound)) .ok := by
  have hpath : Document.path [] = .ok [] := by with_unfolding_all rfl
  cases root with
  | none => rfl
  | some d => simp only [lookUp, hpath, Json.get?_nil, Option.elim_some]

/-! ### What was put -/

/-- Requests take nothing out of a tree. -/
theorem keeps_answer (s : Service) (t : FileTree) (r : Request) :
    FileTree.Keeps t (s.answer t r).1 := by
  rcases answer_cases s t r with ⟨htree, -⟩ | ⟨bytes, hwrites⟩
  · rw [htree]
    exact FileTree.Keeps.refl t
  · rw [hwrites.tree]
    exact FileTree.keeps_write t _ bytes

theorem keeps_run (s : Service) (t : FileTree) (requests : List Request) :
    FileTree.Keeps t (run s t requests) := by
  induction requests generalizing t with
  | nil => exact FileTree.Keeps.refl t
  | cons r requests ih => exact (keeps_answer s t r).trans (ih _)

/-- A document that was put is there as long as the tree is orderly. -/
theorem Orderly.finds_of_put {t' : FileTree} (h : Orderly settings t') (hmethod : r.method = .put)
    (hstatus : ((ofSettings settings).answer t r).2.status = 204)
    (hkeeps : FileTree.Keeps ((ofSettings settings).answer t r).1 t') :
    Addresses r.file ∧ ∃ d, Finds settings t' r.file (some d) := by
  rcases answer_cases (ofSettings settings) t r with ⟨-, hne⟩ | ⟨bytes, hwrites⟩
  · exact absurd hstatus (hne hmethod)
  · have hfault := hwrites.status.1 hstatus
    have htree := hwrites.tree
    have haddress := hwrites.addresses
    rw [resolve_of_addresses _ haddress] at hfault htree
    obtain ⟨hnode, htakes⟩ := FileTree.node?_write_self (up_not_mem_location haddress) hfault
    rw [← htree] at hnode
    obtain ⟨node, hnode', hkind⟩ := hkeeps _ _ hnode
    cases node with
    | directory => exact absurd (hkind.1 rfl) nofun
    | file content =>
      have hcontent := content_of_node? settings haddress htakes hnode'
      obtain ⟨root, hfinds⟩ := h.exists_finds haddress hcontent
      obtain ⟨content', hcontent', hstands⟩ := hfinds.content
      rw [hcontent] at hcontent'
      cases hcontent'
      cases hstands with
      | @content _ d hread => exact ⟨haddress, d, hfinds⟩

end Service

end JsonShelf
