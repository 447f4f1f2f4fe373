import JsonShelf.Proofs.FileTree.Agreement
import JsonShelf.Proofs.Service.Answer

/-!
# Requests stay inside of the data directory

Whatever a request asks for, it changes nothing outside of the data directory, and nothing outside
has a part in what it is answered or in what it leaves inside. The names that are followed are those
of the data directory and of a file name that is relative and has no double dots, so every look-up
is at the root, at the data directory or below it; and the root is a directory in every tree.

File names that could lead elsewhere are refused before the tree is looked at.

## Main definitions

* `Service.dataDirectory` — where the documents are
* `FileTree.AgreeBelow` — two trees have the same at a location and below it

## Main results

* `Service.requests_confined` — requests neither change nor depend on anything outside
-/

namespace JsonShelf

/-- Two trees have the same at `base` and below it. -/
def FileTree.AgreeBelow (base : Location) (t₁ t₂ : FileTree) : Prop :=
  ∀ l, base <+: l → t₁.node? l = t₂.node? l

namespace Shelf

variable {s : Shelf} {t₁ t₂ : FileTree} {file : Text}

/-- A shelf looks at a tree by reading. -/
theorem content_congr (h : t₁.read (s.resolve file) = t₂.read (s.resolve file)) :
    s.content t₁ file = s.content t₂ file := by
  rw [Shelf.content, Shelf.content, h]

end Shelf

namespace Service

open FileTree

variable {settings : Settings} {t t₁ t₂ : FileTree} {l : Location} {r : Request} {file : Text}

/-- Where the documents are. -/
def dataDirectory : Location := [Text.ofString "data"]

/-- What is on the way to a document is the root, or inside of the data directory. -/
theorem eq_nil_or_prefix_of_prefix_location (h : l <+: location file) :
    l = [] ∨ dataDirectory <+: l := by
  rcases List.prefix_cons_iff.1 h with hnil | ⟨rest, rfl, -⟩
  · exact .inl hnil
  · exact .inr (List.prefix_append dataDirectory rest)

theorem agreeAlong_of_agreeBelow (h : AgreeBelow dataDirectory t₁ t₂) (file : Text) :
    AgreeAlong (location file) t₁ t₂ := by
  intro l hl
  rcases eq_nil_or_prefix_of_prefix_location hl with rfl | hdata
  · rw [node?_nil, node?_nil]
  · exact h l hdata

/-! ### Changes -/

/-- What a request changes is inside of the data directory. -/
theorem node?_answer_of_outside (hl : ¬ dataDirectory <+: l) (settings : Settings)
    (t : FileTree) (r : Request) : ((ofSettings settings).answer t r).1.node? l = t.node? l := by
  rcases answer_cases (ofSettings settings) t r with ⟨htree, -⟩ | ⟨bytes, hwrites⟩
  · rw [htree]
  · rw [hwrites.tree, resolve_of_addresses settings hwrites.addresses]
    by_cases hnil : l = []
    · rw [hnil, node?_nil, node?_nil]
    · refine node?_write_of_not_onWay (up_not_mem_location hwrites.addresses) ?_ bytes
      intro hway
      exact (eq_nil_or_prefix_of_prefix_location hway).elim hnil hl

/-! ### Dependence -/

section

variable (h : AgreeBelow dataDirectory t₁ t₂) (haddress : Addresses file)

include h haddress

theorem content_of_agreeBelow (settings : Settings) :
    (ofSettings settings).shelf.content t₁ file = (ofSettings settings).shelf.content t₂ file := by
  refine Shelf.content_congr ?_
  rw [resolve_of_addresses settings haddress]
  exact (agreeAlong_of_agreeBelow h file).read (List.prefix_refl _) (up_not_mem_location haddress)

/-- A write to a document cannot tell trees apart that agree inside of the data directory. -/
theorem write_of_agreeBelow (bytes : Bytes) :
    (t₁.write (location file) bytes).fault = (t₂.write (location file) bytes).fault ∧
      AgreeBelow dataDirectory (t₁.write (location file) bytes).tree
        (t₂.write (location file) bytes).tree := by
  have hdown := up_not_mem_location haddress
  have hsame := (agreeAlong_of_agreeBelow h file).write hdown bytes
  refine ⟨hsame.fault, ?_⟩
  intro l hl
  by_cases hway : l <+: location file
  · exact hsame.tree l hway
  · rw [node?_write_of_not_onWay hdown hway, node?_write_of_not_onWay hdown hway]
    exact h l hl

theorem shelf_write_of_agreeBelow (settings : Settings) (path : Text) (value : Json) :
    ((ofSettings settings).shelf.write t₁ file path value).error =
        ((ofSettings settings).shelf.write t₂ file path value).error ∧
      AgreeBelow dataDirectory ((ofSettings settings).shelf.write t₁ file path value).tree
        ((ofSettings settings).shelf.write t₂ file path value).tree := by
  rw [Shelf.write, Shelf.write, ← content_of_agreeBelow h haddress settings,
    resolve_of_addresses settings haddress]
  dsimp only
  split
  · exact ⟨rfl, h⟩
  · next bytes _ =>
    obtain ⟨hfault, htree⟩ := write_of_agreeBelow h haddress bytes
    rw [hfault]
    exact ⟨rfl, htree⟩

end

/-- What is outside of the data directory has no part in an answer. -/
theorem answer_of_agreeBelow (h : AgreeBelow dataDirectory t₁ t₂) (settings : Settings)
    (r : Request) :
    ((ofSettings settings).answer t₁ r).2 = ((ofSettings settings).answer t₂ r).2 ∧
      AgreeBelow dataDirectory ((ofSettings settings).answer t₁ r).1
        ((ofSettings settings).answer t₂ r).1 := by
  rw [answer, answer]
  cases r.method with
  | other => exact ⟨rfl, h⟩
  | get =>
    refine ⟨?_, h⟩
    show (ofSettings settings).get t₁ r = (ofSettings settings).get t₂ r
    rw [get, get]
    split
    · next haddress => rw [Shelf.load, Shelf.load, content_of_agreeBelow h haddress settings]
    · rfl
  | put =>
    show ((ofSettings settings).put t₁ r).2 = ((ofSettings settings).put t₂ r).2 ∧
      AgreeBelow dataDirectory ((ofSettings settings).put t₁ r).1 ((ofSettings settings).put t₂ r).1
    rw [put, put]
    split
    · exact ⟨rfl, h⟩
    · next value _ =>
      split
      · next haddress =>
        obtain ⟨herror, htree⟩ := shelf_write_of_agreeBelow h haddress settings r.path value
        dsimp only
        rw [herror]
        split
        · exact ⟨rfl, htree⟩
        · exact ⟨rfl, htree⟩
      · exact ⟨rfl, h⟩

/-- **Requests are confined to the data directory.** Where a request changes the tree is the data
directory or below it; and in two trees that have the same there, it gets the same response and
leaves the same there. -/
theorem requests_confined (settings : Settings) (r : Request) :
    (∀ t l, ((ofSettings settings).answer t r).1.node? l ≠ t.node? l → dataDirectory <+: l) ∧
      ∀ t₁ t₂, AgreeBelow dataDirectory t₁ t₂ →
        ((ofSettings settings).answer t₁ r).2 = ((ofSettings settings).answer t₂ r).2 ∧
          AgreeBelow dataDirectory ((ofSettings settings).answer t₁ r).1
            ((ofSettings settings).answer t₂ r).1 := by
  constructor
  · intro t l hchanged
    by_cases hl : dataDirectory <+: l
    · exact hl
    · exact absurd (node?_answer_of_outside hl settings t r) hchanged
  · intro t₁ t₂ hagree
    exact answer_of_agreeBelow hagree settings r

/-- A put into a data directory that is not there yet, with and without a file beside it. -/
theorem requests_confined_beside_file :
    let s := ofSettings {}
    let beside : FileTree := .file (Text.ofString "secret") [0x31] .empty
    let r : Request := ⟨.put, Text.ofString "x", [], [0x32]⟩
    AgreeBelow dataDirectory .empty beside ∧ (s.answer .empty r).2.status = 204 ∧
      (s.answer beside r).2.status = 204 ∧
      AgreeBelow dataDirectory (s.answer .empty r).1 (s.answer beside r).1 := by
  intro s beside r
  have hagree : AgreeBelow dataDirectory .empty beside := by
    rintro _ ⟨rest, rfl⟩
    exact (node?_file_of_ne (by decide) ..).symm
  have hstatus : (s.answer .empty r).2.status = 204 := by decide +kernel
  obtain ⟨hanswer, htree⟩ := (requests_confined {} r).2 .empty beside hagree
  refine ⟨hagree, hstatus, ?_, htree⟩
  rw [← hanswer]
  exact hstatus

end Service

end JsonShelf
