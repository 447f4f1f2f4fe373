import JsonShelf.Json.Printer
import JsonShelf.Proofs.Json.Write

/-!
# What a document has in common with its parts

Properties that say something of every value in a document, such as that no number in it is too
large, are kept by everything that is done with the document. What is read at a path has such a
property as well, and a write of a value that has it leaves a document that has it.

Some of these properties also say something of the names in objects. A write brings in the names of
its path, so they are what has to be asked of the path.

## Main definitions

* `Json.Hereditary` — a property of values and of the names in them

## Main results

* `Hereditary.get?`, `Hereditary.write` — what is read and what a write leaves
* `hereditary_allFinite` — an example: that no number is infinite or none at all
-/

namespace JsonShelf

namespace KeyedList

variable {α β : Type} [DecidableEq α]

theorem mem_of_find? {key : α} {value : β} {entries : KeyedList α β}
    (h : find? key entries = some value) : (key, value) ∈ entries := by
  induction entries with
  | nil => cases h
  | cons entry rest ih =>
    rw [find?] at h
    split at h
    · next hkey =>
      cases h
      rw [← hkey]
      exact List.mem_cons_self ..
    · exact List.mem_cons_of_mem _ (ih h)

/-- An entry after an insertion is the new one or one of before. -/
theorem mem_insert {key : α} {value : β} {entries : KeyedList α β} {entry : α × β}
    (h : entry ∈ insert key value entries) : entry = (key, value) ∨ entry ∈ entries := by
  induction entries with
  | nil => exact .inl (List.mem_singleton.1 h)
  | cons first rest ih =>
    rw [insert] at h
    split at h
    · rcases List.mem_cons.1 h with h | h
      · exact .inl h
      · exact .inr (List.mem_cons_of_mem _ h)
    · rcases List.mem_cons.1 h with h | h
      · exact .inr (h ▸ List.mem_cons_self ..)
      · exact (ih h).imp id (List.mem_cons_of_mem _)

end KeyedList

namespace Json

/-- Values with the property `P` have parts with the property `P`, and they are put together from
such parts and from names with the property `N`. -/
structure Hereditary (N : Text → Prop) (P : Json → Prop) : Prop where
  item {items : List Json} (h : P (arr items)) : ∀ item ∈ items, P item
  array {items : List Json} (h : ∀ item ∈ items, P item) : P (arr items)
  member {members : Members} (h : P (obj members)) : ∀ m ∈ members, P m.2
  nil : P (obj [])
  insert {members : Members} {name : Text} {x : Json} (h : P (obj members)) (hname : N name)
    (hx : P x) : P (obj (KeyedList.insert name x members))

/-- A property of an object that it has by its members is kept by an insertion. -/
theorem Hereditary.of_iff {N : Text → Prop} {P : Json → Prop}
    (harr : ∀ items, P (arr items) ↔ ∀ item ∈ items, P item)
    (hobj : ∀ members, P (obj members) ↔ ∀ m ∈ members, N m.1 ∧ P m.2) : Hereditary N P where
  item h := (harr _).1 h
  array h := (harr _).2 h
  member h m hm := ((hobj _).1 h m hm).2
  nil := (hobj []).2 nofun
  insert h hname hx := by
    refine (hobj _).2 ?_
    intro m hm
    rcases KeyedList.mem_insert hm with rfl | hm
    · exact ⟨hname, hx⟩
    · exact (hobj _).1 h m hm

/-- A step leads to an item of an array or to the value of a member of an object. -/
theorem exists_of_child? {t c : Json} {s : Segment} (h : t.child? s = some c) :
    (∃ items, t = arr items ∧ c ∈ items) ∨
      ∃ members name, t = obj members ∧ (name, c) ∈ members := by
  cases t with
  | arr items =>
    cases s with
    | key name => cases h
    | index i =>
      rw [Json.child?] at h
      split at h
      · exact .inl ⟨items, rfl, List.mem_of_getElem? h⟩
      · cases h
  | obj members =>
    cases s with
    | key name => exact .inr ⟨members, name, rfl, KeyedList.mem_of_find? h⟩
    | index i => cases h
  | _ => cases s <;> cases h

namespace Hereditary

variable {N : Text → Prop} {P : Json → Prop} {t c v x : Json} {s : Segment} {p : Path}

/-! ### Reading -/

theorem child? (hP : Hereditary N P) (ht : P t) (h : t.child? s = some c) : P c := by
  rcases exists_of_child? h with ⟨items, rfl, hitem⟩ | ⟨members, name, rfl, hmember⟩
  · exact hP.item ht c hitem
  · exact hP.member ht _ hmember

/-- **What is at a path has the property of the document.** -/
theorem get? (hP : Hereditary N P) (ht : P t) (h : t.get? p = some v) : P v := by
  induction p generalizing t with
  | nil =>
    rw [get?_nil, Option.some.injEq] at h
    exact h ▸ ht
  | cons s p ih =>
    rw [get?_cons] at h
    obtain ⟨c, hc, hget⟩ := Option.bind_eq_some_iff.1 h
    exact ih (hP.child? ht hc) hget

/-! ### Writing -/

theorem descend? (hP : Hereditary N P) (ht : P t) (h : t.descend? s = some c) : P c := by
  cases hchild : t.child? s with
  | some c' =>
    rw [descend?_of_child? hchild, Option.some.injEq] at h
    exact h ▸ hP.child? ht hchild
  | none =>
    rw [(descend?_of_child?_eq_none hchild h).1]
    exact hP.nil

theorem replaceChild (hP : Hereditary N P) (ht : P t) (hc : t.descend? s = some c)
    (hs : ∀ name, s = .key name → N name) (hx : P x) : P (t.replaceChild s x) := by
  rcases exists_of_descend? hc with ⟨members, name, rfl, rfl, -⟩ | ⟨items, i, rfl, rfl, -, -⟩
  · exact hP.insert ht (hs name rfl) hx
  · refine hP.array ?_
    intro item hitem
    rcases List.mem_or_eq_of_mem_set hitem with hitem | rfl
    · exact hP.item ht item hitem
    · exact hx

/-- **A write of a value with the property leaves a document with the property.** -/
theorem write (hP : Hereditary N P) (ht : P t) (hp : ∀ name, .key name ∈ p → N name) (hv : P v) :
    P (t.write p v).root := by
  induction p generalizing t with
  | nil =>
    rw [write_nil]
    exact hv
  | cons s p ih =>
    cases hc : t.descend? s with
    | none => rwa [write_cons_of_descend?_eq_none hc]
    | some c =>
      rw [write_cons_of_descend? hc]
      refine hP.replaceChild ht hc (fun name hs => hp name (hs ▸ List.mem_cons_self ..)) ?_
      exact ih (hP.descend? ht hc) fun name hname => hp name (List.mem_cons_of_mem _ hname)

end Hereditary

/-! ### Finite values -/

theorem allItemsFinite_iff {items : List Json} :
    allItemsFinite items ↔ ∀ item ∈ items, item.allFinite := by
  induction items with
  | nil => simp [allItemsFinite]
  | cons item items ih => simp [allItemsFinite, ih]

theorem allMembersFinite_iff {members : Members} :
    allMembersFinite members ↔ ∀ m ∈ members, m.2.allFinite := by
  induction members with
  | nil => simp [allMembersFinite]
  | cons m members ih =>
    obtain ⟨name, v⟩ := m
    rw [allMembersFinite, Bool.and_eq_true, ih, List.forall_mem_cons]

theorem hereditary_allFinite : Hereditary (fun _ => True) fun v => v.allFinite :=
  .of_iff (fun items => by rw [allFinite, allItemsFinite_iff])
    fun members => by simp only [allFinite, allMembersFinite_iff, true_and]

end Json

end JsonShelf
