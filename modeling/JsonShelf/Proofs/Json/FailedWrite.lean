import JsonShelf.Proofs.Json.Write

/-!
# What a failing write leaves behind

A write that cannot be finished has gone some way. Through what was there it changes nothing, since
every child is put back as it came. From the first key that an object lacks it makes objects, up to
the first position behind that key, for which there is no array and at which it stops. So there are
two cases: nothing has changed, or the document is the one that another write makes, of an empty
object at the part of the path before that position.

In both cases everything that was there is still there, in the same order, and what is new is empty
objects one in the other, in which nothing tells what value was to be written. The same write fails
at the same step again, and then there is nothing left to make.

## Scope

As in `Proofs/Json/Write`, trees and paths are arbitrary.

## Main definitions

* `Json.Stops` — the way of a write that cannot be finished
* `Json.LacksKey` — a path leads to an object without a key
* `Json.Kept` — what a value has to keep: kind, content, length, keys

## Main results

* `write_append_index` — a write stops at a position behind a missing key
* `Stops.root_write_of_not_lacksKey` — otherwise a failing write changes nothing
* `Stops.exists_kept`, `Stops.exists_obj_of_new` — what is still there, and what is new
* `failed_write_leaves` — all of this, and that the same write fails again
-/

namespace JsonShelf

/-- Putting back the value that a key has changes nothing. -/
theorem KeyedList.insert_of_find? {α β : Type} [DecidableEq α] {key : α} {value : β}
    {entries : KeyedList α β} (h : find? key entries = some value) :
    insert key value entries = entries := by
  induction entries with
  | nil => cases h
  | cons entry rest ih =>
    obtain ⟨key', value'⟩ := entry
    rw [find?] at h
    rw [insert]
    split at h
    · next hkey =>
      cases h
      rw [if_pos hkey, show key' = key from hkey]
    · next hkey => rw [if_neg hkey, ih h]

/-- A path that is not made of keys alone has a first position. -/
theorem Segment.exists_first_index {p : Path} (h : ¬ ∀ s ∈ p, s.IsKey) :
    ∃ keys i rest, p = keys ++ .index i :: rest ∧ ∀ s ∈ keys, s.IsKey := by
  induction p with
  | nil => exact absurd nofun h
  | cons s p ih =>
    cases s with
    | index i => exact ⟨[], i, p, rfl, nofun⟩
    | key name =>
      have hp : ¬ ∀ s ∈ p, s.IsKey :=
        fun hp => h (List.forall_mem_cons.2 ⟨isKey_key name, hp⟩)
      obtain ⟨keys, i, rest, rfl, hkeys⟩ := ih hp
      exact ⟨.key name :: keys, i, rest, rfl, List.forall_mem_cons.2 ⟨isKey_key name, hkeys⟩⟩

namespace Json

variable {t v : Json} {p : Path}

/-! ### Where a write stops -/

/-- A write to the path stops on its way, at a step that cannot be gone. -/
inductive Stops : Json → Path → Prop
  | here {t : Json} {s : Segment} (h : t.descend? s = none) (p : Path) : Stops t (s :: p)
  | deeper {t c : Json} {s : Segment} {p : Path} (h : t.descend? s = some c) (hc : Stops c p) :
    Stops t (s :: p)

/-- A write that fails stops. -/
theorem stops_of_not_done (h : ¬ (t.write p v).done) : t.Stops p := by
  induction p generalizing t with
  | nil => exact absurd (by simp) h
  | cons s p ih =>
    cases hc : t.descend? s with
    | none => exact .here hc p
    | some c =>
      rw [write_cons_of_descend? hc] at h
      exact .deeper hc (ih h)

/-- The path `q` leads to an object without the key `name`. -/
def LacksKey (t : Json) (q : Path) (name : Text) : Prop :=
  ∃ members, t.get? q = some (obj members) ∧ KeyedList.find? name members = none

/-- Nothing is behind a key that an object lacks. -/
theorem LacksKey.get?_eq_none {q : Path} {name : Text} (h : t.LacksKey q name) (r : Path) :
    t.get? (q ++ .key name :: r) = none := by
  obtain ⟨members, hget, hfind⟩ := h
  rw [get?_append, hget, Option.bind_some, get?_cons, child?, hfind, Option.bind_none]

/-- A write that misses no key goes on to the child that is there. -/
theorem child?_of_not_lacksKey {c : Json} {s : Segment} (hc : t.descend? s = some c)
    (h : ∀ name, s = .key name → ¬ t.LacksKey [] name) : t.child? s = some c := by
  cases hchild : t.child? s with
  | some c' => rw [← hc, descend?_of_child? hchild]
  | none =>
    obtain ⟨-, members, name, rfl, rfl, hfind⟩ := descend?_of_child?_eq_none hchild hc
    exact absurd ⟨members, rfl, hfind⟩ (h name rfl)

/-- Putting back the child that is there changes nothing. -/
theorem replaceChild_of_child? {c : Json} {s : Segment} (h : t.child? s = some c) :
    t.replaceChild s c = t := by
  rcases exists_of_descend? (descend?_of_child? h) with
    ⟨members, name, rfl, rfl, -⟩ | ⟨items, i, rfl, rfl, -, hitem⟩
  · rw [replaceChild, KeyedList.insert_of_find? h]
  · obtain ⟨hi, rfl⟩ := List.getElem?_eq_some_iff.1 hitem
    rw [replaceChild, List.set_getElem_self]

/-- **A write stops at a position where nothing is**, and leaves the document of the write of an
empty object that ends before the position. -/
theorem write_append_index {q : Path} (hq : (t.write q (obj [])).done)
    (hempty : (t.get? q).getD (obj []) = obj []) (i : Int) (rest : Path) (v : Json) :
    t.write (q ++ .index i :: rest) v = ⟨(t.write q (obj [])).root, false⟩ := by
  induction q generalizing t with
  | nil =>
    have ht : t = obj [] := hempty
    rw [List.nil_append, write_nil, ht, write_cons_of_descend?_eq_none (descend?_nil_index i)]
  | cons s q ih =>
    cases hc : t.descend? s with
    | none =>
      rw [write_cons_of_descend?_eq_none hc] at hq
      cases hq
    | some c =>
      rw [write_cons_of_descend? hc] at hq
      rw [getD_get?_of_descend? hc] at hempty
      rw [List.cons_append, write_cons_of_descend? hc, write_cons_of_descend? hc, ih hq hempty]

/-- A write that fails behind a missing key gets to the first position there. -/
theorem root_write_of_lacksKey {q r : Path} {name : Text}
    (h : ¬ (t.write (q ++ .key name :: r) v).done) (hq : t.LacksKey q name) :
    ∃ keys i rest, r = keys ++ .index i :: rest ∧ (∀ s ∈ keys, s.IsKey) ∧
      (t.write (q ++ .key name :: keys) (obj [])).done ∧
      (t.write (q ++ .key name :: r) v).root =
        (t.write (q ++ .key name :: keys) (obj [])).root := by
  have hdone : ∀ r : Path, (∀ s ∈ r, s.IsKey) → ∀ w, (t.write (q ++ .key name :: r) w).done := by
    intro r hr w
    obtain ⟨members, hget, hfind⟩ := hq
    exact (done_write_iff t _ w).2 (.inr ⟨q, name, r, members, rfl, hget, hfind, hr⟩)
  obtain ⟨keys, i, rest, rfl, hkeys⟩ := Segment.exists_first_index fun hr => h (hdone r hr v)
  have hempty : (t.get? (q ++ .key name :: keys)).getD (obj []) = obj [] := by
    rw [hq.get?_eq_none]
    rfl
  have hwrite := write_append_index (hdone keys hkeys _) hempty i rest v
  rw [List.append_assoc, List.cons_append] at hwrite
  exact ⟨keys, i, rest, rfl, hkeys, hdone keys hkeys _, by rw [hwrite]⟩

/-- A write that stops without having missed a key changes nothing. -/
theorem Stops.root_write_of_not_lacksKey (h : t.Stops p) (v : Json)
    (hp : ∀ q name r, p = q ++ .key name :: r → ¬ t.LacksKey q name) :
    (t.write p v).root = t := by
  induction h with
  | here h p => rw [write_cons_of_descend?_eq_none h]
  | @deeper t c s p h hc ih =>
    have hchild : t.child? s = some c := by
      refine child?_of_not_lacksKey h ?_
      rintro name rfl
      exact hp [] name p rfl
    have hbelow : ∀ q name r, p = q ++ .key name :: r → ¬ c.LacksKey q name := by
      rintro q name r rfl ⟨members, hget, hfind⟩
      refine hp (s :: q) name r rfl ⟨members, ?_, hfind⟩
      rw [get?_cons, hchild, Option.bind_some, hget]
    rw [write_cons_of_descend? h, ih hbelow, replaceChild_of_child? hchild]

/-! ### What is still there, and what is new -/

/-- What a value keeps while a write goes through it: an array its length, an object its keys in
their order, and any other value is what it was. -/
def Kept (before after : Json) : Prop :=
  match before, after with
  | arr items, arr items' => items'.length = items.length
  | obj members, obj members' => KeyedList.keys members <+: KeyedList.keys members'
  | before, after => after = before

theorem Kept.refl (t : Json) : t.Kept t := by
  cases t <;> simp [Kept]

/-- What is kept of an object is an object. -/
theorem Kept.exists_obj {members : Members} (h : (obj members).Kept t) :
    ∃ members', t = obj members' := by
  cases t with
  | obj members' => exact ⟨members', rfl⟩
  | _ => exact nomatch h

theorem Grows.kept {before after : Json} {s : Segment} (h : before.Grows s after) :
    before.Kept after := by
  unfold Grows at h
  split at h
  · exact h
  · next members name members' =>
    rw [Kept]
    by_cases hname : name ∈ KeyedList.keys members
    · exact ⟨[], by rw [List.append_nil, h.1 hname]⟩
    · rw [h.2 hname]
      exact List.prefix_append _ _
  · exact h.elim

/-- Everything that was there is there after a write that stops. -/
theorem Stops.exists_kept (h : t.Stops p) (v : Json) {q : Path} {x : Json}
    (hx : t.get? q = some x) : ∃ x', (t.write p v).root.get? q = some x' ∧ x.Kept x' := by
  induction h generalizing q with
  | here h p =>
    rw [write_cons_of_descend?_eq_none h]
    exact ⟨x, hx, .refl x⟩
  | deeper h hc ih =>
    cases q with
    | nil =>
      cases hx
      rw [write_cons_of_descend? h]
      exact ⟨_, rfl, (grows_replaceChild h _).kept⟩
    | cons s' q =>
      rw [get?_write_cons h]
      split
      · next hs =>
        subst hs
        rcases get?_cons_of_descend? h q with hq | ⟨-, -, hnone⟩
        · exact ih (hq ▸ hx)
        · rw [hnone] at hx
          cases hx
      · exact ⟨x, hx, .refl x⟩

/-- What was not there before a write that stops is an object on its path. -/
theorem Stops.exists_obj_of_new (h : t.Stops p) {q : Path} {x : Json}
    (hx : (t.write p v).root.get? q = some x) (hq : t.get? q = none) :
    q <+: p ∧ ∃ members, x = obj members := by
  induction h generalizing q with
  | here h p =>
    rw [write_cons_of_descend?_eq_none h, hq] at hx
    cases hx
  | deeper h hc ih =>
    cases q with
    | nil => cases hq
    | cons s' q =>
      rw [get?_write_cons h] at hx
      split at hx
      · next hs =>
        subst hs
        rcases get?_cons_of_descend? h q with hq' | ⟨rfl, rfl, -⟩
        · obtain ⟨honway, hobj⟩ := ih hx (hq' ▸ hq)
          exact ⟨List.cons_prefix_cons.2 ⟨rfl, honway⟩, hobj⟩
        · -- the object that is made under the missing key itself
          obtain ⟨x', hx', hkept⟩ := hc.exists_kept v (q := []) rfl
          rw [hx] at hx'
          cases hx'
          exact ⟨List.cons_prefix_cons.2 ⟨rfl, List.nil_prefix⟩, hkept.exists_obj⟩
      · rw [hq] at hx
        cases hx

/-- Nothing of the value is in the document that is left by a write that stops. -/
theorem Stops.root_write_eq (h : t.Stops p) (v w : Json) :
    (t.write p w).root = (t.write p v).root := by
  induction h with
  | here h p => simp only [write_cons_of_descend?_eq_none h]
  | deeper h hc ih => simp only [write_cons_of_descend? h, ih]

/-- A path at which a write stops leads nowhere afterwards. -/
theorem Stops.get?_root_write (h : t.Stops p) (v : Json) : (t.write p v).root.get? p = none := by
  induction h with
  | @here t s h p =>
    rw [write_cons_of_descend?_eq_none h, get?_cons]
    cases hchild : t.child? s with
    | none => rfl
    | some c =>
      rw [descend?_of_child? hchild] at h
      cases h
  | deeper h hc ih => rw [get?_write_cons h, if_pos rfl, ih]

/-- The same write stops again, with any value, and changes nothing any more. -/
theorem Stops.write_root_write (h : t.Stops p) (v w : Json) :
    (t.write p v).root.write p w = ⟨(t.write p v).root, false⟩ := by
  induction h with
  | here h p => simp only [write_cons_of_descend?_eq_none h]
  | @deeper t c s p h hc ih =>
    have hchild := child?_replaceChild_self h (c.write p v).root
    simp only [write_cons_of_descend? h, write_cons_of_descend? (descend?_of_child? hchild), ih,
      replaceChild_of_child? hchild]

/-- **What a failing write leaves behind.** If its path leads to an object without the next key,
there is a position behind that key, and the document is the one of the write of an empty object
that ends before the first such position; otherwise the document is as it was. So nothing that was
there is lost or moved, what is new is an object on the path, and nothing of the value gets into the
document. The path leads nowhere still, and to write at it again, with any value, fails and changes
nothing. -/
theorem failed_write_leaves (h : ¬ (t.write p v).done) :
    (∀ q name r, p = q ++ .key name :: r → t.LacksKey q name →
        ∃ keys i rest, r = keys ++ .index i :: rest ∧ (∀ s ∈ keys, s.IsKey) ∧
          (t.write (q ++ .key name :: keys) (obj [])).done ∧
          (t.write p v).root = (t.write (q ++ .key name :: keys) (obj [])).root) ∧
      ((∀ q name r, p = q ++ .key name :: r → ¬ t.LacksKey q name) → (t.write p v).root = t) ∧
      (∀ q x, t.get? q = some x → ∃ x', (t.write p v).root.get? q = some x' ∧ x.Kept x') ∧
      (∀ q x, (t.write p v).root.get? q = some x → t.get? q = none →
        q <+: p ∧ ∃ members, x = obj members) ∧
      (∀ w, (t.write p w).root = (t.write p v).root) ∧
      (t.write p v).root.get? p = none ∧
      ∀ w, (t.write p v).root.write p w = ⟨(t.write p v).root, false⟩ := by
  have hstops := stops_of_not_done h
  refine ⟨?_, hstops.root_write_of_not_lacksKey v, ?_, ?_, hstops.root_write_eq v,
    hstops.get?_root_write v, hstops.write_root_write v⟩
  · rintro q name r rfl hq
    exact root_write_of_lacksKey h hq
  · intro q x hx
    exact hstops.exists_kept v hx
  · intro q x hx hq
    exact hstops.exists_obj_of_new hx hq

/-- Into the document `{"a": {}, "n": 1}`, a write at `a.b.c[0].d` makes the objects under `b` and
`c` and stops. Whatever is written there next, it stops again. -/
theorem failed_write_leaves_objects :
    let a := Text.ofString "a"
    let b := Text.ofString "b"
    let c := Text.ofString "c"
    let n := Text.ofString "n"
    let t := obj [(a, obj []), (n, int 1)]
    let left := obj [(a, obj [(b, obj [(c, obj [])])]), (n, int 1)]
    let p : Path := [.key a, .key b, .key c, .index 0, .key (Text.ofString "d")]
    ¬ (t.write p null).done ∧ t.LacksKey [.key a] b ∧ (t.write p null).root = left ∧
      left.get? p = none ∧ ∀ w, left.write p w = ⟨left, false⟩ := by
  intro a b c n t left p
  have hdone : ¬ (t.write p null).done := by decide
  have hleft : (t.write p null).root = left := rfl
  obtain ⟨-, -, -, -, -, hget, hagain⟩ := failed_write_leaves hdone
  rw [hleft] at hget hagain
  exact ⟨hdone, ⟨[], rfl, rfl⟩, hleft, hget, hagain⟩

end Json

end JsonShelf
