import JsonShelf.Proofs.Json.FailedWrite
import JsonShelf.Proofs.Json.WellFormed

/-!
# Two writes, one after the other

A second write to the same path leaves what it would have left alone, whatever the first one put
there, and putting a value back where it was read leaves the document as it is. Documents are
compared as they are, with the order of the keys in every object.

Of two paths that part, each write goes where the other does not. So whether one of them succeeds
does not depend on the other one, and the order in which they come shows in one thing only. If both
bring a new key into the object where the paths part, these keys come in the order of the writes;
they are the last two of the object then. If one of the keys is there already, or if the paths part
in an array, both orders leave the same document.

All this rests on what happens at one level: two writes that go through the same child are two
writes to the child, of which only the last result is put back, and two children that are replaced
are replaced in any order, except for new keys.

## Scope

As in `Proofs/Json/Write`, trees and paths are arbitrary, and so are the values that are written.
Nothing asks that the first write succeeds, except where the two orders are compared.

## Main definitions

* `Json.NewLastTwo` — two documents that differ in the order of two new keys

## Main results

* `write_of_get?`, `write_write_self` — putting a value back, and writing twice to one path
* `overwriting_is_exact` — both, as far as they concern one path
* `done_write_of_apart` — whether a write succeeds does not depend on a write elsewhere
* `writes_apart_commute` — two writes to paths that part, in either order
-/

namespace JsonShelf

namespace KeyedList

variable {α β : Type} [DecidableEq α] {key key' : α} {entries : KeyedList α β}

/-- Of two values that are put under one key, the second one counts. -/
theorem insert_insert_self (key : α) (x y : β) (entries : KeyedList α β) :
    insert key y (insert key x entries) = insert key y entries := by
  induction entries with
  | nil => simp [insert]
  | cons entry rest ih =>
    by_cases h : entry.1 = key
    · simp [insert, h]
    · simp [insert, h, ih]

/-- Values can be put under two keys in any order if one of the keys is there. -/
theorem insert_comm (hne : key ≠ key') (h : key ∈ keys entries) (x y : β) :
    insert key x (insert key' y entries) = insert key' y (insert key x entries) := by
  induction entries with
  | nil => cases h
  | cons entry rest ih =>
    by_cases hkey : entry.1 = key
    · simp [insert, hkey, hne]
    · by_cases hkey' : entry.1 = key'
      · simp [insert, hkey', hne.symm]
      · have hrest : key ∈ keys rest := by
          rcases List.mem_cons.1 h with h | h
          · exact absurd h.symm hkey
          · exact h
        simp [insert, hkey, hkey', ih hrest]

/-- Two new keys come in the order in which they are put. -/
theorem insert_insert_of_not_mem (hne : key ≠ key') (h : key ∉ keys entries)
    (h' : key' ∉ keys entries) (x y : β) :
    insert key' y (insert key x entries) = entries ++ [(key, x), (key', y)] := by
  have hkeys : key' ∉ keys (insert key x entries) := by
    rw [keys_insert, if_neg h, List.mem_append, List.mem_singleton, not_or]
    exact ⟨h', hne.symm⟩
  rw [insert_of_not_mem hkeys, insert_of_not_mem h, List.append_assoc]
  rfl

end KeyedList

namespace Json

variable {t c c' v w : Json} {s s' : Segment} {p q : Path}

/-! ### Two writes at one level -/

/-- Of two values that replace one child, the second one counts. -/
theorem replaceChild_replaceChild_self (t : Json) (s : Segment) (x y : Json) :
    (t.replaceChild s x).replaceChild s y = t.replaceChild s y := by
  cases t with
  | obj members =>
    cases s with
    | key name => simp only [replaceChild, KeyedList.insert_insert_self]
    | index i => rfl
  | arr items =>
    cases s with
    | key name => rfl
    | index i => simp only [replaceChild, List.set_set]
  | _ => cases s <;> rfl

/-- A write goes on with the child that was put there. -/
theorem descend?_replaceChild_self (h : t.descend? s = some c) (x : Json) :
    (t.replaceChild s x).descend? s = some x :=
  descend?_of_child? (child?_replaceChild_self h x)

/-- Replacing a child does not matter to writes that go elsewhere. -/
theorem descend?_replaceChild_of_ne (h : t.descend? s = some c) (hne : s' ≠ s) (x : Json) :
    (t.replaceChild s x).descend? s' = t.descend? s' := by
  have hchild := child?_replaceChild_of_ne h hne x
  rcases exists_of_descend? h with ⟨members, name, rfl, rfl, -⟩ | ⟨items, i, rfl, rfl, -, -⟩
  · cases s' with
    | key other =>
      have hfind : KeyedList.find? other (KeyedList.insert name x members) =
          KeyedList.find? other members := hchild
      rw [replaceChild, descend?, descend?, hfind]
    | index j => rfl
  · cases s' with
    | key other => rfl
    | index j => exact hchild

/-- Two writes through one step are two writes behind it. -/
theorem write_write_cons (h : t.descend? s = some c) (p q : Path) (v w : Json) :
    (t.write (s :: p) v).root.write (s :: q) w =
      ⟨t.replaceChild s ((c.write p v).root.write q w).root,
        ((c.write p v).root.write q w).done⟩ := by
  rw [write_cons_of_descend? h, write_cons_of_descend? (descend?_replaceChild_self h _),
    replaceChild_replaceChild_self]

/-- Two writes through different steps replace two children. -/
theorem write_write_cons_of_ne (h : t.descend? s = some c) (hne : s' ≠ s)
    (h' : t.descend? s' = some c') (p q : Path) (v w : Json) :
    (t.write (s :: p) v).root.write (s' :: q) w =
      ⟨(t.replaceChild s (c.write p v).root).replaceChild s' (c'.write q w).root,
        (c'.write q w).done⟩ := by
  have hdescend := (descend?_replaceChild_of_ne h hne (c.write p v).root).trans h'
  rw [write_cons_of_descend? h, write_cons_of_descend? hdescend]

/-! ### One path -/

/-- **Putting a value back** where it was read changes nothing. -/
theorem write_of_get? (h : t.get? p = some v) : t.write p v = ⟨t, true⟩ := by
  induction p generalizing t with
  | nil =>
    cases h
    exact write_nil _ _
  | cons s p ih =>
    rw [get?_cons] at h
    obtain ⟨c, hchild, hc⟩ := Option.bind_eq_some_iff.1 h
    rw [write_cons_of_descend? (descend?_of_child? hchild), ih hc, replaceChild_of_child? hchild]

/-- **Of two writes to one path, the second one counts.** -/
theorem write_write_self (t : Json) (p : Path) (v w : Json) :
    (t.write p v).root.write p w = t.write p w := by
  induction p generalizing t with
  | nil => simp
  | cons s p ih =>
    cases hc : t.descend? s with
    | none => rw [write_cons_of_descend?_eq_none hc]
    | some c => rw [write_write_cons hc, ih, write_cons_of_descend? hc]

/-- **Writing back and overwriting are exact.** A value that is written where it was read leaves the
document as it is. A second write to a path leaves the document that it leaves alone, and succeeds
if the first one does; the value of the first one does not matter for this. -/
theorem overwriting_is_exact (t : Json) (p : Path) :
    (∀ v, t.get? p = some v → t.write p v = ⟨t, true⟩) ∧
      ∀ v₁ v₂, (t.write p v₁).root.write p v₂ = t.write p v₂ ∧
        ((t.write p v₁).done → (t.write p v₂).done) := by
  refine ⟨fun v => write_of_get?, fun v₁ v₂ => ⟨write_write_self t p v₁ v₂, ?_⟩⟩
  rw [done_write_iff, done_write_iff]
  exact id

/-- In the document `{"a": {"b": 1}, "n": 2}`, the number is put back between the keys as it was,
and an array under a new key `c` is overwritten as if it had not been there. -/
theorem overwriting_is_exact_between_keys :
    let a := Text.ofString "a"
    let b := Text.ofString "b"
    let c := Text.ofString "c"
    let n := Text.ofString "n"
    let t := obj [(a, obj [(b, int 1)]), (n, int 2)]
    let left := obj [(a, obj [(b, int 1), (c, null)]), (n, int 2)]
    t.get? [.key a, .key b] = some (int 1) ∧ t.write [.key a, .key b] (int 1) = ⟨t, true⟩ ∧
      (t.write [.key a, .key c] (arr [int 3])).done ∧
      (t.write [.key a, .key c] (arr [int 3])).root.write [.key a, .key c] null =
        ⟨left, true⟩ := by
  intro a b c n t left
  obtain ⟨hback, -⟩ := overwriting_is_exact t [.key a, .key b]
  obtain ⟨-, hover⟩ := overwriting_is_exact t [.key a, .key c]
  refine ⟨rfl, hback _ rfl, rfl, ?_⟩
  rw [(hover _ _).1]
  rfl

/-! ### Paths that part -/

/-- **Whether a write succeeds does not depend on a write elsewhere**, be this one finished or
not. -/
theorem done_write_of_apart (hpq : ¬ p <+: q) (hqp : ¬ q <+: p) (t v w : Json) :
    ((t.write p v).root.write q w).done = (t.write q w).done := by
  induction p generalizing t q with
  | nil => exact absurd List.nil_prefix hpq
  | cons s p ih =>
    cases q with
    | nil => exact absurd List.nil_prefix hqp
    | cons s' q =>
      cases hc : t.descend? s with
      | none => rw [write_cons_of_descend?_eq_none hc]
      | some c =>
        by_cases hs : s' = s
        · subst hs
          rw [List.cons_prefix_cons] at hpq hqp
          rw [write_write_cons hc, write_cons_of_descend? hc]
          exact ih (fun h => hpq ⟨rfl, h⟩) (fun h => hqp ⟨rfl, h⟩) c
        · have hdescend := descend?_replaceChild_of_ne hc hs (c.write p v).root
          rw [write_cons_of_descend? hc, write_cons, write_cons, hdescend]
          cases t.descend? s' <;> rfl

/-- The documents `u` and `u'` differ in the order of two new keys. They come of a document `t`
through the paths `p` and `q`, which part at an object that has neither of the keys in `t`, or is
not there yet; in `u` and `u'` they are its last two keys, in either order, with the same values.
Everything else in `u'` is as in `u`. -/
def NewLastTwo (t : Json) (p q : Path) (u u' : Json) : Prop :=
  ∃ r a b p' q' members x y, p = r ++ .key a :: p' ∧ q = r ++ .key b :: q' ∧ a ≠ b ∧
    (t.get? r).getD (obj []) = obj members ∧
    a ∉ KeyedList.keys members ∧ b ∉ KeyedList.keys members ∧
    u.get? r = some (obj (members ++ [(a, x), (b, y)])) ∧
    u' = (u.write r (obj (members ++ [(b, y), (a, x)]))).root

/-- Documents that differ in the order of two keys make documents that differ in it. -/
theorem NewLastTwo.cons {u u' : Json} (hc : t.descend? s = some c) (h : c.NewLastTwo p q u u') :
    t.NewLastTwo (s :: p) (s :: q) (t.replaceChild s u) (t.replaceChild s u') := by
  obtain ⟨r, a, b, p', q', members, x, y, rfl, rfl, hne, hmembers, ha, hb, hu, rfl⟩ := h
  refine ⟨s :: r, a, b, p', q', members, x, y, rfl, rfl, hne, ?_, ha, hb, ?_, ?_⟩
  · rw [getD_get?_of_descend? hc, hmembers]
  · rw [get?_cons, child?_replaceChild_self hc, Option.bind_some, hu]
  · rw [write_cons_of_descend? (descend?_replaceChild_self hc u), replaceChild_replaceChild_self]

/-- Two children are replaced in any order, unless both of them are new. -/
theorem replaceChild_comm (h : t.descend? s = some c) (h' : t.descend? s' = some c') (hne : s ≠ s')
    (p q : Path) (x y : Json) :
    (t.replaceChild s x).replaceChild s' y = (t.replaceChild s' y).replaceChild s x ∨
      t.NewLastTwo (s :: p) (s' :: q) ((t.replaceChild s x).replaceChild s' y)
        ((t.replaceChild s' y).replaceChild s x) := by
  rcases exists_of_descend? h with ⟨members, a, rfl, rfl, -⟩ | ⟨items, i, rfl, rfl, hi, -⟩
  · rcases exists_of_descend? h' with ⟨_, b, ⟨⟩, rfl, -⟩ | ⟨_, _, ⟨⟩, -⟩
    have hab : a ≠ b := fun e => hne (by rw [e])
    simp only [replaceChild]
    by_cases ha : a ∈ KeyedList.keys members
    · left
      rw [KeyedList.insert_comm hab ha]
    · by_cases hb : b ∈ KeyedList.keys members
      · left
        rw [KeyedList.insert_comm hab.symm hb]
      · right
        rw [KeyedList.insert_insert_of_not_mem hab ha hb,
          KeyedList.insert_insert_of_not_mem hab.symm hb ha]
        refine ⟨[], a, b, p, q, members, x, y, rfl, rfl, hab, rfl, ha, hb, rfl, ?_⟩
        rw [write_nil]
  · rcases exists_of_descend? h' with ⟨_, _, ⟨⟩, -⟩ | ⟨_, j, ⟨⟩, rfl, hj, -⟩
    have hij : i.toNat ≠ j.toNat := fun e => hne (by rw [show i = j by omega])
    left
    simp only [replaceChild]
    rw [List.set_comm _ _ hij]

/-- What two writes that succeed leave in either order. -/
theorem root_write_write_of_apart (hpq : ¬ p <+: q) (hqp : ¬ q <+: p) (hp : (t.write p v).done)
    (hq : (t.write q w).done) :
    ((t.write p v).root.write q w).root = ((t.write q w).root.write p v).root ∨
      t.NewLastTwo p q ((t.write p v).root.write q w).root
        ((t.write q w).root.write p v).root := by
  induction p generalizing t q with
  | nil => exact absurd List.nil_prefix hpq
  | cons s p ih =>
    cases q with
    | nil => exact absurd List.nil_prefix hqp
    | cons s' q =>
      cases hc : t.descend? s with
      | none =>
        rw [write_cons_of_descend?_eq_none hc] at hp
        cases hp
      | some c =>
        cases hc' : t.descend? s' with
        | none =>
          rw [write_cons_of_descend?_eq_none hc'] at hq
          cases hq
        | some c' =>
          by_cases hs : s = s'
          · subst hs
            rw [List.cons_prefix_cons] at hpq hqp
            rw [write_cons_of_descend? hc] at hp hq
            rw [write_write_cons hc, write_write_cons hc]
            rcases ih (fun h => hpq ⟨rfl, h⟩) (fun h => hqp ⟨rfl, h⟩) hp hq with heq | hlast
            · exact .inl (by rw [heq])
            · exact .inr (hlast.cons hc)
          · rw [write_write_cons_of_ne hc (Ne.symm hs) hc', write_write_cons_of_ne hc' hs hc]
            exact replaceChild_comm hc hc' hs p q _ _

/-- **Writes to paths that part commute.** Whether one of them succeeds does not depend on whether
the other one was made before. If both succeed, they do so in either order, and leave the same
document, or documents that differ in the order of the last two keys of one object: the one where
the paths part, if it had neither of the two keys. -/
theorem writes_apart_commute (hpq : ¬ p <+: q) (hqp : ¬ q <+: p) (t v w : Json) :
    ((t.write p v).root.write q w).done = (t.write q w).done ∧
      ((t.write p v).done → (t.write q w).done →
        ((t.write p v).root.write q w).done ∧ ((t.write q w).root.write p v).done ∧
          (((t.write p v).root.write q w).root = ((t.write q w).root.write p v).root ∨
            t.NewLastTwo p q ((t.write p v).root.write q w).root
              ((t.write q w).root.write p v).root)) := by
  refine ⟨done_write_of_apart hpq hqp t v w, fun hp hq => ⟨?_, ?_, ?_⟩⟩
  · rwa [done_write_of_apart hpq hqp]
  · rwa [done_write_of_apart hqp hpq]
  · exact root_write_write_of_apart hpq hqp hp hq

/-- Into the document `{"n": 1}`, writes at `a.b` and `a.c` make the object under `a` together. Its
keys come in the order of the writes. -/
theorem writes_apart_commute_below_new_key :
    let a := Text.ofString "a"
    let b := Text.ofString "b"
    let c := Text.ofString "c"
    let t := obj [(Text.ofString "n", int 1)]
    let p : Path := [.key a, .key b]
    let q : Path := [.key a, .key c]
    ¬ p <+: q ∧ ¬ q <+: p ∧ (t.write p null).done ∧ (t.write q (bool true)).done ∧
      ((t.write p null).root.write q (bool true)).done ∧
      t.NewLastTwo p q ((t.write p null).root.write q (bool true)).root
        ((t.write q (bool true)).root.write p null).root := by
  intro a b c t p q
  have hpq : ¬ p <+: q := by decide
  have hqp : ¬ q <+: p := by decide
  obtain ⟨-, hboth⟩ := writes_apart_commute hpq hqp t null (bool true)
  obtain ⟨hdone, -, heq | hlast⟩ := hboth rfl rfl
  · have hread : some (obj [(b, null), (c, bool true)]) = some (obj [(c, bool true), (b, null)]) :=
      congrArg (get? · [.key a]) heq
    exact absurd hread (by simp)
  · exact ⟨hpq, hqp, rfl, rfl, hdone, hlast⟩

end Json

end JsonShelf
