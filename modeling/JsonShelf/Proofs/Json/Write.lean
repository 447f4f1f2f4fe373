import JsonShelf.Json.Access

/-!
# What a write does to a document

A write goes down a path one step at a time, and everything it does at one level is to replace a
single child. `descend?` is the value that it goes on with below, which is the child that is there
or, under a missing key, an empty object; `replaceChild` puts back what came of it. With these two
the recursion of `Json.write` has one equation, `write_cons`, and what is said about reading after
writing follows from two facts about one level: the replaced child is the new one, and the others
are the old ones.

## Scope

Trees are arbitrary: nothing here asks that the keys of an object are distinct. Paths are arbitrary
as well, with empty keys and positions below zero among their steps. Most statements do not ask that
the write succeeds either, since a write that fails has still made objects on its way.

## Main definitions

* `Json.descend?`, `Json.replaceChild` — one level of a write
* `Json.Grows` — what a write leaves of a container on its way
* `Json.BreaksOffAtKey` — a path that stops being there at a missing key, with nothing but keys to
  follow

## Main results

* `effect_of_write` — every reading of a document after a write that succeeds
* `done_write_iff`, `write_succeeds_iff` — when a write succeeds, and what it never makes
-/

namespace JsonShelf

namespace Segment

/-- Whether a step goes into an object. -/
def IsKey : Segment → Prop
  | key _ => True
  | index _ => False

@[simp] theorem isKey_key (name : Text) : (key name).IsKey := trivial

@[simp] theorem not_isKey_index (i : Int) : ¬ (index i).IsKey := id

end Segment

namespace Json

/-! ### One level of a write -/

/-- The value that a write goes on with behind a step. -/
def descend? : Json → Segment → Option Json
  | obj members, .key name => some ((KeyedList.find? name members).getD (obj []))
  | t, s => t.child? s

/-- A value with `x` in place of one of its children. -/
def replaceChild : Json → Segment → Json → Json
  | obj members, .key name, x => obj (KeyedList.insert name x members)
  | arr items, .index i, x => arr (items.set i.toNat x)
  | t, _, _ => t

/-- A child that is there is the one to go on with. -/
theorem descend?_of_child? {t c : Json} {s : Segment} (h : t.child? s = some c) :
    t.descend? s = some c := by
  cases t <;> cases s <;> simp_all [child?, descend?]

/-- A write goes on below a key of an object, or at a position that an array has. -/
theorem exists_of_descend? {t c : Json} {s : Segment} (h : t.descend? s = some c) :
    (∃ members name, t = obj members ∧ s = .key name ∧
        c = (KeyedList.find? name members).getD (obj [])) ∨
      ∃ items i, t = arr items ∧ s = .index i ∧ 0 ≤ i ∧ items[i.toNat]? = some c := by
  cases t with
  | obj members =>
    cases s with
    | key name => exact .inl ⟨members, name, rfl, rfl, (Option.some.inj h).symm⟩
    | index i => cases h
  | arr items =>
    cases s with
    | key name => cases h
    | index i =>
      rw [descend?, child?] at h
      · split at h
        · next hi => exact .inr ⟨items, i, rfl, rfl, hi, h⟩
        · cases h
      · exact nofun
  | _ => cases s <;> cases h

/-- The one way to go on where no child is: under a key that an object lacks, with nothing. -/
theorem descend?_of_child?_eq_none {t c : Json} {s : Segment} (h : t.child? s = none)
    (hc : t.descend? s = some c) :
    c = obj [] ∧ ∃ members name, t = obj members ∧ s = .key name ∧
      KeyedList.find? name members = none := by
  rcases exists_of_descend? hc with ⟨members, name, rfl, rfl, rfl⟩ | ⟨items, i, rfl, rfl, hi, hitem⟩
  · have hfind : KeyedList.find? name members = none := h
    exact ⟨by rw [hfind]; rfl, members, name, rfl, rfl, hfind⟩
  · rw [child?, if_pos hi, hitem] at h
    cases h

@[simp] theorem descend?_nil_key (name : Text) : (obj []).descend? (.key name) = some (obj []) :=
  rfl

@[simp] theorem descend?_nil_index (i : Int) : (obj []).descend? (.index i) = none := rfl

@[simp] theorem child?_nil (s : Segment) : (obj []).child? s = none := by
  cases s <;> rfl

/-- **One level of a write.** -/
theorem write_cons (t : Json) (s : Segment) (p : Path) (v : Json) :
    t.write (s :: p) v =
      match t.descend? s with
      | some c => ⟨t.replaceChild s (c.write p v).root, (c.write p v).done⟩
      | none => ⟨t, false⟩ := by
  cases t with
  | obj members => cases s <;> simp [write, descend?, child?, replaceChild]
  | arr items =>
    cases s with
    | key name => simp [write, descend?, child?]
    | index i =>
      rw [write]
      cases h : (arr items).child? (.index i) <;> simp [descend?, h, replaceChild]
  | _ => simp [write, descend?, child?]

theorem write_cons_of_descend? {t c : Json} {s : Segment} (h : t.descend? s = some c) (p : Path)
    (v : Json) :
    t.write (s :: p) v = ⟨t.replaceChild s (c.write p v).root, (c.write p v).done⟩ := by
  rw [write_cons, h]

theorem write_cons_of_descend?_eq_none {t : Json} {s : Segment} (h : t.descend? s = none)
    (p : Path) (v : Json) : t.write (s :: p) v = ⟨t, false⟩ := by
  rw [write_cons, h]

/-- The replaced child is the new one. -/
theorem child?_replaceChild_self {t c : Json} {s : Segment} (h : t.descend? s = some c)
    (x : Json) : (t.replaceChild s x).child? s = some x := by
  rcases exists_of_descend? h with ⟨members, name, rfl, rfl, -⟩ | ⟨items, i, rfl, rfl, hi, hitem⟩
  · simp [replaceChild, child?]
  · have hlt : i.toNat < items.length := (List.getElem?_eq_some_iff.1 hitem).1
    simp [replaceChild, child?, hi, hlt]

/-- The other children are the old ones. -/
theorem child?_replaceChild_of_ne {t c : Json} {s s' : Segment} (h : t.descend? s = some c)
    (hne : s' ≠ s) (x : Json) : (t.replaceChild s x).child? s' = t.child? s' := by
  rcases exists_of_descend? h with ⟨members, name, rfl, rfl, -⟩ | ⟨items, i, rfl, rfl, hi, -⟩
  · cases s' with
    | key other => exact KeyedList.find?_insert_of_ne (fun e => hne (by rw [e])) x members
    | index j => rfl
  · cases s' with
    | key other => rfl
    | index j =>
      by_cases hj : 0 ≤ j
      · have hij : i.toNat ≠ j.toNat := fun e => hne (by rw [show j = i by omega])
        simp [replaceChild, child?, hj, List.getElem?_set_ne hij]
      · simp [replaceChild, child?, hj]

/-! ### Reading at and beside the path -/

/-- Nothing leads anywhere from an empty object. -/
theorem get?_nil_eq_none {q : Path} (h : q ≠ []) : (obj []).get? q = none := by
  obtain ⟨s, q, rfl⟩ := List.exists_cons_of_ne_nil h
  simp

/-- Behind a step that a write takes, a path leads where it leads in the value that the write goes
on with, unless it ends at an object that is yet to be made. -/
theorem get?_cons_of_descend? {t c : Json} {s : Segment} (hc : t.descend? s = some c) (q : Path) :
    t.get? (s :: q) = c.get? q ∨ q = [] ∧ c = obj [] ∧ t.get? (s :: q) = none := by
  rw [get?_cons]
  cases hchild : t.child? s with
  | some c' =>
    rw [descend?_of_child? hchild, Option.some.injEq] at hc
    rw [hc, Option.bind_some]
    exact .inl rfl
  | none =>
    obtain ⟨rfl, -⟩ := descend?_of_child?_eq_none hchild hc
    rw [Option.bind_none]
    by_cases hq : q = []
    · exact .inr ⟨hq, rfl, rfl⟩
    · exact .inl (get?_nil_eq_none hq).symm

/-- After a write, a path through its first step leads where the write below has put things, and any
other path where it led before. -/
theorem get?_write_cons {t c : Json} {s : Segment} (hc : t.descend? s = some c) (p : Path)
    (v : Json) (s' : Segment) (q : Path) :
    (t.write (s :: p) v).root.get? (s' :: q) =
      if s' = s then (c.write p v).root.get? q else t.get? (s' :: q) := by
  rw [write_cons_of_descend? hc, get?_cons, get?_cons]
  split
  · next hs => rw [hs, child?_replaceChild_self hc, Option.bind_some]
  · next hs => rw [child?_replaceChild_of_ne hc hs]

/-- A write that succeeds puts the value at the end of the path. -/
theorem get?_write_self {t v : Json} {p : Path} (h : (t.write p v).done) :
    (t.write p v).root.get? p = some v := by
  induction p generalizing t with
  | nil => simp
  | cons s p ih =>
    cases hc : t.descend? s with
    | none => rw [write_cons_of_descend?_eq_none hc] at h; cases h
    | some c =>
      rw [get?_write_cons hc, if_pos rfl]
      rw [write_cons_of_descend? hc] at h
      exact ih h

/-- A write, be it finished or not, changes nothing beside its path. -/
theorem get?_write_of_not_prefix {p q : Path} (hpq : ¬ p <+: q) (hqp : ¬ q <+: p) (t v : Json) :
    (t.write p v).root.get? q = t.get? q := by
  induction p generalizing t q with
  | nil => exact absurd q.nil_prefix hpq
  | cons s p ih =>
    cases hc : t.descend? s with
    | none => rw [write_cons_of_descend?_eq_none hc]
    | some c =>
      cases q with
      | nil => exact absurd List.nil_prefix hqp
      | cons s' q =>
        rw [get?_write_cons hc]
        split
        · next hs =>
          subst hs
          rw [List.cons_prefix_cons] at hpq hqp
          rw [ih (fun h => hpq ⟨rfl, h⟩) (fun h => hqp ⟨rfl, h⟩)]
          rcases get?_cons_of_descend? hc q with hq | ⟨rfl, -⟩
          · exact hq.symm
          · exact absurd ⟨rfl, List.nil_prefix⟩ hqp
        · rfl

/-! ### The containers on the way -/

/-- What a write that goes on with the step `s` leaves of a container: an array keeps its length,
and an object keeps its keys and gets the key of the step at the end if it lacked it. -/
def Grows (before : Json) (s : Segment) (after : Json) : Prop :=
  match before, s, after with
  | arr items, .index _, arr items' => items'.length = items.length
  | obj members, .key name, obj members' =>
    (name ∈ KeyedList.keys members → KeyedList.keys members' = KeyedList.keys members) ∧
      (name ∉ KeyedList.keys members →
        KeyedList.keys members' = KeyedList.keys members ++ [name])
  | _, _, _ => False

theorem grows_replaceChild {t c : Json} {s : Segment} (h : t.descend? s = some c) (x : Json) :
    t.Grows s (t.replaceChild s x) := by
  rcases exists_of_descend? h with ⟨members, name, rfl, rfl, -⟩ | ⟨items, i, rfl, rfl, -, -⟩
  · rw [replaceChild, Grows, KeyedList.keys_insert]
    exact ⟨fun h => if_pos h, fun h => if_neg h⟩
  · rw [replaceChild, Grows]
    exact List.length_set

/-- Behind a step that a write takes, an empty object stands for what is missing. -/
theorem getD_get?_of_descend? {t c : Json} {s : Segment} (hc : t.descend? s = some c) (q : Path) :
    (t.get? (s :: q)).getD (obj []) = (c.get? q).getD (obj []) := by
  rcases get?_cons_of_descend? hc q with hq | ⟨rfl, rfl, hnone⟩
  · rw [hq]
  · rw [hnone]
    rfl

/-- Above the end of its path, a write that succeeds leaves the containers that were there, and
objects where nothing was. -/
theorem grows_write {t v : Json} {q r : Path} {s : Segment}
    (h : (t.write (q ++ s :: r) v).done) :
    ∃ after, (t.write (q ++ s :: r) v).root.get? q = some after ∧
      ((t.get? q).getD (obj [])).Grows s after := by
  induction q generalizing t with
  | nil =>
    rw [List.nil_append] at h ⊢
    cases hc : t.descend? s with
    | none => rw [write_cons_of_descend?_eq_none hc] at h; cases h
    | some c =>
      rw [write_cons_of_descend? hc]
      exact ⟨_, rfl, grows_replaceChild hc _⟩
  | cons a q ih =>
    rw [List.cons_append] at h ⊢
    cases hc : t.descend? a with
    | none => rw [write_cons_of_descend?_eq_none hc] at h; cases h
    | some c =>
      rw [write_cons_of_descend? hc] at h
      obtain ⟨after, hget, hgrows⟩ := ih h
      refine ⟨after, ?_, by rwa [getD_get?_of_descend? hc]⟩
      rw [get?_write_cons hc, if_pos rfl, hget]

/-- **The effect of a write that succeeds.** At and below the end of its path the value is read;
beside the path everything is as it was; and above the end, where a path `q` of fewer steps leads,
there is the container that was there before, or an object where nothing was, with the same length
or keys except for the key of the next step. -/
theorem effect_of_write {t v : Json} {p : Path} (h : (t.write p v).done) :
    (∀ r, (t.write p v).root.get? (p ++ r) = v.get? r) ∧
      (∀ q, ¬ p <+: q → ¬ q <+: p → (t.write p v).root.get? q = t.get? q) ∧
      (∀ q s r, p = q ++ s :: r →
        ∃ after, (t.write p v).root.get? q = some after ∧
          ((t.get? q).getD (obj [])).Grows s after) := by
  refine ⟨?_, ?_, ?_⟩
  · intro r
    rw [get?_append, get?_write_self h, Option.bind_some]
  · intro q hpq hqp
    exact get?_write_of_not_prefix hpq hqp t v
  · rintro q s r rfl
    exact grows_write h

/-- Into the document `{"a": [1, {"b": 2}]}`, a write at `a[1].c.d` goes through what is there and
makes the object under `c`. -/
theorem effect_of_write_below_array :
    let t := obj [(Text.ofString "a", arr [int 1, obj [(Text.ofString "b", int 2)]])]
    let q : Path := [.key (Text.ofString "a"), .index 1]
    let p : Path := q ++ [.key (Text.ofString "c"), .key (Text.ofString "d")]
    (t.write p (bool true)).done ∧
      (t.write p (bool true)).root.get? p = some (bool true) ∧
      (t.write p (bool true)).root.get? [.key (Text.ofString "a"), .index 0] = some (int 1) ∧
      ∃ after, (t.write p (bool true)).root.get? q = some after ∧
        (obj [(Text.ofString "b", int 2)]).Grows (.key (Text.ofString "c")) after := by
  intro t q p
  have h : (t.write p (bool true)).done := rfl
  obtain ⟨hbelow, hbeside, habove⟩ := effect_of_write h
  exact ⟨h, by simpa using hbelow [], hbeside _ (by decide) (by decide),
    habove q _ [.key (Text.ofString "d")] rfl⟩

/-! ### When a write succeeds -/

/-- The path stops being there at a key that an object lacks, and only keys follow. -/
def BreaksOffAtKey (t : Json) (p : Path) : Prop :=
  ∃ q name r members, p = q ++ .key name :: r ∧ t.get? q = some (obj members) ∧
    KeyedList.find? name members = none ∧ ∀ s ∈ r, s.IsKey

/-- A path that breaks off below a child breaks off. -/
theorem BreaksOffAtKey.cons {t c : Json} {s : Segment} {p : Path} (hc : t.child? s = some c)
    (h : c.BreaksOffAtKey p) : t.BreaksOffAtKey (s :: p) := by
  obtain ⟨q, name, r, members, rfl, hget, hfind, hr⟩ := h
  exact ⟨s :: q, name, r, members, rfl, by rw [get?_cons, hc, Option.bind_some, hget], hfind, hr⟩

/-- Where a path goes into a child, it breaks off below. -/
theorem BreaksOffAtKey.of_cons {t c : Json} {s : Segment} {p : Path} (hc : t.child? s = some c)
    (h : t.BreaksOffAtKey (s :: p)) : c.BreaksOffAtKey p := by
  obtain ⟨q, name, r, members, heq, hget, hfind, hr⟩ := h
  cases q with
  | nil =>
    rw [get?_nil, Option.some.injEq] at hget
    rw [List.nil_append, List.cons.injEq] at heq
    rw [hget, heq.1, child?, hfind] at hc
    cases hc
  | cons s' q =>
    rw [List.cons_append, List.cons.injEq] at heq
    rw [get?_cons, ← heq.1, hc, Option.bind_some] at hget
    exact ⟨q, name, r, members, heq.2, hget, hfind, hr⟩

/-- Where there is no child, a path breaks off at once or not at all. -/
theorem breaksOffAtKey_cons_of_child?_eq_none {t : Json} {s : Segment} {p : Path}
    (hc : t.child? s = none) :
    t.BreaksOffAtKey (s :: p) ↔
      (∃ members name, t = obj members ∧ s = .key name ∧
        KeyedList.find? name members = none) ∧ ∀ s ∈ p, s.IsKey := by
  constructor
  · rintro ⟨q, name, r, members, heq, hget, hfind, hr⟩
    cases q with
    | nil =>
      rw [get?_nil, Option.some.injEq] at hget
      rw [List.nil_append, List.cons.injEq] at heq
      exact ⟨⟨members, name, hget, heq.1, hfind⟩, by rwa [heq.2]⟩
    | cons s' q =>
      rw [List.cons_append, List.cons.injEq] at heq
      rw [get?_cons, ← heq.1, hc, Option.bind_none] at hget
      cases hget
  · rintro ⟨⟨members, name, rfl, rfl, hfind⟩, hr⟩
    exact ⟨[], name, p, members, rfl, rfl, hfind, hr⟩

/-- From an empty object a write makes its way through keys alone. -/
theorem done_write_nil_iff (p : Path) (v : Json) :
    ((obj []).write p v).done ↔ ∀ s ∈ p, s.IsKey := by
  induction p with
  | nil => simp
  | cons s p ih =>
    cases s with
    | key name => simp [write_cons_of_descend? (descend?_nil_key name), ih]
    | index i => simp [write_cons_of_descend?_eq_none (descend?_nil_index i)]

theorem done_write_iff (t : Json) (p : Path) (v : Json) :
    (t.write p v).done ↔ (t.get? p).isSome ∨ t.BreaksOffAtKey p := by
  induction p generalizing t with
  | nil => simp
  | cons s p ih =>
    cases hchild : t.child? s with
    | some c =>
      rw [write_cons_of_descend? (descend?_of_child? hchild), ih, get?_cons, hchild,
        Option.bind_some]
      exact or_congr_right ⟨.cons hchild, .of_cons hchild⟩
    | none =>
      rw [get?_cons, hchild, Option.bind_none, breaksOffAtKey_cons_of_child?_eq_none hchild]
      cases hc : t.descend? s with
      | some c =>
        obtain ⟨rfl, hkey⟩ := descend?_of_child?_eq_none hchild hc
        rw [write_cons_of_descend? hc, done_write_nil_iff, and_iff_right hkey]
        simp
      | none =>
        rw [write_cons_of_descend?_eq_none hc]
        have hkey : ¬ ∃ members name, t = obj members ∧ s = .key name ∧
            KeyedList.find? name members = none := by
          rintro ⟨members, name, rfl, rfl, -⟩
          cases hc
        simp only [hkey, false_and, or_false]
        simp

/-! ### Kinds of values -/

/-- Arrays and objects can be gone into. -/
def IsContainer : Json → Prop
  | arr _ | obj _ => True
  | _ => False

/-- What is gone into is a container. -/
theorem isContainer_of_descend? {t c : Json} {s : Segment} (h : t.descend? s = some c) :
    t.IsContainer := by
  rcases exists_of_descend? h with ⟨members, name, rfl, -⟩ | ⟨items, i, rfl, -⟩
  · trivial
  · trivial

/-- An array in a document after a write was there before, with the same length, unless it came with
the value. -/
theorem get?_of_get?_write_arr {t v : Json} {p q : Path} {items : List Json}
    (hq : (t.write p v).done → ¬ p <+: q) (h : (t.write p v).root.get? q = some (arr items)) :
    ∃ items', t.get? q = some (arr items') ∧ items.length = items'.length := by
  induction p generalizing t q with
  | nil => exact absurd List.nil_prefix (hq (by simp))
  | cons s p ih =>
    cases hc : t.descend? s with
    | none =>
      rw [write_cons_of_descend?_eq_none hc] at h
      exact ⟨items, h, rfl⟩
    | some c =>
      cases q with
      | nil =>
        rw [write_cons_of_descend? hc, get?_nil, Option.some.injEq] at h
        rcases exists_of_descend? hc with
          ⟨members, name, rfl, rfl, -⟩ | ⟨items', i, rfl, rfl, -⟩
        · cases h
        · cases h
          exact ⟨items', rfl, List.length_set⟩
      | cons s' q =>
        rw [get?_write_cons hc] at h
        split at h
        · next hs =>
          subst hs
          rw [write_cons_of_descend? hc] at hq
          have hbelow : (c.write p v).done → ¬ p <+: q :=
            fun hdone hbefore => hq hdone (List.cons_prefix_cons.2 ⟨rfl, hbefore⟩)
          obtain ⟨items', hget, hlength⟩ := ih hbelow h
          rcases get?_cons_of_descend? hc q with hq | ⟨rfl, rfl, -⟩
          · exact ⟨items', hq.trans hget, hlength⟩
          · cases hget
        · exact ⟨items, h, rfl⟩

/-- A value that is no container stays where it is, unless the new value takes its place. -/
theorem get?_write_of_not_isContainer {t v x : Json} {p q : Path}
    (hq : (t.write p v).done → ¬ p <+: q) (h : t.get? q = some x) (hx : ¬ x.IsContainer) :
    (t.write p v).root.get? q = some x := by
  induction p generalizing t q with
  | nil => exact absurd List.nil_prefix (hq (by simp))
  | cons s p ih =>
    cases hc : t.descend? s with
    | none => rwa [write_cons_of_descend?_eq_none hc]
    | some c =>
      cases q with
      | nil =>
        rw [get?_nil, Option.some.injEq] at h
        exact absurd (isContainer_of_descend? hc) (by rwa [h])
      | cons s' q =>
        rw [get?_write_cons hc]
        split
        · next hs =>
          subst hs
          rw [write_cons_of_descend? hc] at hq
          have hbelow : (c.write p v).done → ¬ p <+: q :=
            fun hdone hbefore => hq hdone (List.cons_prefix_cons.2 ⟨rfl, hbefore⟩)
          rcases get?_cons_of_descend? hc q with hq | ⟨-, -, hnone⟩
          · exact ih hbelow (hq.symm.trans h)
          · rw [hnone] at h
            cases h
        · exact h

/-- **When a write succeeds.** It does if the path leads somewhere, or if it breaks off at a missing
key and goes on with nothing but keys, and in no other case. The value does not matter for it. What
the write goes through keeps its kind, whether the write succeeds or not: an array that is there
afterwards was there before and as long, and a value that is no container is still there. -/
theorem write_succeeds_iff (t : Json) (p : Path) :
    (∀ v, (t.write p v).done ↔ (t.get? p).isSome ∨ t.BreaksOffAtKey p) ∧
      (∀ v w, (t.write p v).done = (t.write p w).done) ∧
      ∀ v q, ((t.write p v).done → ¬ p <+: q) →
        (∀ items, (t.write p v).root.get? q = some (arr items) →
          ∃ items', t.get? q = some (arr items') ∧ items.length = items'.length) ∧
        ∀ x, t.get? q = some x → ¬ x.IsContainer → (t.write p v).root.get? q = some x := by
  refine ⟨done_write_iff t p, ?_, ?_⟩
  · intro v w
    rw [Bool.eq_iff_iff, done_write_iff, done_write_iff]
  · intro v q hq
    constructor
    · intro items h
      exact get?_of_get?_write_arr hq h
    · intro x h hx
      exact get?_write_of_not_isContainer hq h hx

/-- In the document `{"a": 1}`, a write at `b.c` succeeds, as the path breaks off at the key `b`,
while a write at `a.c` finds a number in its way, which stays. -/
theorem write_succeeds_iff_at_keys :
    let t := obj [(Text.ofString "a", int 1)]
    let a : Path := [.key (Text.ofString "a")]
    let b : Path := [.key (Text.ofString "b")]
    let c : Path := [.key (Text.ofString "c")]
    (t.write (b ++ c) null).done ∧ ¬ (t.write (a ++ c) null).done ∧
      (t.write (a ++ c) null).root.get? a = some (int 1) := by
  intro t a b c
  obtain ⟨hb, -⟩ := write_succeeds_iff t (b ++ c)
  obtain ⟨-, -, hkinds⟩ := write_succeeds_iff t (a ++ c)
  have hfail : ¬ (t.write (a ++ c) null).done := by decide
  refine ⟨(hb null).2 (.inr ⟨[], Text.ofString "b", c, _, rfl, rfl, rfl, ?_⟩), hfail,
    (hkinds null a fun h => absurd h hfail).2 _ rfl id⟩
  simp [c]

end Json

end JsonShelf
