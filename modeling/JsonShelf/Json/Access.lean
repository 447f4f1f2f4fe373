import JsonShelf.Json.Basic
import JsonShelf.Path.Basic

/-!
# Reading and writing at a path

Reading follows a path down through a document. Writing does the same and puts a value at the end of
the path. On its way it makes an empty object for every key that is missing, but it never makes or
lengthens an array and never turns a value of another kind into an object.

A write that cannot be finished has still made those objects, so `Json.write` tells both what
is left of the document and whether the value found its place.

## Main definitions

* `Json.child?`, `Json.get?` — one step down, and a whole path
* `Json.write` — put a value at a path
* `Json.Written` — what a write leaves behind
-/

namespace JsonShelf

namespace Json

/-- The value one step below. -/
def child? : Json → Segment → Option Json
  | obj members, .key name => KeyedList.find? name members
  | arr items, .index i => if 0 ≤ i then items[i.toNat]? else none
  | _, _ => none

/-- The value at the end of a path, if the path leads somewhere. -/
def get? (t : Json) : Path → Option Json
  | [] => some t
  | s :: path => (t.child? s).bind (get? · path)

@[simp] theorem get?_nil (t : Json) : t.get? [] = some t := rfl

@[simp] theorem get?_cons (t : Json) (s : Segment) (path : Path) :
    t.get? (s :: path) = (t.child? s).bind (·.get? path) := rfl

/-- Following two paths one after the other is following both in turn. -/
theorem get?_append (t : Json) (p q : Path) :
    t.get? (p ++ q) = (t.get? p).bind (·.get? q) := by
  induction p generalizing t with
  | nil => rfl
  | cons s p ih => simp [ih, Option.bind_assoc]

/-- What a write leaves behind. -/
structure Written where
  /-- The document after the write. -/
  root : Json
  /-- Whether the value is in its place. -/
  done : Bool

/-- Put `value` at the end of a path. A key that is missing on the way gets an empty object, which
stays when a later step fails. -/
def write : (t : Json) → Path → (value : Json) → Written
  | _, [], value => ⟨value, true⟩
  | obj members, .key name :: path, value =>
    let below := write ((KeyedList.find? name members).getD (obj [])) path value
    ⟨obj (KeyedList.insert name below.root members), below.done⟩
  | arr items, .index i :: path, value =>
    match (arr items).child? (.index i) with
    | some item =>
      let below := write item path value
      ⟨arr (items.set i.toNat below.root), below.done⟩
    | none => ⟨arr items, false⟩
  | t, _ :: _, _ => ⟨t, false⟩

@[simp] theorem write_nil (t value : Json) : t.write [] value = ⟨value, true⟩ := by
  simp [write]

end Json

end JsonShelf
