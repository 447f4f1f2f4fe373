import JsonShelf.Text.CodePoint

/-!
# File paths

Slash-separated paths, compared and joined by their text alone. A path is an anchor and a list of
names. Empty names and single dots say nothing and are dropped when a path is read; double dots are
kept, since what they mean is for a file tree to say. Exactly two leading slashes are an anchor of
their own, while three or more are the same as one.

## Main definitions

* `FilePath`, `FilePath.ofText`, `FilePath.toText` — paths, from text and to text
* `FilePath.join` — a path seen from another one
-/

namespace JsonShelf

/-- Where a path starts. -/
inductive FilePath.Anchor
  /-- Wherever it is seen from. -/
  | relative
  /-- At the root. -/
  | root
  /-- At the root that is written with two slashes. -/
  | doubleRoot
deriving DecidableEq

/-- An anchor and the names to follow from there. -/
structure FilePath where
  anchor : FilePath.Anchor
  names : List Text
deriving DecidableEq

namespace FilePath

/-- The slash between names. -/
def slash : CodePoint := '/'

/-- The name that stays where it is. -/
def here : Text := ['.']

/-- The name that leads one level up. -/
def up : Text := ['.', '.']

/-- The anchor of a text that starts with `n` slashes. -/
def Anchor.ofSlashes : (n : Nat) → Anchor
  | 0 => relative
  | 2 => doubleRoot
  | _ => root

/-- The slashes of an anchor. -/
def Anchor.toText : Anchor → Text
  | relative => []
  | root => [slash]
  | doubleRoot => [slash, slash]

/-- The names between slashes that say something. -/
def namesOf (t : Text) : List Text :=
  (t.splitOn slash).filter fun name => decide (name ≠ [] ∧ name ≠ here)

/-- The path that a text writes. -/
def ofText (t : Text) : FilePath where
  anchor := .ofSlashes (t.takeWhile fun c => decide (c = slash)).length
  names := namesOf t

/-- A path as text. The path that leads nowhere is a single dot. -/
def toText (p : FilePath) : Text :=
  match p.anchor.toText ++ [slash].intercalate p.names with
  | [] => here
  | t => t

/-- The path `q` seen from `p`; unless `q` is relative, it does not matter from where. -/
def join (p q : FilePath) : FilePath :=
  if q.anchor = .relative then ⟨p.anchor, p.names ++ q.names⟩ else q

end FilePath

end JsonShelf
