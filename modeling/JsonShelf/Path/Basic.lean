import JsonShelf.Text.CodePoint

/-!
# Paths into a document

A path is the list of steps from the root of a document to one of its values: into an object by a
key, into an array by a position. Keys may be any texts, and positions any integers: which of them
lead somewhere is for the document to say, and which of them can be written down for `Path.parse`.
-/

namespace JsonShelf

/-- One step down into a document. -/
inductive Segment
  /-- Into an object, to the value of a key. -/
  | key (name : Text)
  /-- Into an array, to the item at a position, counted from zero. -/
  | index (position : Int)
deriving DecidableEq

/-- The steps from the root of a document to a value; no steps lead to the root itself. -/
abbrev Path := List Segment

end JsonShelf
