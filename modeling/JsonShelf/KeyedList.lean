/-!
# Keyed lists

Lists of keys with values that remember the order in which keys first came. Putting a value under a
key that is already there keeps the key's position; a new key goes to the end. JSON objects are of
this kind.

## Main definitions

* `KeyedList.find?`, `KeyedList.insert` — look a key up, and put a value under one
* `KeyedList.keys` — the keys in order

## Main results

* `find?_insert_self`, `find?_insert_of_ne` — what is found after an insertion
* `keys_insert` — the keys in order afterwards
-/

namespace JsonShelf

/-- A list of keys with values; the first entry of a key is the one that counts. -/
abbrev KeyedList (α β : Type) := List (α × β)

namespace KeyedList

variable {α β : Type} [DecidableEq α]

/-- The keys, in order. -/
def keys (entries : KeyedList α β) : List α := entries.map (·.1)

/-- The value under `key`, if the key is there. -/
def find? (key : α) : KeyedList α β → Option β
  | [] => none
  | entry :: rest => if entry.1 = key then some entry.2 else find? key rest

/-- Put `value` under `key`: at the position of `key` if it is there, else at the end. -/
def insert (key : α) (value : β) : KeyedList α β → KeyedList α β
  | [] => [(key, value)]
  | entry :: rest =>
    if entry.1 = key then (key, value) :: rest else entry :: insert key value rest

@[simp] theorem find?_insert_self (key : α) (value : β) (entries : KeyedList α β) :
    find? key (insert key value entries) = some value := by
  induction entries with
  | nil => simp [insert, find?]
  | cons entry rest ih =>
    by_cases h : entry.1 = key
    · simp [insert, find?, h]
    · simp [insert, find?, h, ih]

theorem find?_insert_of_ne {key other : α} (hne : other ≠ key) (value : β)
    (entries : KeyedList α β) :
    find? other (insert key value entries) = find? other entries := by
  induction entries with
  | nil => simp [insert, find?, hne.symm]
  | cons entry rest ih =>
    by_cases h : entry.1 = key
    · simp [insert, find?, h, hne.symm]
    · simp [insert, find?, h, ih]

/-- A key that is there keeps its position, and a new one comes last. -/
theorem keys_insert (key : α) (value : β) (entries : KeyedList α β) :
    keys (insert key value entries) =
      if key ∈ keys entries then keys entries else keys entries ++ [key] := by
  induction entries with
  | nil => simp [insert, keys]
  | cons entry rest ih =>
    have hcons : keys (entry :: rest) = entry.1 :: keys rest := rfl
    by_cases h : entry.1 = key
    · simp [insert, keys, h]
    · have hne : key ≠ entry.1 := fun e => h e.symm
      have hput : keys (insert key value (entry :: rest)) =
          entry.1 :: keys (insert key value rest) := by
        rw [insert, if_neg h]; rfl
      by_cases hmem : key ∈ keys rest
      · rw [hput, ih, hcons, if_pos hmem, if_pos (List.mem_cons_of_mem _ hmem)]
      · rw [hput, ih, hcons, if_neg hmem, if_neg (by simp [hne, hmem]), List.cons_append]

end KeyedList

end JsonShelf
