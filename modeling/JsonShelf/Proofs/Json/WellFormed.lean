import JsonShelf.Json.Reader
import JsonShelf.Proofs.Except
import JsonShelf.Proofs.Json.Hereditary
import JsonShelf.Proofs.Json.Number

/-!
# The values that documents hold

Not every tree is the value of a text: integers have a limit on their digits, and the names in an
object are distinct. Both are kept by everything that is done with a document. The reader makes only
such values, their parts are such values, and a write of such a value leaves one.

## Main definitions

* `Json.WellFormed` — integers within the limit, and distinct names

## Main results

* `wellFormed_of_read` — the value of a text is well formed
* `WellFormed.get?`, `WellFormed.write` — what is read and what a write leaves
-/

namespace JsonShelf

namespace KeyedList

variable {α β : Type} [DecidableEq α]

theorem nodup_keys_insert {key : α} {value : β} {entries : KeyedList α β}
    (h : (keys entries).Nodup) : (keys (insert key value entries)).Nodup := by
  rw [keys_insert]
  split
  · exact h
  · next hmem =>
    rw [List.nodup_append]
    refine ⟨h, List.nodup_singleton _, ?_⟩
    intro a ha b hb
    rw [List.mem_singleton.1 hb]
    exact fun e => hmem (e ▸ ha)

/-- A new key goes to the end. -/
theorem insert_of_not_mem {key : α} {entries : KeyedList α β} (h : key ∉ keys entries)
    (value : β) : insert key value entries = entries ++ [(key, value)] := by
  induction entries with
  | nil => rfl
  | cons entry rest ih =>
    have hne : entry.1 ≠ key := fun e => h (e ▸ List.mem_cons_self ..)
    rw [insert, if_neg hne, ih fun hmem => h (List.mem_cons_of_mem _ hmem), List.cons_append]

end KeyedList

namespace Json

/-- The values of texts: integers have no more digits than are read, and the names in an object are
distinct. -/
inductive WellFormed : Json → Prop
  | null : WellFormed null
  | bool (b : Bool) : WellFormed (bool b)
  | int {n : Int} (h : (Numeral.ofNat n.natAbs).length ≤ Numeral.digitLimit) : WellFormed (int n)
  | double (x : Double) : WellFormed (double x)
  | str (s : Text) : WellFormed (str s)
  | arr {items : List Json} (h : ∀ item ∈ items, WellFormed item) : WellFormed (arr items)
  | obj {members : Members} (hkeys : (KeyedList.keys members).Nodup)
    (h : ∀ m ∈ members, WellFormed m.2) : WellFormed (obj members)

/-! ### Parts and writes -/

theorem WellFormed.nil : (Json.obj []).WellFormed :=
  .obj List.nodup_nil fun _ h => by cases h

theorem WellFormed.insert {members : Members} {x : Json} (h : (Json.obj members).WellFormed)
    (name : Text) (hx : x.WellFormed) :
    (Json.obj (KeyedList.insert name x members)).WellFormed := by
  cases h with
  | obj hkeys hmembers =>
    refine .obj (KeyedList.nodup_keys_insert hkeys) ?_
    intro m hm
    rcases KeyedList.mem_insert hm with rfl | hm
    · exact hx
    · exact hmembers m hm

theorem hereditary_wellFormed : Hereditary (fun _ => True) WellFormed where
  item h := by
    cases h with
    | arr hitems => exact hitems
  array h := .arr h
  member h := by
    cases h with
    | obj hkeys hmembers => exact hmembers
  nil := .nil
  insert h _ hx := h.insert _ hx

/-- What is at a path of a well-formed value is well formed. -/
theorem WellFormed.get? {t v : Json} {p : Path} (ht : t.WellFormed) (h : t.get? p = some v) :
    v.WellFormed :=
  hereditary_wellFormed.get? ht h

/-- A write of a well-formed value leaves a well-formed document. -/
theorem WellFormed.write {t v : Json} (ht : t.WellFormed) (p : Path) (hv : v.WellFormed) :
    (t.write p v).root.WellFormed :=
  hereditary_wellFormed.write ht (fun _ _ => trivial) hv

/-! ### What the reader makes -/

/-- The tokens that texts are cut into: literals are scalars, and integers have digits. -/
def Token.WellFormed : Token → Prop
  | .literal v => v.WellFormed
  | .integer _ digits => Number.AreDigits digits
  | _ => True

theorem Token.wellFormed_ofNumber {s after : Text} {n : Number}
    (h : Number.read s = some (n, after)) : (ofNumber n).WellFormed := by
  obtain ⟨t, -, hliteral⟩ := Number.literal_of_read h
  rw [ofNumber]
  split
  · cases hliteral with
    | parts hsign hdigits hfraction hexponent => exact Number.areDigits_of_whole hdigits
  · exact .double _

theorem Token.wellFormed_scan (c : CodePoint) (rest : Text) : (scan c rest).1.WellFormed := by
  rw [scan]
  split
  · next token h =>
    have hmem : ∃ entry ∈ punctuation, entry.2 = token := by
      obtain ⟨l₁, l₂, hl, -⟩ := List.lookup_eq_some_iff.1 h
      exact ⟨(c, token), by rw [hl]; simp, rfl⟩
    obtain ⟨entry, hentry, rfl⟩ := hmem
    simp only [punctuation, List.mem_cons, List.not_mem_nil, or_false] at hentry
    rcases hentry with rfl | rfl | rfl | rfl | rfl | rfl <;> trivial
  · split
    · split <;> trivial
    · split
      · next value after h =>
        obtain ⟨entry, hfind, heq⟩ := Option.map_eq_some_iff.1 h
        have hentry := List.mem_of_find?_eq_some hfind
        cases heq
        simp only [keywords, List.mem_cons, List.not_mem_nil, or_false] at hentry
        rcases hentry with rfl | rfl | rfl | rfl | rfl | rfl <;> constructor
      · split
        · next n after h => exact wellFormed_ofNumber h
        · trivial

theorem Lexeme.wellFormed_of_mem_list {s : Text} {l : Lexeme} (h : l ∈ list s) :
    l.token.WellFormed := by
  fun_induction list s with
  | case1 => cases h
  | case2 s c rest hs hlt ih =>
    rcases List.mem_cons.1 h with rfl | h
    · exact Token.wellFormed_scan c rest
    · exact ih h

/-- The open arrays and objects hold well-formed values. -/
def Frame.WellFormed : Frame → Prop
  | .array items => ∀ item ∈ items, item.WellFormed
  | .object members _ => (obj members).WellFormed

/-- Everything that a state holds is well formed. -/
def State.WellFormed : State → Prop
  | .value frames | .firstItem frames | .firstName frames => ∀ f ∈ frames, f.WellFormed
  | .name members frames | .colon members _ frames =>
    (obj members).WellFormed ∧ ∀ f ∈ frames, f.WellFormed
  | .complete v frames => v.WellFormed ∧ ∀ f ∈ frames, f.WellFormed

namespace State

variable {frames : List Frame} {lexeme : Lexeme} {state state' : State}

theorem wellFormed_takeValue (hf : ∀ f ∈ frames, f.WellFormed) (hl : lexeme.token.WellFormed)
    (h : takeValue frames lexeme = .ok state') : state'.WellFormed := by
  rw [takeValue] at h
  split at h
  · cases h
    exact hf
  · cases h
    exact hf
  · next v hv =>
    cases h
    rw [hv] at hl
    exact ⟨hl, hf⟩
  · cases h
    exact ⟨.str _, hf⟩
  · next negative digits hd =>
    rw [hd] at hl
    split at h
    · next n hn =>
      cases h
      rw [Numeral.read] at hn
      split at hn
      · next hlen =>
        cases hn
        have hle := Nat.le_trans (Numeral.length_ofNat_toNat_le hl.1 hl.2) hlen
        refine ⟨.int ?_, hf⟩
        cases negative <;> simpa using hle
      · cases hn
    · cases h
  · cases h
  · cases h

theorem wellFormed_takeName {members : Members} (hm : (obj members).WellFormed)
    (hf : ∀ f ∈ frames, f.WellFormed) (h : takeName members frames lexeme = .ok state') :
    state'.WellFormed := by
  rw [takeName] at h
  split at h
  · cases h
    exact ⟨hm, hf⟩
  · cases h
  · cases h

/-- One lexeme keeps everything well formed. -/
theorem wellFormed_step (hs : state.WellFormed) (hl : lexeme.token.WellFormed)
    (h : step state lexeme = .ok state') : state'.WellFormed := by
  rw [step.eq_def] at h
  split at h
  · exact wellFormed_takeValue hs hl h
  · cases h
    exact ⟨.arr (fun _ hi => by cases hi), hs⟩
  · refine wellFormed_takeValue (fun f hf => ?_) hl h
    rcases List.mem_cons.1 hf with rfl | hf
    · exact fun _ hi => by cases hi
    · exact hs f hf
  · cases h
    exact ⟨.nil, hs⟩
  · exact wellFormed_takeName .nil hs h
  · exact wellFormed_takeName hs.1 hs.2 h
  · cases h
    exact List.forall_mem_cons.2 hs
  · cases h
    obtain ⟨hv, hf⟩ := hs
    obtain ⟨hitems, hf⟩ := List.forall_mem_cons.1 hf
    exact List.forall_mem_cons.2 ⟨List.forall_mem_cons.2 ⟨hv, hitems⟩, hf⟩
  · cases h
    obtain ⟨hv, hf⟩ := hs
    obtain ⟨hitems, hf⟩ := List.forall_mem_cons.1 hf
    refine ⟨.arr ?_, hf⟩
    intro item hitem
    exact List.forall_mem_cons.2 ⟨hv, hitems⟩ item (List.mem_reverse.1 hitem)
  · cases h
    obtain ⟨hv, hf⟩ := hs
    obtain ⟨hmembers, hf⟩ := List.forall_mem_cons.1 hf
    exact ⟨WellFormed.insert hmembers _ hv, hf⟩
  · cases h
    obtain ⟨hv, hf⟩ := hs
    obtain ⟨hmembers, hf⟩ := List.forall_mem_cons.1 hf
    exact ⟨WellFormed.insert hmembers _ hv, hf⟩
  · cases h

/-- Any lexemes keep everything well formed. -/
theorem wellFormed_foldlM {lexemes : List Lexeme} (hl : ∀ l ∈ lexemes, l.token.WellFormed)
    (hs : state.WellFormed) (h : lexemes.foldlM step state = .ok state') : state'.WellFormed := by
  induction lexemes generalizing state with
  | nil =>
    cases h
    exact hs
  | cons l lexemes ih =>
    rw [List.foldlM_cons, bind_eq_ok_iff] at h
    obtain ⟨next, hstep, h⟩ := h
    obtain ⟨hl, hlexemes⟩ := List.forall_mem_cons.1 hl
    exact ih hlexemes (wellFormed_step hs hl hstep) h

end State

/-- **The value of a text is well formed.** -/
theorem wellFormed_of_read {t : Text} {v : Json} (h : read t = .ok v) : v.WellFormed := by
  obtain ⟨state, hstate, h⟩ := bind_eq_ok_iff.1 h
  have hstart : (State.value []).WellFormed := fun _ hf => by cases hf
  have hs : state.WellFormed :=
    State.wellFormed_foldlM (fun _ => Lexeme.wellFormed_of_mem_list) hstart hstate
  rw [State.finish.eq_def] at h
  split at h
  · cases h
    exact hs.1
  · cases h

theorem wellFormed_of_readDocument {t : Text} {v : Json} (h : readDocument t = .ok v) :
    v.WellFormed := by
  rw [readDocument] at h
  split at h
  · cases h
  · exact wellFormed_of_read h

end Json

end JsonShelf
