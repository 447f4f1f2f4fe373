import JsonShelf.Proofs.Encoding.Strictness

/-!
# Where bytes stop being a text

Bytes that cannot be decoded begin with a text all the same, perhaps an empty one: behind the mark,
as far as pieces are code points. Then comes the first piece that is none. The bytes before it are
fixed by this, and so is the text they are, because cutting has no choices.

Strict reading fails at the first bad piece and tells how many bytes there are before it. Reading
with replacements gives the same text so far, and goes on with `U+FFFD`. The two do not count
alike: the bytes before the piece are as many as the characters of the text only if each of these
takes one byte, which in UTF-8 is ASCII, and with units of several bytes nothing at all.

## Main definitions

* `Encoding.Broken` — the bytes before the first bad piece, and their text
* `Scheme.IsSingle` — the code points that take one byte

## Main results

* `exists_broken`, `Broken.unique` — bytes that cannot be decoded are broken in one place
* `Broken.decode_eq_error`, `Broken.decodeReplacing_eq` — what the two ways of reading make of them
* `length_le_of_encodeBody` — bytes and characters
-/

namespace JsonShelf

namespace ByteOrder

theorem length_bytesLowestFirst (width n : Nat) : (bytesLowestFirst width n).length = width := by
  induction width generalizing n with
  | zero => rfl
  | succ width ih => rw [bytesLowestFirst, List.length_cons, ih]

@[simp] theorem length_bytes (order : ByteOrder) (width n : Nat) :
    (order.bytes width n).length = width := by
  cases order with
  | little => exact length_bytesLowestFirst width n
  | big => rw [bytes, List.length_reverse, length_bytesLowestFirst]

end ByteOrder

namespace Encoding

variable {e : Encoding}

/-! ### Bytes and characters -/

/-- Code points that take one byte. -/
def Scheme.IsSingle : Scheme → CodePoint → Prop
  | utf8, c => c.val < 0x80
  | utf16 _, _ | utf32 _, _ => False
  | ascii, _ | latin1, _ => True

instance (s : Scheme) (c : CodePoint) : Decidable (s.IsSingle c) :=
  match s with
  | .utf8 => inferInstanceAs (Decidable (c.val < 0x80))
  | .utf16 _ | .utf32 _ => inferInstanceAs (Decidable False)
  | .ascii | .latin1 => inferInstanceAs (Decidable True)

theorem Utf8.length_of_encode? {c : CodePoint} {bytes : Bytes} (h : encode? c = some bytes) :
    0 < bytes.length ∧ (bytes.length = 1 ↔ c.val < 0x80) := by
  rw [encode?] at h
  split at h
  · next hc =>
    cases h
    simp [hc]
  next hc =>
  split at h
  · cases h
    simp [hc]
  split at h
  · cases h
  split at h
  · cases h
    simp [hc]
  · cases h
    simp [hc]

theorem Utf16.length_of_encode? {order : ByteOrder} {c : CodePoint} {bytes : Bytes}
    (h : encode? order c = some bytes) : 1 < bytes.length := by
  rw [encode?] at h
  split at h
  · cases h
  split at h
  · cases h
    simp
  · cases h
    simp

theorem Utf32.length_of_encode? {order : ByteOrder} {c : CodePoint} {bytes : Bytes}
    (h : encode? order c = some bytes) : bytes.length = 4 := by
  rw [encode?] at h
  split at h
  · cases h
  · cases h
    simp

/-- The code points that take one byte do, and the others take more. -/
theorem Scheme.length_of_encode? {s : Scheme} {c : CodePoint} {bytes : Bytes}
    (h : s.encode? c = some bytes) : 0 < bytes.length ∧ (bytes.length = 1 ↔ s.IsSingle c) := by
  cases s with
  | utf8 => exact Utf8.length_of_encode? h
  | utf16 order =>
    have := Utf16.length_of_encode? h
    exact ⟨by omega, iff_of_false (by omega) id⟩
  | utf32 order =>
    have := Utf32.length_of_encode? h
    exact ⟨by omega, iff_of_false (by omega) id⟩
  | ascii =>
    rw [encode?] at h
    split at h
    · cases h
      simp [IsSingle]
    · cases h
  | latin1 =>
    rw [encode?] at h
    split at h
    · cases h
      simp [IsSingle]
    · cases h

/-- **A text has no more characters than bytes**, and as many if each takes one byte. -/
theorem length_le_of_encodeBody {position : Nat} {t : Text} {body : Bytes}
    (h : e.encodeBody position t = .ok body) :
    t.length ≤ body.length ∧ (body.length = t.length ↔ ∀ c ∈ t, e.scheme.IsSingle c) := by
  induction t generalizing position body with
  | nil =>
    rw [encodeBody, Except.ok.injEq] at h
    simp [← h]
  | cons c t ih =>
    obtain ⟨bytes, body, hc, hbody, rfl⟩ := encodeBody_cons_eq_ok_iff.1 h
    obtain ⟨hpos, hone⟩ := Scheme.length_of_encode? hc
    obtain ⟨hle, heq⟩ := ih hbody
    rw [List.forall_mem_cons, ← hone, ← heq, List.length_append, List.length_cons]
    omega

/-! ### The first bad piece -/

/-- The bytes of `content` behind its mark begin with the bytes `before`, which are the text `text`,
and go on with bytes that are no code point. -/
structure Broken (e : Encoding) (content before : Bytes) (text : Text) : Prop where
  text : (plain (e.opening content).scheme).decode before = .ok text
  fault : ∃ b rest reason extra,
    content.drop (e.opening content).markSize = before ++ b :: rest ∧
      (e.opening content).scheme.next b rest = .bad reason extra

/-- Behind the bytes of a text, reading with replacements goes on as if it started there. -/
theorem replacedText_pieces_append {position : Nat} {t : Text} {body : Bytes}
    (h : e.encodeBody position t = .ok body) (rest : Bytes) :
    replacedText (pieces e.scheme.next (body ++ rest)) =
      t ++ replacedText (pieces e.scheme.next rest) := by
  induction t generalizing position body with
  | nil =>
    rw [encodeBody, Except.ok.injEq] at h
    rw [← h]
    rfl
  | cons c t ih =>
    obtain ⟨bytes, body, hc, hbody, rfl⟩ := encodeBody_cons_eq_ok_iff.1 h
    obtain ⟨extra, -, hpieces⟩ := pieces_of_encode? hc (body ++ rest)
    rw [List.append_assoc, hpieces, replacedText, List.map_cons, ← replacedText, ih hbody]
    rfl

/-- Bytes that are no text begin with the bytes of one, up to a bad piece. -/
theorem exists_encodeBody_of_textOf {s : Scheme} {bytes : Bytes} {bad : BadPiece}
    (h : textOf (pieces s.next bytes) = .error bad) (position : Nat) :
    ∃ before t, (plain s).encodeBody position t = .ok before ∧
      ∃ b rest reason extra, bytes = before ++ b :: rest ∧ s.next b rest = .bad reason extra := by
  fun_induction pieces s.next bytes generalizing bad position with
  | case1 => cases h
  | case2 b rest ih =>
    cases hnext : s.next b rest with
    | bad reason extra => exact ⟨[], [], rfl, b, rest, reason, extra, rfl, hnext⟩
    | char c extra =>
      obtain ⟨tl, rest', rfl, rfl, hbytes⟩ := Scheme.encode?_of_next hnext
      rw [hnext, Piece.extra, List.drop_left] at ih
      rw [hnext, Piece.extra, List.drop_left, textOf_char, mapError_eq_error_iff] at h
      obtain ⟨bad', h, -⟩ := h
      obtain ⟨before, t, hbefore, b', rest, reason, extra, rfl, hbad⟩ :=
        ih (map_eq_error_iff.1 h) (position + 1)
      refine ⟨b :: tl ++ before, c :: t, ?_, b', rest, reason, extra, ?_, hbad⟩
      · exact encodeBody_cons_eq_ok_iff.2 ⟨b :: tl, before, hbytes, hbefore, rfl⟩
      · rw [List.append_assoc]
        rfl

/-- **Bytes that cannot be decoded are broken somewhere.** -/
theorem exists_broken {content : Bytes} {u : Undecodable} (h : e.decode content = .error u) :
    ∃ before text, e.Broken content before text := by
  rw [decode, decodeWith, mapError_eq_error_iff] at h
  obtain ⟨bad, hread, -⟩ := h
  obtain ⟨before, text, hbefore, hfault⟩ := exists_encodeBody_of_textOf hread 0
  exact ⟨before, text, decode_of_encode (map_eq_ok_iff.2 ⟨before, hbefore, rfl⟩), hfault⟩

namespace Broken

variable {content before before' : Bytes} {text text' : Text}

/-- The bytes before the fault are those of their text. -/
theorem encodeBody (h : e.Broken content before text) :
    (plain (e.opening content).scheme).encodeBody 0 text = .ok before := by
  obtain ⟨body, hbody, rfl⟩ := map_eq_ok_iff.1 (encode_of_decode h.text)
  exact hbody

/-- **Strict reading fails at the fault**, and counts bytes. -/
theorem decode_eq_error (h : e.Broken content before text) :
    ∃ u, e.decode content = .error u ∧
      u.position = (e.opening content).origin + before.length := by
  obtain ⟨b, rest, reason, extra, hcontent, hbad⟩ := h.fault
  have hread := textOf_pieces_append h.encodeBody (b :: rest)
  rw [pieces_cons, scheme, hbad, ← hcontent] at hread
  rw [decode, decodeWith]
  simp only [hread]
  exact ⟨_, rfl, rfl⟩

/-- **Reading with replacements** gives the text before the fault and goes on with `U+FFFD`. -/
theorem decodeReplacing_eq (h : e.Broken content before text) :
    ∃ after, e.decodeReplacing content = text ++ .replacement :: after := by
  obtain ⟨b, rest, reason, extra, hcontent, hbad⟩ := h.fault
  have hread := replacedText_pieces_append h.encodeBody (b :: rest)
  rw [pieces_cons, scheme, hbad, ← hcontent] at hread
  exact ⟨_, hread⟩

/-- Bytes that cannot be decoded are broken in one place. -/
theorem unique (h : e.Broken content before text) (h' : e.Broken content before' text') :
    before' = before ∧ text' = text := by
  obtain ⟨u, hu, hposition⟩ := h.decode_eq_error
  obtain ⟨u', hu', hposition'⟩ := h'.decode_eq_error
  have hlength : before'.length = before.length := by
    cases hu.symm.trans hu'
    omega
  obtain ⟨b, rest, -, -, hcontent, -⟩ := h.fault
  obtain ⟨b', rest', -, -, hcontent', -⟩ := h'.fault
  have hbefore : before' = before :=
    (List.append_inj (hcontent'.symm.trans hcontent) hlength).1
  have htext := h'.text
  rw [hbefore, h.text, Except.ok.injEq] at htext
  exact ⟨hbefore, htext.symm⟩

/-- The bytes before the fault, and those of the mark if they are counted, are as many as the
characters before it only if each of these takes one byte. -/
theorem origin_add_length_eq_iff (h : e.Broken content before text) :
    (e.opening content).origin + before.length = text.length ↔
      (e.opening content).origin = 0 ∧ ∀ c ∈ text, (e.opening content).scheme.IsSingle c := by
  obtain ⟨hle, heq⟩ := length_le_of_encodeBody h.encodeBody
  rw [scheme] at heq
  rw [← heq]
  omega

end Broken

end Encoding

end JsonShelf
