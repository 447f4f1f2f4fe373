import JsonShelf.Proofs.Encoding.RoundTrip

/-!
# Only encodings decode

Strict reading takes nothing for a text but the bytes that the text is written as. What has to be
shown for a scheme is the converse of `Scheme.next_of_encode?`: a piece that is a code point is made
of the bytes of this code point. For UTF-8 it comes down to the ranges of the second byte, which
leave no number that would take fewer bytes, no surrogate and nothing above `U+10FFFF`; for units of
several bytes, to a unit being made of the bytes of its number.

So a byte sequence that no text is written as is refused: overlong forms, surrogates that are stored
by themselves, numbers that are too large, halves of pairs, and units that are cut.

## Scope

Only the plain encodings are strict in this sense. One that drops a mark reads the same text with
and without it, and UTF-16 with a mark reads either byte order, while each writes in one way.

## Main definitions

* `Scheme.Covers` — the code points that a scheme is made for

## Main results

* `Scheme.stores_iff` — what a scheme has
* `Scheme.encode?_of_next` — a piece that is a code point is made of its bytes
* `encode_of_decode` — bytes that are read are the ones that are written
* `decoding_undoes_encoding` — all that encodings and texts have to do with each other
-/

namespace JsonShelf

/-! ### The bytes of a number -/

namespace ByteOrder

theorem lowestFirst_lt (unit : Bytes) : lowestFirst unit < Nat.pow 256 unit.length := by
  induction unit with
  | nil => exact Nat.one_pos
  | cons b unit ih =>
    have hb := b.toNat_lt
    have hpow : Nat.pow 256 (unit.length + 1) = Nat.pow 256 unit.length * 256 := rfl
    rw [lowestFirst, List.length_cons, hpow]
    omega

theorem bytesLowestFirst_lowestFirst (unit : Bytes) :
    bytesLowestFirst unit.length (lowestFirst unit) = unit := by
  induction unit with
  | nil => rfl
  | cons b unit ih =>
    have hb := b.toNat_lt
    have hmod : (b.toNat + 256 * lowestFirst unit) % 256 = b.toNat := by omega
    have hdiv : (b.toNat + 256 * lowestFirst unit) / 256 = lowestFirst unit := by omega
    rw [lowestFirst, List.length_cons, bytesLowestFirst, hmod, hdiv, ih, UInt8.ofNat_toNat]

theorem number_lt (order : ByteOrder) (unit : Bytes) :
    order.number unit < Nat.pow 256 unit.length := by
  cases order with
  | little => exact lowestFirst_lt unit
  | big =>
    rw [number, ← List.length_reverse]
    exact lowestFirst_lt unit.reverse

/-- A unit is made of the bytes of its number. -/
theorem bytes_number (order : ByteOrder) (unit : Bytes) :
    order.bytes unit.length (order.number unit) = unit := by
  cases order with
  | little => exact bytesLowestFirst_lowestFirst unit
  | big =>
    rw [bytes, number, ← List.length_reverse, bytesLowestFirst_lowestFirst, List.reverse_reverse]

end ByteOrder

namespace Encoding

/-! ### UTF-8 -/

namespace Utf8

/-- A sequence that goes on goes on with a byte in range. -/
theorem follow_succ_eq_char_iff {bits taken low high count extra : Nat} {bytes : Bytes}
    {c : CodePoint} :
    follow bits taken low high (count + 1) bytes = .char c extra ↔
      ∃ b rest, bytes = b :: rest ∧ low ≤ b.toNat ∧ b.toNat ≤ high ∧
        follow (bits * 0x40 + (b.toNat - 0x80)) (taken + 1) 0x80 0xBF count rest =
          .char c extra := by
  constructor
  · intro h
    cases bytes with
    | nil => cases h
    | cons b rest =>
      rw [follow] at h
      split at h
      · next hb => exact ⟨b, rest, rfl, hb.1, hb.2, h⟩
      · cases h
  · rintro ⟨b, rest, rfl, hlow, hhigh, h⟩
    rw [follow_succ hlow hhigh, h]

theorem follow_zero_eq_char_iff {bits taken low high extra : Nat} {bytes : Bytes} {c : CodePoint} :
    follow bits taken low high 0 bytes = .char c extra ↔
      CodePoint.ofNat bits = c ∧ taken = extra := by
  rw [follow, Piece.char.injEq]

/-- First bytes, sorted by the number of bytes that follow. -/
theorem lead?_cases {b : Nat} {lead : Lead} (h : lead? b = some lead) :
    (∃ m, 2 ≤ m ∧ m < 0x20 ∧ b = 0xC0 + m ∧ lead = ⟨m, 1, 0x80, 0xBF⟩) ∨
      (∃ m < 0x10, b = 0xE0 + m ∧
        lead = ⟨m, 2, if m = 0 then 0xA0 else 0x80, if m = 0xD then 0x9F else 0xBF⟩) ∨
      ∃ m < 5, b = 0xF0 + m ∧
        lead = ⟨m, 3, if m = 0 then 0x90 else 0x80, if m = 4 then 0x8F else 0xBF⟩ := by
  by_cases h1 : b < 0xC2
  · rw [lead?, if_pos h1] at h
    cases h
  by_cases h2 : b < 0xE0
  · obtain ⟨m, rfl⟩ : ∃ m, b = 0xC0 + m := ⟨b - 0xC0, by omega⟩
    rw [lead?_of_two (by omega) (by omega), Option.some.injEq] at h
    exact .inl ⟨m, by omega, by omega, rfl, h.symm⟩
  by_cases h3 : b < 0xF0
  · obtain ⟨m, rfl⟩ : ∃ m, b = 0xE0 + m := ⟨b - 0xE0, by omega⟩
    rw [lead?_of_three m (by omega), Option.some.injEq] at h
    exact .inr (.inl ⟨m, by omega, rfl, h.symm⟩)
  by_cases h4 : b < 0xF5
  · obtain ⟨m, rfl⟩ : ∃ m, b = 0xF0 + m := ⟨b - 0xF0, by omega⟩
    rw [lead?_of_four m (by omega), Option.some.injEq] at h
    exact .inr (.inr ⟨m, by omega, rfl, h.symm⟩)
  · rw [lead?, if_neg h1, if_neg h2, if_neg (by omega), if_neg (by omega), if_neg h3,
      if_neg (by omega), if_neg (by omega), if_neg (by omega)] at h
    cases h

/-- A byte behind the first one is known by its six bits. -/
theorem tail_eq {n place : Nat} {b : UInt8}
    (h : b.toNat = 0x80 + n / Nat.pow 0x40 place % 0x40) : tail n place = b := by
  rw [← UInt8.toNat_inj, toNat_tail, h]

/-- A single byte. -/
theorem encode?_one {b : UInt8} (h : b.toNat < 0x80) :
    encode? (CodePoint.ofNat b.toNat) = some [b] := by
  simp only [encode?, CodePoint.val_ofNat (show b.toNat < 0x110000 by omega)]
  rw [if_pos h, UInt8.ofNat_toNat]

/-- Two bytes. -/
theorem encode?_two {m : Nat} {b b₁ : UInt8} (hm : 2 ≤ m) (hm' : m < 0x20)
    (hb : b.toNat = 0xC0 + m) (h₁ : 0x80 ≤ b₁.toNat) (h₁' : b₁.toNat ≤ 0xBF) :
    encode? (CodePoint.ofNat (m * 0x40 + (b₁.toNat - 0x80))) = some [b, b₁] := by
  generalize hn : m * 0x40 + (b₁.toNat - 0x80) = n
  have hlead : UInt8.ofNat (0xC0 + n / 0x40) = b := by
    rw [show 0xC0 + n / 0x40 = b.toNat by omega, UInt8.ofNat_toNat]
  have htail : tail n 0 = b₁ := tail_eq (by rw [Nat.pow_eq]; omega)
  simp only [encode?, CodePoint.val_ofNat (show n < 0x110000 by omega)]
  rw [if_neg (by omega), if_pos (by omega), hlead, htail]

/-- Three bytes. The range of the second byte keeps the number from being too small for them, and
from being a surrogate. -/
theorem encode?_three {m : Nat} {b b₁ b₂ : UInt8} (hm : m < 0x10) (hb : b.toNat = 0xE0 + m)
    (h₁ : (if m = 0 then 0xA0 else 0x80) ≤ b₁.toNat)
    (h₁' : b₁.toNat ≤ if m = 0xD then 0x9F else 0xBF) (h₂ : 0x80 ≤ b₂.toNat)
    (h₂' : b₂.toNat ≤ 0xBF) :
    encode? (CodePoint.ofNat ((m * 0x40 + (b₁.toNat - 0x80)) * 0x40 + (b₂.toNat - 0x80))) =
      some [b, b₁, b₂] := by
  generalize hn : (m * 0x40 + (b₁.toNat - 0x80)) * 0x40 + (b₂.toNat - 0x80) = n
  have hrange : 0x800 ≤ n ∧ n < 0x10000 ∧ ¬ (0xD800 ≤ n ∧ n < 0xE000) := by
    split at h₁ <;> split at h₁' <;> omega
  have hb₁ : 0x80 ≤ b₁.toNat ∧ b₁.toNat ≤ 0xBF := by
    split at h₁ <;> split at h₁' <;> omega
  have hlead : UInt8.ofNat (0xE0 + n / 0x1000) = b := by
    rw [show 0xE0 + n / 0x1000 = b.toNat by omega, UInt8.ofNat_toNat]
  have htail : tail n 1 = b₁ := tail_eq (by rw [Nat.pow_eq]; omega)
  have htail' : tail n 0 = b₂ := tail_eq (by rw [Nat.pow_eq]; omega)
  have hval : (CodePoint.ofNat n).val = n := CodePoint.val_ofNat (by omega)
  simp only [encode?, CodePoint.IsSurrogate, hval]
  rw [if_neg (by omega), if_neg (by omega), if_neg hrange.2.2, if_pos hrange.2.1, hlead, htail,
    htail']

/-- Four bytes. The range of the second byte keeps the number from being too small for them, and
from being no code point. -/
theorem encode?_four {m : Nat} {b b₁ b₂ b₃ : UInt8} (hm : m < 5) (hb : b.toNat = 0xF0 + m)
    (h₁ : (if m = 0 then 0x90 else 0x80) ≤ b₁.toNat)
    (h₁' : b₁.toNat ≤ if m = 4 then 0x8F else 0xBF) (h₂ : 0x80 ≤ b₂.toNat)
    (h₂' : b₂.toNat ≤ 0xBF) (h₃ : 0x80 ≤ b₃.toNat) (h₃' : b₃.toNat ≤ 0xBF) :
    encode? (CodePoint.ofNat (((m * 0x40 + (b₁.toNat - 0x80)) * 0x40 + (b₂.toNat - 0x80)) * 0x40 +
      (b₃.toNat - 0x80))) = some [b, b₁, b₂, b₃] := by
  generalize hn : ((m * 0x40 + (b₁.toNat - 0x80)) * 0x40 + (b₂.toNat - 0x80)) * 0x40 +
    (b₃.toNat - 0x80) = n
  have hrange : 0x10000 ≤ n ∧ n < 0x110000 := by
    split at h₁ <;> split at h₁' <;> omega
  have hb₁ : 0x80 ≤ b₁.toNat ∧ b₁.toNat ≤ 0xBF := by
    split at h₁ <;> split at h₁' <;> omega
  have hlead : UInt8.ofNat (0xF0 + n / 0x40000) = b := by
    rw [show 0xF0 + n / 0x40000 = b.toNat by omega, UInt8.ofNat_toNat]
  have htail : tail n 2 = b₁ := tail_eq (by rw [Nat.pow_eq]; omega)
  have htail' : tail n 1 = b₂ := tail_eq (by rw [Nat.pow_eq]; omega)
  have htail'' : tail n 0 = b₃ := tail_eq (by rw [Nat.pow_eq]; omega)
  simp only [encode?, CodePoint.IsSurrogate, CodePoint.val_ofNat hrange.2]
  rw [if_neg (by omega), if_neg (by omega), if_neg (by omega), if_neg (by omega), hlead, htail,
    htail', htail'']

/-- A piece that is a code point is made of its bytes. -/
theorem encode?_of_next {b : UInt8} {rest : Bytes} {c : CodePoint} {extra : Nat}
    (h : next b rest = .char c extra) :
    ∃ tl rest', rest = tl ++ rest' ∧ extra = tl.length ∧ encode? c = some (b :: tl) := by
  by_cases hb : b.toNat < 0x80
  · rw [next, if_pos hb] at h
    cases h
    exact ⟨[], rest, rfl, rfl, encode?_one hb⟩
  rw [next, if_neg hb] at h
  split at h
  · cases h
  next lead hlead =>
  rcases lead?_cases hlead with ⟨m, hm, hm', hbm, rfl⟩ | ⟨m, hm, hbm, rfl⟩ | ⟨m, hm, hbm, rfl⟩
  · obtain ⟨b₁, rest, rfl, h₁, h₁', h⟩ := follow_succ_eq_char_iff.1 h
    obtain ⟨rfl, rfl⟩ := follow_zero_eq_char_iff.1 h
    exact ⟨[b₁], rest, rfl, rfl, encode?_two hm hm' hbm h₁ h₁'⟩
  · obtain ⟨b₁, rest, rfl, h₁, h₁', h⟩ := follow_succ_eq_char_iff.1 h
    obtain ⟨b₂, rest, rfl, h₂, h₂', h⟩ := follow_succ_eq_char_iff.1 h
    obtain ⟨rfl, rfl⟩ := follow_zero_eq_char_iff.1 h
    exact ⟨[b₁, b₂], rest, rfl, rfl, encode?_three hm hbm h₁ h₁' h₂ h₂'⟩
  · obtain ⟨b₁, rest, rfl, h₁, h₁', h⟩ := follow_succ_eq_char_iff.1 h
    obtain ⟨b₂, rest, rfl, h₂, h₂', h⟩ := follow_succ_eq_char_iff.1 h
    obtain ⟨b₃, rest, rfl, h₃, h₃', h⟩ := follow_succ_eq_char_iff.1 h
    obtain ⟨rfl, rfl⟩ := follow_zero_eq_char_iff.1 h
    exact ⟨[b₁, b₂, b₃], rest, rfl, rfl, encode?_four hm hbm h₁ h₁' h₂ h₂' h₃ h₃'⟩

end Utf8

/-! ### UTF-16 and UTF-32 -/

theorem number_lt_of_two (order : ByteOrder) (b b' : UInt8) : order.number [b, b'] < 0x10000 := by
  simpa using order.number_lt [b, b']

/-- The code point of a unit of two bytes. -/
theorem val_ofNat_number (order : ByteOrder) (b b' : UInt8) :
    (CodePoint.ofNat (order.number [b, b'])).val = order.number [b, b'] :=
  CodePoint.val_ofNat (Nat.lt_trans (number_lt_of_two order b b') (by decide))

namespace Utf16

variable {order : ByteOrder} {b b' d d' : UInt8}

/-- One unit. -/
theorem encode?_unit (h : ¬ (CodePoint.ofNat (order.number [b, b'])).IsSurrogate) :
    encode? order (CodePoint.ofNat (order.number [b, b'])) = some [b, b'] := by
  rw [encode?, if_neg h, val_ofNat_number, if_pos (number_lt_of_two order b b')]
  exact congrArg some (order.bytes_number [b, b'])

/-- Two units. They are the halves of the code point that they make together. -/
theorem encode?_pair (hhigh : (CodePoint.ofNat (order.number [b, b'])).IsHigh)
    (hlow : (CodePoint.ofNat (order.number [d, d'])).IsLow) :
    encode? order ((CodePoint.ofNat (order.number [b, b'])).joinPair
      (CodePoint.ofNat (order.number [d, d']))) = some [b, b', d, d'] := by
  have hjoin := CodePoint.val_joinPair hhigh hlow
  rw [CodePoint.IsHigh, val_ofNat_number] at hhigh
  rw [CodePoint.IsLow, val_ofNat_number] at hlow
  rw [val_ofNat_number, val_ofNat_number] at hjoin
  generalize (CodePoint.ofNat (order.number [b, b'])).joinPair
    (CodePoint.ofNat (order.number [d, d'])) = c at hjoin ⊢
  have hhalf : c.highHalf = order.number [b, b'] := by
    rw [CodePoint.highHalf]
    omega
  have hhalf' : c.lowHalf = order.number [d, d'] := by
    rw [CodePoint.lowHalf]
    omega
  have hs : ¬ c.IsSurrogate := fun hs => by
    have := hs.2
    omega
  rw [encode?, if_neg hs, if_neg (by omega), hhalf, hhalf']
  exact congrArg₂ (some <| · ++ ·) (order.bytes_number [b, b']) (order.bytes_number [d, d'])

theorem encode?_of_next {rest : Bytes} {c : CodePoint} {extra : Nat}
    (h : next order b rest = .char c extra) :
    ∃ tl rest', rest = tl ++ rest' ∧ extra = tl.length ∧ encode? order c = some (b :: tl) := by
  cases rest with
  | nil => cases h
  | cons b' rest =>
    simp only [next] at h
    split at h
    · next hhigh =>
      split at h
      · next d d' rest =>
        split at h
        · next hlow =>
          obtain ⟨rfl, rfl⟩ := Piece.char.inj h
          exact ⟨[b', d, d'], rest, rfl, rfl, encode?_pair hhigh hlow⟩
        · cases h
      · cases h
    · next hhigh =>
      split at h
      · cases h
      · next hlow =>
        obtain ⟨rfl, rfl⟩ := Piece.char.inj h
        have hs : ¬ (CodePoint.ofNat (order.number [b, b'])).IsSurrogate := by
          intro hs
          rcases Nat.lt_or_ge (CodePoint.ofNat (order.number [b, b'])).val 0xDC00 with hlt | hge
          · exact hhigh ⟨hs.1, hlt⟩
          · exact hlow ⟨hge, hs.2⟩
        exact ⟨[b'], rest, rfl, rfl, encode?_unit hs⟩

end Utf16

theorem Utf32.encode?_of_next {order : ByteOrder} {b : UInt8} {rest : Bytes} {c : CodePoint}
    {extra : Nat} (h : next order b rest = .char c extra) :
    ∃ tl rest', rest = tl ++ rest' ∧ extra = tl.length ∧ encode? order c = some (b :: tl) := by
  match rest with
  | b₁ :: b₂ :: b₃ :: rest =>
    simp only [next] at h
    split at h
    · next hlt =>
      split at h
      · cases h
      · next hs =>
        obtain ⟨rfl, rfl⟩ := Piece.char.inj h
        refine ⟨[b₁, b₂, b₃], rest, rfl, rfl, ?_⟩
        rw [encode?, if_neg hs]
        exact congrArg some (order.bytes_number [b, b₁, b₂, b₃])
    · cases h
  | [] | [_] | [_, _] => cases h

/-! ### All schemes -/

namespace Scheme

/-- The code points that a scheme is made for. -/
def Covers : Scheme → CodePoint → Prop
  | utf8, c | utf16 _, c | utf32 _, c => ¬ c.IsSurrogate
  | ascii, c => c.val < 128
  | latin1, c => c.val < 256

instance (s : Scheme) (c : CodePoint) : Decidable (s.Covers c) :=
  match s with
  | utf8 | utf16 _ | utf32 _ => inferInstanceAs (Decidable (¬ c.IsSurrogate))
  | ascii => inferInstanceAs (Decidable (c.val < 128))
  | latin1 => inferInstanceAs (Decidable (c.val < 256))

/-- **What a scheme has** is what it is made for. -/
theorem stores_iff (s : Scheme) (c : CodePoint) : s.Stores c ↔ s.Covers c := by
  cases s with
  | utf8 => exact stores_utf8_iff c
  | utf16 order =>
    rw [Stores, encode?, Utf16.encode?, Covers]
    split
    · next hs => simp [hs]
    · next hs => split <;> simp [hs]
  | utf32 order =>
    rw [Stores, encode?, Utf32.encode?, Covers]
    split
    · next hs => simp [hs]
    · next hs => simp [hs]
  | ascii =>
    rw [Stores, encode?, Covers]
    split
    · next hc => simp [hc]
    · next hc => simp [hc]
  | latin1 =>
    rw [Stores, encode?, Covers]
    split
    · next hc => simp [hc]
    · next hc => simp [hc]

/-- **A piece that is a code point is made of its bytes.** -/
theorem encode?_of_next {s : Scheme} {b : UInt8} {rest : Bytes} {c : CodePoint} {extra : Nat}
    (h : s.next b rest = .char c extra) :
    ∃ tl rest', rest = tl ++ rest' ∧ extra = tl.length ∧ s.encode? c = some (b :: tl) := by
  cases s with
  | utf8 => exact Utf8.encode?_of_next h
  | utf16 order => exact Utf16.encode?_of_next h
  | utf32 order => exact Utf32.encode?_of_next h
  | ascii =>
    rw [next] at h
    split at h
    · next hb =>
      obtain ⟨rfl, rfl⟩ := Piece.char.inj h
      refine ⟨[], rest, rfl, rfl, ?_⟩
      rw [encode?, CodePoint.val_ofNat (by omega), if_pos hb, UInt8.ofNat_toNat]
    · cases h
  | latin1 =>
    obtain ⟨rfl, rfl⟩ := Piece.char.inj h
    have hb := b.toNat_lt
    refine ⟨[], rest, rfl, rfl, ?_⟩
    rw [encode?, CodePoint.val_ofNat (by omega), if_pos (by omega), UInt8.ofNat_toNat]

end Scheme

/-! ### Texts -/

theorem textOf_cons_eq_ok_iff {p : Piece} {ps : List Piece} {t : Text} :
    textOf (p :: ps) = .ok t ↔ ∃ c n t', p = .char c n ∧ textOf ps = .ok t' ∧ t = c :: t' := by
  cases p with
  | bad reason n => exact ⟨nofun, fun ⟨_, _, _, h, _⟩ => nomatch h⟩
  | char c n =>
    rw [textOf, mapError_eq_ok_iff, map_eq_ok_iff]
    constructor
    · rintro ⟨t', ht', rfl⟩
      exact ⟨c, n, t', rfl, ht', rfl⟩
    · rintro ⟨_, _, t', ⟨⟩, ht', rfl⟩
      exact ⟨t', ht', rfl⟩

/-- Bytes that are read are the bytes of what is read. -/
theorem encodeBody_of_textOf {e : Encoding} {t : Text} {bytes : Bytes} (position : Nat)
    (h : textOf (pieces e.scheme.next bytes) = .ok t) :
    e.encodeBody position t = .ok bytes := by
  induction t generalizing position bytes with
  | nil =>
    cases bytes with
    | nil => rfl
    | cons b rest =>
      rw [pieces_cons] at h
      obtain ⟨c, n, t', -, -, h⟩ := textOf_cons_eq_ok_iff.1 h
      cases h
  | cons c t ih =>
    cases bytes with
    | nil =>
      rw [pieces_nil] at h
      cases h
    | cons b rest =>
      rw [pieces_cons] at h
      obtain ⟨c', n, t', hnext, ht', h⟩ := textOf_cons_eq_ok_iff.1 h
      cases h
      obtain ⟨tl, rest', rfl, rfl, hbytes⟩ := Scheme.encode?_of_next hnext
      rw [hnext, Piece.extra, List.drop_left] at ht'
      exact encodeBody_cons_eq_ok_iff.2 ⟨b :: tl, rest', hbytes, ih (position + 1) ht', rfl⟩

/-- **Bytes that are read are the ones that are written.** -/
theorem encode_of_decode {s : Scheme} {t : Text} {bytes : Bytes}
    (h : (plain s).decode bytes = .ok t) : (plain s).encode t = .ok bytes := by
  rw [decode, decodeWith, mapError_eq_ok_iff] at h
  exact map_eq_ok_iff.2 ⟨bytes, encodeBody_of_textOf 0 h, rfl⟩

/-- **Decoding undoes encoding, and only encodings decode.** A text is written if all of its code
points are ones that the scheme is made for, and not otherwise; what was written is read as what it
was, with marks at its beginning. Where no mark is dropped, what is read is what was written, and
what is refused is what no text is written as. -/
theorem decoding_undoes_encoding (e : Encoding) :
    (∀ t, (∃ bytes, e.encode t = .ok bytes) ↔ ∀ c ∈ t, e.scheme.Covers c) ∧
      (∀ t bytes, e.encode t = .ok bytes → e.decode bytes = .ok t) ∧
      ∀ s, e = plain s →
        (∀ t bytes, e.decode bytes = .ok t ↔ e.encode t = .ok bytes) ∧
          ∀ bytes, (∃ u, e.decode bytes = .error u) ↔ ∀ t, e.encode t ≠ .ok bytes := by
  refine ⟨?_, fun _ _ => decode_of_encode, ?_⟩
  · intro t
    simp only [exists_encode_iff, Scheme.stores_iff]
  · rintro s rfl
    have hiff : ∀ t bytes, (plain s).decode bytes = .ok t ↔ (plain s).encode t = .ok bytes :=
      fun _ _ => ⟨encode_of_decode, decode_of_encode⟩
    refine ⟨hiff, fun bytes => ?_⟩
    simp only [ne_eq, ← hiff]
    cases (plain s).decode bytes with
    | ok t => simp
    | error u => simp

/-- The mark at the beginning of a text is stored behind the mark of the encoding, and a pair is
four bytes and nothing else. -/
theorem decoding_undoes_encoding_at_mark :
    let t : Text := [.byteOrderMark, .ofNat 0x1F600]
    let bytes : Bytes := [0xFF, 0xFE, 0xFF, 0xFE, 0x3D, 0xD8, 0x00, 0xDE]
    (utf16Marked.encode t = .ok bytes ∧ utf16Marked.decode bytes = .ok t) ∧
      (plain (.utf16 .little)).decode (bytes.drop 4) = .ok [.ofNat 0x1F600] ∧
      (plain (.utf16 .little)).encode [.ofNat 0x1F600] = .ok (bytes.drop 4) := by
  intro t bytes
  have hencode : utf16Marked.encode t = .ok bytes := by decide +kernel
  have hdecode : (plain (.utf16 .little)).decode (bytes.drop 4) = .ok [.ofNat 0x1F600] := by
    with_unfolding_all rfl
  obtain ⟨-, hread, -⟩ := decoding_undoes_encoding utf16Marked
  obtain ⟨-, -, hstrict⟩ := decoding_undoes_encoding (plain (.utf16 .little))
  exact ⟨⟨hencode, hread t bytes hencode⟩, hdecode, ((hstrict _ rfl).1 _ _).1 hdecode⟩

/-- The last overlong forms of two and of three bytes, the first surrogate, and the first number
above the code points. -/
example :
    Utf8.next 0xC1 [0xBF] = .bad .invalidStart 0 ∧
      Utf8.next 0xE0 [0x9F, 0xBF] = .bad .invalidContinuation 0 ∧
      Utf8.next 0xED [0xA0, 0x80] = .bad .invalidContinuation 0 ∧
      Utf8.next 0xF4 [0x90, 0x80, 0x80] = .bad .invalidContinuation 0 := by
  decide

end Encoding

end JsonShelf
