import JsonShelf.Encoding.Basic
import JsonShelf.Proofs.Except

/-!
# Decoding undoes encoding

Bytes that an encoding writes are read back as the text that was written. Each scheme has to show
one thing for it: that the bytes of a code point, with anything behind them, start with a piece that
is this code point and takes these bytes. The rest is the same for all schemes and all marks.

## Main results

* `Scheme.next_of_encode?` — the bytes of a code point are one piece
* `decode_of_encode` — decoding what was encoded
* `exists_encode_iff` — the texts that an encoding can write
-/

namespace JsonShelf

namespace Encoding

/-! ### UTF-8 -/

namespace Utf8

/-- Each byte behind the first one holds six bits. -/
theorem toNat_tail (n place : Nat) :
    (tail n place).toNat = 0x80 + n / Nat.pow 0x40 place % 0x40 := by
  have hbits := Nat.mod_lt (n / Nat.pow 0x40 place) (show 0 < 0x40 by decide)
  rw [tail, UInt8.toNat_ofNat', Nat.mod_eq_of_lt (by omega)]

/-- First bytes of two-byte sequences. -/
theorem lead?_of_two {m : Nat} (h : 2 ≤ m) (h' : m < 0x20) :
    lead? (0xC0 + m) = some ⟨m, 1, 0x80, 0xBF⟩ := by
  rw [lead?, if_neg (by omega), if_pos (by omega), Nat.add_sub_cancel_left]

/-- First bytes of three-byte sequences; two of them narrow the range of the second byte. -/
theorem lead?_of_three : ∀ m < 0x10,
    lead? (0xE0 + m) =
      some ⟨m, 2, if m = 0 then 0xA0 else 0x80, if m = 0xD then 0x9F else 0xBF⟩ := by
  decide

/-- First bytes of four-byte sequences; two of them narrow the range of the second byte. -/
theorem lead?_of_four : ∀ m < 5,
    lead? (0xF0 + m) =
      some ⟨m, 3, if m = 0 then 0x90 else 0x80, if m = 4 then 0x8F else 0xBF⟩ := by
  decide

/-- A byte in range is one step. -/
theorem follow_succ {b : UInt8} {low high : Nat} (h : low ≤ b.toNat) (h' : b.toNat ≤ high)
    (bits taken count : Nat) (rest : Bytes) :
    follow bits taken low high (count + 1) (b :: rest) =
      follow (bits * 0x40 + (b.toNat - 0x80)) (taken + 1) 0x80 0xBF count rest := by
  rw [follow, if_pos ⟨h, h'⟩]

theorem next_of_lead? {b : UInt8} {bits count low high : Nat} (hb : 0x80 ≤ b.toNat)
    (h : lead? b.toNat = some ⟨bits, count, low, high⟩) (rest : Bytes) :
    next b rest = follow bits 0 low high count rest := by
  rw [next, if_neg (by omega), h]

/-- A single byte. -/
theorem next_one {n : Nat} (h : n < 0x80) (rest : Bytes) :
    next (UInt8.ofNat n) rest = .char (CodePoint.ofNat n) 0 := by
  have hb : (UInt8.ofNat n).toNat = n := by
    rw [UInt8.toNat_ofNat']
    omega
  rw [next, if_pos (by omega), hb]

/-- Two bytes. -/
theorem next_two {n : Nat} (hle : 0x80 ≤ n) (h : n < 0x800) (rest : Bytes) :
    next (UInt8.ofNat (0xC0 + n / 0x40)) (tail n 0 :: rest) = .char (CodePoint.ofNat n) 1 := by
  have hb : (UInt8.ofNat (0xC0 + n / 0x40)).toNat = 0xC0 + n / 0x40 := by
    rw [UInt8.toNat_ofNat']
    omega
  have ht : (tail n 0).toNat = 0x80 + n / 1 % 0x40 := toNat_tail n 0
  have hn : n / 0x40 * 0x40 + ((tail n 0).toNat - 0x80) = n := by omega
  rw [next_of_lead? (by omega) (by rw [hb]; exact lead?_of_two (by omega) (by omega)),
    follow_succ (by omega) (by omega), follow, hn]

/-- Three bytes. The ranges of the second byte leave out what takes fewer bytes, and the
surrogates. -/
theorem next_three {n : Nat} (hle : 0x800 ≤ n) (h : n < 0x10000)
    (hs : ¬ (0xD800 ≤ n ∧ n < 0xE000)) (rest : Bytes) :
    next (UInt8.ofNat (0xE0 + n / 0x1000)) (tail n 1 :: tail n 0 :: rest) =
      .char (CodePoint.ofNat n) 2 := by
  have hb : (UInt8.ofNat (0xE0 + n / 0x1000)).toNat = 0xE0 + n / 0x1000 := by
    rw [UInt8.toNat_ofNat']
    omega
  have ht : (tail n 0).toNat = 0x80 + n / 1 % 0x40 := toNat_tail n 0
  have ht' : (tail n 1).toNat = 0x80 + n / 0x40 % 0x40 := toNat_tail n 1
  have hn : (n / 0x1000 * 0x40 + ((tail n 1).toNat - 0x80)) * 0x40 +
      ((tail n 0).toNat - 0x80) = n := by omega
  have hlow : (if n / 0x1000 = 0 then 0xA0 else 0x80) ≤ (tail n 1).toNat := by
    split <;> omega
  have hhigh : (tail n 1).toNat ≤ (if n / 0x1000 = 0xD then 0x9F else 0xBF) := by
    split <;> omega
  rw [next_of_lead? (by omega) (by rw [hb]; exact lead?_of_three _ (by omega)),
    follow_succ hlow hhigh, follow_succ (by omega) (by omega), follow, hn]

/-- Four bytes. The ranges of the second byte leave out what takes fewer bytes, and what is no code
point. -/
theorem next_four {n : Nat} (hle : 0x10000 ≤ n) (h : n < 0x110000) (rest : Bytes) :
    next (UInt8.ofNat (0xF0 + n / 0x40000)) (tail n 2 :: tail n 1 :: tail n 0 :: rest) =
      .char (CodePoint.ofNat n) 3 := by
  have hb : (UInt8.ofNat (0xF0 + n / 0x40000)).toNat = 0xF0 + n / 0x40000 := by
    rw [UInt8.toNat_ofNat']
    omega
  have ht : (tail n 0).toNat = 0x80 + n / 1 % 0x40 := toNat_tail n 0
  have ht' : (tail n 1).toNat = 0x80 + n / 0x40 % 0x40 := toNat_tail n 1
  have ht'' : (tail n 2).toNat = 0x80 + n / 0x1000 % 0x40 := toNat_tail n 2
  have hn : ((n / 0x40000 * 0x40 + ((tail n 2).toNat - 0x80)) * 0x40 +
      ((tail n 1).toNat - 0x80)) * 0x40 + ((tail n 0).toNat - 0x80) = n := by omega
  have hlow : (if n / 0x40000 = 0 then 0x90 else 0x80) ≤ (tail n 2).toNat := by
    split <;> omega
  have hhigh : (tail n 2).toNat ≤ (if n / 0x40000 = 4 then 0x8F else 0xBF) := by
    split <;> omega
  rw [next_of_lead? (by omega) (by rw [hb]; exact lead?_of_four _ (by omega)),
    follow_succ hlow hhigh, follow_succ (by omega) (by omega), follow_succ (by omega) (by omega),
    follow, hn]

/-- The bytes of a code point are one piece. -/
theorem next_of_encode? {c : CodePoint} {bytes : Bytes} (h : encode? c = some bytes) :
    ∃ b tl, bytes = b :: tl ∧ ∀ rest, next b (tl ++ rest) = .char c tl.length := by
  have hlt := c.isLt
  have hc := CodePoint.ofNat_val c
  rw [encode?] at h
  split at h
  · next h1 =>
    cases h
    refine ⟨_, [], rfl, ?_⟩
    intro rest
    rw [List.nil_append, next_one h1, hc]
    rfl
  split at h
  · next h1 h2 =>
    cases h
    refine ⟨_, _, rfl, ?_⟩
    intro rest
    show next _ (tail c.val 0 :: rest) = _
    rw [next_two (by omega) h2, hc]
    rfl
  split at h
  · cases h
  next h2 hs =>
  have hs : ¬ (0xD800 ≤ c.val ∧ c.val < 0xE000) := hs
  split at h
  · next h3 =>
    cases h
    refine ⟨_, _, rfl, ?_⟩
    intro rest
    show next _ (tail c.val 1 :: tail c.val 0 :: rest) = _
    rw [next_three (by omega) h3 hs, hc]
    rfl
  · next h3 =>
    cases h
    refine ⟨_, _, rfl, ?_⟩
    intro rest
    show next _ (tail c.val 2 :: tail c.val 1 :: tail c.val 0 :: rest) = _
    rw [next_four (by omega) hlt, hc]
    rfl

end Utf8

/-! ### UTF-16 and UTF-32 -/

/-- A unit of two bytes. -/
theorem exists_bytes_two (order : ByteOrder) {n : Nat} (h : n < 0x10000) :
    ∃ b b', order.bytes 2 n = [b, b'] ∧ order.number [b, b'] = n := by
  obtain ⟨b, b', hb⟩ : ∃ b b', order.bytes 2 n = [b, b'] := by cases order <;> exact ⟨_, _, rfl⟩
  exact ⟨b, b', hb, by rw [← hb]; exact order.number_bytes h⟩

/-- A unit of four bytes. -/
theorem exists_bytes_four (order : ByteOrder) {n : Nat} (h : n < 0x100000000) :
    ∃ b₀ b₁ b₂ b₃, order.bytes 4 n = [b₀, b₁, b₂, b₃] ∧ order.number [b₀, b₁, b₂, b₃] = n := by
  obtain ⟨b₀, b₁, b₂, b₃, hb⟩ : ∃ b₀ b₁ b₂ b₃, order.bytes 4 n = [b₀, b₁, b₂, b₃] := by
    cases order <;> exact ⟨_, _, _, _, rfl⟩
  exact ⟨b₀, b₁, b₂, b₃, hb, by rw [← hb]; exact order.number_bytes h⟩

theorem Utf16.next_of_encode? {order : ByteOrder} {c : CodePoint} {bytes : Bytes}
    (h : encode? order c = some bytes) :
    ∃ b tl, bytes = b :: tl ∧ ∀ rest, next order b (tl ++ rest) = .char c tl.length := by
  have hlt := c.isLt
  rw [encode?] at h
  split at h
  · cases h
  next hs =>
  split at h
  · next hc =>
    obtain ⟨b, b', hb, hn⟩ := exists_bytes_two order hc
    cases h
    refine ⟨b, [b'], hb, ?_⟩
    intro rest
    simp only [List.cons_append, List.nil_append, next, hn, CodePoint.ofNat_val]
    rw [if_neg (fun hh => hs ⟨hh.1, by omega⟩), if_neg (fun hl => hs ⟨by omega, hl.2⟩)]
    rfl
  · next hc =>
    have hhigh : c.highHalf = 0xD800 + (c.val - 0x10000) / 0x400 := rfl
    have hlow : c.lowHalf = 0xDC00 + (c.val - 0x10000) % 0x400 := rfl
    obtain ⟨b, b', hb, hn⟩ := exists_bytes_two order (n := c.highHalf) (by omega)
    obtain ⟨d, d', hd, hm⟩ := exists_bytes_two order (n := c.lowHalf) (by omega)
    cases h
    refine ⟨b, [b', d, d'], by rw [hb, hd]; rfl, ?_⟩
    intro rest
    have hvh : (CodePoint.ofNat c.highHalf).val = c.highHalf := CodePoint.val_ofNat (by omega)
    have hvl : (CodePoint.ofNat c.lowHalf).val = c.lowHalf := CodePoint.val_ofNat (by omega)
    have hh : (CodePoint.ofNat c.highHalf).IsHigh := ⟨by omega, by omega⟩
    have hl : (CodePoint.ofNat c.lowHalf).IsLow := ⟨by omega, by omega⟩
    have hjoin : (CodePoint.ofNat c.highHalf).joinPair (CodePoint.ofNat c.lowHalf) = c := by
      refine CodePoint.ext ?_
      rw [CodePoint.val_joinPair hh hl]
      omega
    simp only [List.cons_append, List.nil_append, next, hn, if_pos hh, hm, if_pos hl, hjoin]
    rfl

theorem Utf32.next_of_encode? {order : ByteOrder} {c : CodePoint} {bytes : Bytes}
    (h : encode? order c = some bytes) :
    ∃ b tl, bytes = b :: tl ∧ ∀ rest, next order b (tl ++ rest) = .char c tl.length := by
  have hlt := c.isLt
  rw [encode?] at h
  split at h
  · cases h
  next hs =>
  obtain ⟨b₀, b₁, b₂, b₃, hb, hn⟩ := exists_bytes_four order (n := c.val) (by omega)
  cases h
  refine ⟨b₀, [b₁, b₂, b₃], hb, ?_⟩
  intro rest
  have hunit : (⟨order.number [b₀, b₁, b₂, b₃], by omega⟩ : CodePoint) = c := CodePoint.ext hn
  simp only [List.cons_append, List.nil_append, next]
  rw [dif_pos (by omega), hunit, if_neg hs]
  rfl

/-! ### All schemes -/

/-- **The bytes of a code point are one piece**, whatever follows them. -/
theorem Scheme.next_of_encode? {s : Scheme} {c : CodePoint} {bytes : Bytes}
    (h : s.encode? c = some bytes) :
    ∃ b tl, bytes = b :: tl ∧ ∀ rest, s.next b (tl ++ rest) = .char c tl.length := by
  cases s with
  | utf8 => exact Utf8.next_of_encode? h
  | utf16 order => exact Utf16.next_of_encode? h
  | utf32 order => exact Utf32.next_of_encode? h
  | ascii =>
    rw [encode?] at h
    split at h
    · next hc =>
      cases h
      have hb : (UInt8.ofNat c.val).toNat = c.val := by
        rw [UInt8.toNat_ofNat']
        omega
      refine ⟨_, [], rfl, ?_⟩
      intro rest
      rw [next, hb, if_pos hc, CodePoint.ofNat_val]
      rfl
    · cases h
  | latin1 =>
    rw [encode?] at h
    split at h
    · next hc =>
      cases h
      have hb : (UInt8.ofNat c.val).toNat = c.val := by
        rw [UInt8.toNat_ofNat']
        omega
      refine ⟨_, [], rfl, ?_⟩
      intro rest
      rw [next, hb, CodePoint.ofNat_val]
      rfl
    · cases h

/-- Behind the bytes of a code point, cutting goes on as if it started there. -/
theorem pieces_of_encode? {s : Scheme} {c : CodePoint} {bytes : Bytes}
    (h : s.encode? c = some bytes) (rest : Bytes) :
    ∃ extra, bytes.length = extra + 1 ∧
      pieces s.next (bytes ++ rest) = .char c extra :: pieces s.next rest := by
  obtain ⟨b, tl, rfl, hnext⟩ := Scheme.next_of_encode? h
  refine ⟨tl.length, List.length_cons, ?_⟩
  rw [List.cons_append, pieces_cons, hnext, Piece.extra, List.drop_left]

theorem textOf_char (c : CodePoint) (n : Nat) (ps : List Piece) :
    textOf (.char c n :: ps) = ((textOf ps).map (c :: ·)).mapError (·.after (n + 1)) := by
  rw [textOf]

/-- The bytes of a text are those of its first code point and those of the rest. -/
theorem encodeBody_cons_eq_ok_iff {e : Encoding} {position : Nat} {c : CodePoint} {t : Text}
    {body : Bytes} :
    e.encodeBody position (c :: t) = .ok body ↔
      ∃ bytes rest, e.scheme.encode? c = some bytes ∧ e.encodeBody (position + 1) t = .ok rest ∧
        body = bytes ++ rest := by
  rw [encodeBody]
  cases e.scheme.encode? c with
  | none => exact ⟨nofun, fun ⟨_, _, h, _⟩ => nomatch h⟩
  | some bytes =>
    rw [map_eq_ok_iff]
    constructor
    · rintro ⟨rest, hrest, rfl⟩
      exact ⟨bytes, rest, rfl, hrest, rfl⟩
    · rintro ⟨_, rest, ⟨⟩, hrest, rfl⟩
      exact ⟨rest, hrest, rfl⟩

/-- Behind the bytes of a text, reading goes on as if it started there. -/
theorem textOf_pieces_append {e : Encoding} {position : Nat} {t : Text} {body : Bytes}
    (h : e.encodeBody position t = .ok body) (rest : Bytes) :
    textOf (pieces e.scheme.next (body ++ rest)) =
      ((textOf (pieces e.scheme.next rest)).map (t ++ ·)).mapError (·.after body.length) := by
  induction t generalizing position body with
  | nil =>
    rw [encodeBody, Except.ok.injEq] at h
    rw [← h, List.nil_append]
    generalize textOf (pieces e.scheme.next rest) = x
    cases x <;> simp [Except.map, Except.mapError, BadPiece.after]
  | cons c t ih =>
    obtain ⟨bytes, body, hc, hbody, rfl⟩ := encodeBody_cons_eq_ok_iff.1 h
    obtain ⟨extra, hlength, hpieces⟩ := pieces_of_encode? hc (body ++ rest)
    rw [List.append_assoc, hpieces, textOf_char, ih hbody, List.length_append, hlength]
    generalize textOf (pieces e.scheme.next rest) = x
    cases x <;> simp [Except.map, Except.mapError, BadPiece.after, Nat.add_assoc]

theorem textOf_pieces_of_encodeBody {e : Encoding} {position : Nat} {t : Text} {body : Bytes}
    (h : e.encodeBody position t = .ok body) :
    textOf (pieces e.scheme.next body) = .ok t := by
  have hread := textOf_pieces_append h []
  rw [List.append_nil, pieces_nil] at hread
  rw [hread]
  simp [textOf, Except.map, Except.mapError]

/-- The mark that an encoding writes is the one that it drops. -/
theorem opening_mark (e : Encoding) (body : Bytes) :
    (e.opening (e.mark ++ body)).scheme = e.scheme ∧
      (e.opening (e.mark ++ body)).markSize = e.mark.length := by
  cases e <;> exact ⟨rfl, rfl⟩

/-- Bytes behind a mark are read in the scheme that the mark opens. -/
theorem decode_append {e e' : Encoding} {mark body : Bytes} {position : Nat} {t : Text}
    (hopening : (e.opening (mark ++ body)).scheme = e'.scheme ∧
      (e.opening (mark ++ body)).markSize = mark.length)
    (h : e'.encodeBody position t = .ok body) : e.decode (mark ++ body) = .ok t := by
  obtain ⟨hscheme, hsize⟩ := hopening
  rw [decode, decodeWith]
  simp only [hscheme, hsize, List.drop_left, textOf_pieces_of_encodeBody h]
  rfl

/-- **Decoding undoes encoding.** -/
theorem decode_of_encode {e : Encoding} {t : Text} {bytes : Bytes}
    (h : e.encode t = .ok bytes) : e.decode bytes = .ok t := by
  obtain ⟨body, hbody, rfl⟩ := map_eq_ok_iff.1 h
  exact decode_append (opening_mark e body) hbody

/-! ### What can be encoded -/

theorem exists_encodeBody_iff (e : Encoding) (position : Nat) (t : Text) :
    (∃ body, e.encodeBody position t = .ok body) ↔ ∀ c ∈ t, e.scheme.Stores c := by
  induction t generalizing position with
  | nil => simp [encodeBody]
  | cons c t ih =>
    rw [List.forall_mem_cons, ← ih (position + 1), Scheme.Stores, Option.isSome_iff_exists]
    constructor
    · rintro ⟨_, h⟩
      obtain ⟨bytes, rest, hc, hrest, -⟩ := encodeBody_cons_eq_ok_iff.1 h
      exact ⟨⟨bytes, hc⟩, rest, hrest⟩
    · rintro ⟨⟨bytes, hc⟩, rest, hrest⟩
      exact ⟨_, encodeBody_cons_eq_ok_iff.2 ⟨bytes, rest, hc, hrest, rfl⟩⟩

/-- A text can be encoded if and only if the scheme has all of its code points. -/
theorem exists_encode_iff {e : Encoding} {t : Text} :
    (∃ bytes, e.encode t = .ok bytes) ↔ ∀ c ∈ t, e.scheme.Stores c := by
  rw [← exists_encodeBody_iff e 0 t]
  constructor
  · rintro ⟨_, h⟩
    obtain ⟨body, hbody, -⟩ := map_eq_ok_iff.1 h
    exact ⟨body, hbody⟩
  · rintro ⟨body, hbody⟩
    exact ⟨_, map_eq_ok_iff.2 ⟨body, hbody, rfl⟩⟩

/-- UTF-8 has everything but the surrogates. -/
theorem stores_utf8_iff (c : CodePoint) : Scheme.utf8.Stores c ↔ ¬ c.IsSurrogate := by
  rw [Scheme.Stores, Scheme.encode?, Utf8.encode?]
  have hlt := c.isLt
  by_cases hs : c.IsSurrogate
  · have h1 : ¬ c.val < 0x80 := fun h => by have := hs.1; omega
    have h2 : ¬ c.val < 0x800 := fun h => by have := hs.1; omega
    simp [h1, h2, hs]
  · simp only [hs, if_false]
    split
    · simp
    · split
      · simp
      · split <;> simp

/-- No scheme has surrogates. -/
theorem Scheme.Stores.not_isSurrogate {s : Scheme} {c : CodePoint} (h : s.Stores c) :
    ¬ c.IsSurrogate := by
  intro hs
  cases s with
  | utf8 => exact (stores_utf8_iff c).1 h hs
  | utf16 order =>
    rw [Scheme.Stores, encode?, Utf16.encode?, if_pos hs] at h
    cases h
  | utf32 order =>
    rw [Scheme.Stores, encode?, Utf32.encode?, if_pos hs] at h
    cases h
  | ascii =>
    have hc : ¬ c.val < 128 := fun hc => by have := hs.1; omega
    simp [Scheme.Stores, encode?, hc] at h
  | latin1 =>
    have hc : ¬ c.val < 256 := fun hc => by have := hs.1; omega
    simp [Scheme.Stores, encode?, hc] at h

end Encoding

end JsonShelf
