import JsonShelf.Proofs.Encoding.Strictness
import JsonShelf.Proofs.Json.Characters
import JsonShelf.Service.Basic

/-!
# Bodies in any Unicode encoding

A body does not say its encoding, and yet a text that is sent in UTF-8, or in UTF-16 or UTF-32 of
either byte order, with or without a byte order mark, is read as this text. With a mark the bytes
of the mark tell. Only the one of UTF-16 with the lowest byte first could be taken for the one of
UTF-32, namely before a NUL. Without a mark the first character tells, as it is ASCII: how many
bytes of its unit are zero, and on which side. Where this takes a look at the second character, or
at its absence, it matters again that there is no NUL in a JSON text.

The service sees the value of a body only, so it does the same in all cases.

## Main definitions

* `Scheme.IsUnicode`, `Body.Form` — the schemes for all of Unicode, and the ways to send a text

## Main results

* `Encoding.decodeLenient_of_decode` — what can be read strictly is read leniently as the same
* `Body.encoding_of_encodeBody`, `Body.opening_of_mark` — which encoding a body shows
* `Body.read_of_form` — the value of a body that was sent in any way
* `Service.put_ignores_form_of_body` — requests with such bodies
-/

namespace JsonShelf

/-! ### The bytes of small numbers -/

namespace ByteOrder

theorem bytesLowestFirst_zero (width : Nat) :
    bytesLowestFirst width 0 = List.replicate width 0 := by
  induction width with
  | zero => rfl
  | succ width ih => rw [bytesLowestFirst, Nat.zero_div, ih, List.replicate_succ]; rfl

theorem bytesLowestFirst_of_lt {n : Nat} (h : n < 256) (width : Nat) :
    bytesLowestFirst (width + 1) n = UInt8.ofNat n :: List.replicate width 0 := by
  rw [bytesLowestFirst, Nat.mod_eq_of_lt h, Nat.div_eq_of_lt h, bytesLowestFirst_zero]

/-- A number that fits in a byte has zeros behind it. -/
theorem bytes_little_of_lt {n : Nat} (h : n < 256) (width : Nat) :
    little.bytes (width + 1) n = UInt8.ofNat n :: List.replicate width 0 :=
  bytesLowestFirst_of_lt h width

/-- A number that fits in a byte has zeros in front of it. -/
theorem bytes_big_of_lt {n : Nat} (h : n < 256) (width : Nat) :
    big.bytes (width + 1) n = List.replicate width 0 ++ [UInt8.ofNat n] := by
  rw [bytes, bytesLowestFirst_of_lt h, List.reverse_cons, List.reverse_replicate]

end ByteOrder

namespace Encoding

/-! ### Lenient reading -/

/-- Pieces that are code points are the same for lenient reading. -/
theorem textOf_pieces_nextLenient {s : Scheme} {bytes : Bytes} {t : Text}
    (h : textOf (pieces s.next bytes) = .ok t) : textOf (pieces s.nextLenient bytes) = .ok t := by
  induction t generalizing bytes with
  | nil =>
    cases bytes with
    | nil => rw [pieces_nil, textOf]
    | cons b rest =>
      rw [pieces_cons] at h
      obtain ⟨_, _, _, -, -, ht⟩ := textOf_cons_eq_ok_iff.1 h
      cases ht
  | cons c t ih =>
    cases bytes with
    | nil =>
      rw [pieces_nil, textOf] at h
      cases h
    | cons b rest =>
      rw [pieces_cons] at h
      obtain ⟨c', extra, t', hnext, hrest, ht⟩ := textOf_cons_eq_ok_iff.1 h
      cases ht
      have hlenient : s.nextLenient b rest = .char c extra := by rw [Scheme.nextLenient, hnext]
      rw [hnext] at hrest
      rw [pieces_cons, hlenient]
      exact textOf_cons_eq_ok_iff.2 ⟨c, extra, t, rfl, ih hrest, rfl⟩

/-- **What can be read strictly** is read leniently as the same text. -/
theorem decodeLenient_of_decode {e : Encoding} {bytes : Bytes} {t : Text}
    (h : e.decode bytes = .ok t) : e.decodeLenient bytes = .ok t := by
  rw [decode, decodeWith, mapError_eq_ok_iff] at h
  rw [decodeLenient, decodeWith, mapError_eq_ok_iff]
  exact textOf_pieces_nextLenient h

/-! ### The schemes of Unicode -/

namespace Scheme

/-- The schemes that have all of Unicode. -/
def IsUnicode : Scheme → Prop
  | utf8 | utf16 _ | utf32 _ => True
  | ascii | latin1 => False

/-- The bytes of the byte order mark. -/
def mark : Scheme → Bytes
  | utf8 => [0xEF, 0xBB, 0xBF]
  | utf16 .little => [0xFF, 0xFE]
  | utf16 .big => [0xFE, 0xFF]
  | utf32 .little => [0xFF, 0xFE, 0x00, 0x00]
  | utf32 .big => [0x00, 0x00, 0xFE, 0xFF]
  | ascii | latin1 => []

theorem IsUnicode.encode?_byteOrderMark {s : Scheme} (hs : s.IsUnicode) :
    s.encode? .byteOrderMark = some s.mark := by
  cases s with
  | utf8 => rfl
  | utf16 order => cases order <;> rfl
  | utf32 order => cases order <;> rfl
  | ascii => exact hs.elim
  | latin1 => exact hs.elim

/-- A scheme of Unicode has all texts without surrogates. -/
theorem IsUnicode.exists_encode {s : Scheme} (hs : s.IsUnicode) {t : Text}
    (ht : ∀ c ∈ t, ¬ c.IsSurrogate) : ∃ bytes, (plain s).encode t = .ok bytes := by
  refine exists_encode_iff.2 fun c hc => (stores_iff s c).2 ?_
  cases s with
  | utf8 | utf16 order | utf32 order => exact ht c hc
  | ascii | latin1 => exact hs.elim

end Scheme

/-! ### First bytes -/

section FirstBytes

variable {c : CodePoint} {bytes : Bytes}

theorem ofNat_val_ne_zero (hzero : c.val ≠ 0) (hascii : c.val < 0x80) :
    UInt8.ofNat c.val ≠ 0 := by
  intro h
  have : (UInt8.ofNat c.val).toNat = 0 := by rw [h]; rfl
  rw [UInt8.toNat_ofNat'] at this
  omega

theorem Utf8.encode?_of_ascii (hascii : c.val < 0x80) :
    encode? c = some [UInt8.ofNat c.val] := by
  simp only [encode?, if_pos hascii]

theorem Utf16.encode?_of_ascii (order : ByteOrder) (hascii : c.val < 0x80) :
    encode? order c = some (order.bytes 2 c.val) := by
  rw [encode?, if_neg fun hs => by have := hs.1; omega, if_pos (by omega)]

theorem Utf32.encode?_of_ascii (order : ByteOrder) (hascii : c.val < 0x80) :
    encode? order c = some (order.bytes 4 c.val) := by
  rw [encode?, if_neg fun hs => by have := hs.1; omega]

/-- In UTF-8 only NUL begins with a zero. -/
theorem Utf8.exists_of_encode? (h : encode? c = some bytes) (hc : c.val ≠ 0) :
    ∃ b tl, bytes = b :: tl ∧ b ≠ 0 := by
  obtain ⟨b, tl, rfl, hnext⟩ := next_of_encode? h
  refine ⟨b, tl, rfl, ?_⟩
  rintro rfl
  obtain ⟨rfl, -⟩ := Piece.char.inj (hnext [])
  exact hc rfl

/-- In UTF-16 only NUL begins with a unit of zeros. -/
theorem Utf16.exists_of_encode? {order : ByteOrder} (h : encode? order c = some bytes)
    (hc : c.val ≠ 0) : ∃ b b' tl, bytes = b :: b' :: tl ∧ (b ≠ 0 ∨ b' ≠ 0) := by
  obtain ⟨b, tl, rfl, hnext⟩ := next_of_encode? h
  cases tl with
  | nil => cases hnext []
  | cons b' tl =>
    refine ⟨b, b', tl, rfl, ?_⟩
    rw [← not_and_or]
    rintro ⟨rfl, rfl⟩
    have hzero : ∀ rest, next order 0 (0 :: rest) = .char (.ofNat 0) 1 := by
      intro rest
      cases order <;> rfl
    obtain ⟨rfl, -⟩ := Piece.char.inj ((hzero _).symm.trans (hnext []))
    exact hc rfl

end FirstBytes

end Encoding

namespace Body

open Encoding (Scheme plain)

/-! ### The encoding that a body shows -/

section Shown

variable {b : UInt8} {rest : Bytes}

/-- No mark begins with an ASCII character. -/
theorem encoding_cons (hzero : b ≠ 0) (hascii : b.toNat < 0x80) :
    encoding (b :: rest) = .plain (unmarkedEncoding (b :: rest)) := by
  rw [encoding.eq_def]
  split <;> simp_all

/-- No mark begins with one zero. -/
theorem encoding_zero_cons (hzero : b ≠ 0) :
    encoding (0 :: b :: rest) = .plain (unmarkedEncoding (0 :: b :: rest)) := by
  rw [encoding.eq_def]
  split <;> simp_all

theorem unmarkedEncoding_utf8 (hzero : b ≠ 0)
    (hrest : rest = [] ∨ ∃ b' tl, rest = b' :: tl ∧ b' ≠ 0) :
    unmarkedEncoding (b :: rest) = .utf8 := by
  rcases hrest with rfl | ⟨b', tl, rfl, hb'⟩
  · rfl
  · rcases tl with _ | ⟨b₂, _ | ⟨b₃, tl⟩⟩ <;> simp [unmarkedEncoding, hzero, hb']

theorem unmarkedEncoding_utf16_little (hzero : b ≠ 0)
    (hrest : rest = [] ∨ ∃ b₂ b₃ tl, rest = b₂ :: b₃ :: tl ∧ (b₂ ≠ 0 ∨ b₃ ≠ 0)) :
    unmarkedEncoding (b :: 0 :: rest) = .utf16 .little := by
  rcases hrest with rfl | ⟨b₂, b₃, tl, rfl, hb⟩
  · simp [unmarkedEncoding, hzero]
  · rw [unmarkedEncoding, if_neg hzero, if_pos rfl, if_neg (not_and_or.2 hb)]

theorem unmarkedEncoding_utf16_big (hzero : b ≠ 0)
    (hrest : rest = [] ∨ ∃ b₂ b₃ tl, rest = b₂ :: b₃ :: tl ∧ (b₂ ≠ 0 ∨ b₃ ≠ 0)) :
    unmarkedEncoding (0 :: b :: rest) = .utf16 .big := by
  rcases hrest with rfl | ⟨b₂, b₃, tl, rfl, -⟩
  · rfl
  · rw [unmarkedEncoding, if_pos rfl, if_neg hzero]

theorem unmarkedEncoding_utf32_little (hzero : b ≠ 0) :
    unmarkedEncoding (b :: 0 :: 0 :: 0 :: rest) = .utf32 .little := by
  rw [unmarkedEncoding, if_neg hzero, if_pos rfl, if_pos ⟨rfl, rfl⟩]

/-- The mark of UTF-16 with the lowest byte first, where UTF-32 would have a zero. -/
theorem encoding_utf16_mark_cons (hzero : b ≠ 0) :
    encoding (0xFF :: 0xFE :: b :: rest) = .utf16Marked := by
  rw [encoding.eq_def]
  split <;> simp_all

end Shown

/-! ### Texts that begin with an ASCII character -/

section Texts

variable {s : Scheme} {c : CodePoint} {t : Text} {body : Bytes} {position : Nat}

/-- The bytes of a text without NUL are none, or begin with one that is not zero. -/
theorem eq_nil_or_of_utf8 (h : (plain .utf8).encodeBody position t = .ok body)
    (ht : ∀ d ∈ t, d.val ≠ 0) : body = [] ∨ ∃ b tl, body = b :: tl ∧ b ≠ 0 := by
  cases t with
  | nil =>
    cases h
    exact .inl rfl
  | cons d t =>
    obtain ⟨bytes, rest, hd, -, rfl⟩ := Encoding.encodeBody_cons_eq_ok_iff.1 h
    obtain ⟨b, tl, rfl, hb⟩ := Encoding.Utf8.exists_of_encode? hd (ht d List.mem_cons_self)
    exact .inr ⟨b, tl ++ rest, rfl, hb⟩

/-- The bytes of a text without NUL are none, or begin with two that are not both zero. -/
theorem eq_nil_or_of_utf16 {order : ByteOrder}
    (h : (plain (.utf16 order)).encodeBody position t = .ok body) (ht : ∀ d ∈ t, d.val ≠ 0) :
    body = [] ∨ ∃ b b' tl, body = b :: b' :: tl ∧ (b ≠ 0 ∨ b' ≠ 0) := by
  cases t with
  | nil =>
    cases h
    exact .inl rfl
  | cons d t =>
    obtain ⟨bytes, rest, hd, -, rfl⟩ := Encoding.encodeBody_cons_eq_ok_iff.1 h
    obtain ⟨b, b', tl, rfl, hb⟩ := Encoding.Utf16.exists_of_encode? hd (ht d List.mem_cons_self)
    exact .inr ⟨b, b', tl ++ rest, rfl, hb⟩

/-- **Without a mark a body shows its scheme** in the first character of its text, which is ASCII,
and in the second one, which is no NUL. -/
theorem encoding_of_encodeBody (hs : s.IsUnicode) (hzero : c.val ≠ 0) (hascii : c.val < 0x80)
    (ht : ∀ d ∈ t, d.val ≠ 0) (h : (plain s).encodeBody position (c :: t) = .ok body) :
    encoding body = .plain s := by
  obtain ⟨bytes, rest, hc, hrest, rfl⟩ := Encoding.encodeBody_cons_eq_ok_iff.1 h
  have hb := Encoding.ofNat_val_ne_zero hzero hascii
  have hb' : (UInt8.ofNat c.val).toNat < 0x80 := by
    rw [UInt8.toNat_ofNat']
    omega
  have hbyte : c.val < 256 := by omega
  cases s with
  | utf8 =>
    cases (Encoding.Utf8.encode?_of_ascii hascii).symm.trans hc
    rw [List.singleton_append, encoding_cons hb hb',
      unmarkedEncoding_utf8 hb (eq_nil_or_of_utf8 hrest ht)]
  | utf16 order =>
    cases (Encoding.Utf16.encode?_of_ascii order hascii).symm.trans hc
    have hunits := eq_nil_or_of_utf16 hrest ht
    cases order with
    | little =>
      rw [ByteOrder.bytes_little_of_lt hbyte]
      show encoding (UInt8.ofNat c.val :: 0 :: rest) = _
      rw [encoding_cons hb hb', unmarkedEncoding_utf16_little hb hunits]
    | big =>
      rw [ByteOrder.bytes_big_of_lt hbyte]
      show encoding (0 :: UInt8.ofNat c.val :: rest) = _
      rw [encoding_zero_cons hb, unmarkedEncoding_utf16_big hb hunits]
  | utf32 order =>
    cases (Encoding.Utf32.encode?_of_ascii order hascii).symm.trans hc
    cases order with
    | little =>
      rw [ByteOrder.bytes_little_of_lt hbyte]
      show encoding (UInt8.ofNat c.val :: 0 :: 0 :: 0 :: rest) = _
      rw [encoding_cons hb hb', unmarkedEncoding_utf32_little hb]
    | big =>
      rw [ByteOrder.bytes_big_of_lt hbyte]
      rfl
  | ascii => exact hs.elim
  | latin1 => exact hs.elim

/-- **With a mark a body shows its scheme** in the mark, which is dropped. -/
theorem opening_of_mark (hs : s.IsUnicode) (hzero : c.val ≠ 0) (hascii : c.val < 0x80)
    (h : (plain s).encodeBody position (c :: t) = .ok body) :
    ((encoding (s.mark ++ body)).opening (s.mark ++ body)).scheme = s ∧
      ((encoding (s.mark ++ body)).opening (s.mark ++ body)).markSize = s.mark.length := by
  cases s with
  | utf8 => exact ⟨rfl, rfl⟩
  | utf16 order =>
    cases order with
    | little =>
      obtain ⟨bytes, rest, hc, -, rfl⟩ := Encoding.encodeBody_cons_eq_ok_iff.1 h
      cases (Encoding.Utf16.encode?_of_ascii .little hascii).symm.trans hc
      have hb := Encoding.ofNat_val_ne_zero hzero hascii
      rw [ByteOrder.bytes_little_of_lt (by omega)]
      show ((encoding (0xFF :: 0xFE :: UInt8.ofNat c.val :: 0 :: rest)).opening _).scheme = _ ∧
        ((encoding (0xFF :: 0xFE :: UInt8.ofNat c.val :: 0 :: rest)).opening _).markSize = _
      rw [encoding_utf16_mark_cons hb]
      exact ⟨rfl, rfl⟩
    | big => exact ⟨rfl, rfl⟩
  | utf32 order => cases order <;> exact ⟨rfl, rfl⟩
  | ascii => exact hs.elim
  | latin1 => exact hs.elim

end Texts

/-! ### Ways to send a text -/

/-- A way to send a text: in a scheme that has all of Unicode, with or without a mark in front. -/
structure Form where
  scheme : Scheme
  unicode : scheme.IsUnicode
  marked : Bool

/-- The body that sends a text. -/
def Form.encode (f : Form) (t : Text) : Except Encoding.Unencodable Bytes :=
  (plain f.scheme).encode (if f.marked then .byteOrderMark :: t else t)

/-- A text that begins with an ASCII character, and has no NUL, is read from each body that sends
it. -/
theorem decodeLenient_of_form {f : Form} {c : CodePoint} {t : Text} {body : Bytes}
    (hzero : c.val ≠ 0) (hascii : c.val < 0x80) (ht : ∀ d ∈ t, d.val ≠ 0)
    (h : f.encode (c :: t) = .ok body) :
    (encoding body).decodeLenient body = .ok (c :: t) := by
  obtain ⟨s, hs, marked⟩ := f
  refine Encoding.decodeLenient_of_decode ?_
  cases marked with
  | false =>
    have h : (plain s).encode (c :: t) = .ok body := h
    obtain ⟨rest, hrest, hbody⟩ := map_eq_ok_iff.1 h
    have hshown : encoding body = plain s := by
      rw [← hbody]
      exact encoding_of_encodeBody hs hzero hascii ht hrest
    rw [hshown]
    exact Encoding.decode_of_encode h
  | true =>
    have h : (plain s).encode (.byteOrderMark :: c :: t) = .ok body := h
    obtain ⟨_, hbody, rfl⟩ := map_eq_ok_iff.1 h
    obtain ⟨mark, rest, hmark, hrest, rfl⟩ := Encoding.encodeBody_cons_eq_ok_iff.1 hbody
    cases hs.encode?_byteOrderMark.symm.trans hmark
    show (encoding (s.mark ++ rest)).decode (s.mark ++ rest) = .ok (c :: t)
    refine Encoding.decode_append ?_ hrest
    exact opening_of_mark hs hzero hascii hrest

/-- **The value of a body is the value of the text that it sends**, whichever way it does. -/
theorem read_of_form (f : Form) {t : Text} {v : Json} (ht : ∀ c ∈ t, ¬ c.IsSurrogate)
    (hread : Json.read t = .ok v) : ∃ body, f.encode t = .ok body ∧ read body = .ok v := by
  have htext : ∀ c ∈ (if f.marked then .byteOrderMark :: t else t), ¬ c.IsSurrogate := by
    split
    · exact List.forall_mem_cons.2 ⟨by decide, ht⟩
    · exact ht
  obtain ⟨body, hbody⟩ := f.unicode.exists_encode htext
  obtain ⟨c, rest, rfl, hzero, hascii, hrest⟩ := Json.begins_of_read hread
  refine ⟨body, hbody, bind_eq_ok_iff.2 ⟨c :: rest, ?_, mapError_eq_ok_iff.2 hread⟩⟩
  exact mapError_eq_ok_iff.2 (decodeLenient_of_form hzero hascii hrest hbody)

end Body

namespace Service

/-- **A put does not depend on the encoding of its body.** A text that can be read is sent in any
scheme of Unicode, with or without a mark, and the request is answered the same, with the same tree
after it. -/
theorem put_ignores_form_of_body (s : Service) (tree : FileTree) (file path : Text) {t : Text}
    {v : Json} (ht : ∀ c ∈ t, ¬ c.IsSurrogate) (hread : Json.read t = .ok v) :
    ∃ answer, ∀ f : Body.Form, ∃ body, f.encode t = .ok body ∧ Body.read body = .ok v ∧
      s.answer tree ⟨.put, file, path, body⟩ = answer := by
  obtain ⟨body₀, -, hbody₀⟩ := Body.read_of_form ⟨.utf8, trivial, false⟩ ht hread
  refine ⟨s.answer tree ⟨.put, file, path, body₀⟩, fun f => ?_⟩
  obtain ⟨body, hbody, hvalue⟩ := Body.read_of_form f ht hread
  refine ⟨body, hbody, hvalue, ?_⟩
  simp only [answer, put, hbody₀, hvalue]

/-- The string `"Ā"`, in UTF-16 with the lowest byte first, where the unit of its letter begins with
a zero, and in UTF-32 with the highest byte first behind a mark. -/
theorem put_ignores_form_of_body_at_wide_letter :
    let s := ofSettings {}
    let t : Text := ['"', .ofNat 0x100, '"']
    let r : Bytes → Request := fun body => ⟨.put, Text.ofString "x", [], body⟩
    (∀ c ∈ t, ¬ c.IsSurrogate) ∧ Json.read t = .ok (.str [.ofNat 0x100]) ∧
      s.answer .empty (r [0x22, 0x00, 0x00, 0x01, 0x22, 0x00]) =
        s.answer .empty (r [0x00, 0x00, 0xFE, 0xFF, 0x00, 0x00, 0x00, 0x22, 0x00, 0x00, 0x01, 0x00,
          0x00, 0x00, 0x00, 0x22]) := by
  intro s t r
  have ht : ∀ c ∈ t, ¬ c.IsSurrogate := by decide
  have hread : Json.read t = .ok (.str [.ofNat 0x100]) :=
    Json.read_of_denotes
      (.string (.quoted (.character (by decide) (by decide) (by decide) .nil))) nofun
  obtain ⟨answer, h⟩ := put_ignores_form_of_body s .empty (Text.ofString "x") [] ht hread
  obtain ⟨body, hbody, -, hanswer⟩ := h ⟨.utf16 .little, trivial, false⟩
  obtain ⟨body', hbody', -, hanswer'⟩ := h ⟨.utf32 .big, trivial, true⟩
  cases hbody
  cases hbody'
  exact ⟨ht, hread, hanswer.trans hanswer'.symm⟩

end Service

end JsonShelf
