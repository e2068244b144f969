import StrongMotion.Header.Basic
import StrongMotion.Proofs.Utf8Text

/-!
# Writing text in an encoding

A text is a list of characters, and each encoding has bytes for each character that it can write.
Decoding undoes writing (`Charset.decode_write`).
-/

namespace StrongMotion

/-- The code is one of Unicode and no half of a pair. -/
def IsScalar (code : Nat) : Prop := code < 0x110000 ∧ isSurrogate code = false

instance (code : Nat) : Decidable (IsScalar code) :=
  inferInstanceAs (Decidable (code < 0x110000 ∧ isSurrogate code = false))

theorem isScalar_toNat (c : Char) : IsScalar c.toNat := by
  have hvalid : c.toNat < 0xD800 ∨ 0xDFFF < c.toNat ∧ c.toNat < 0x110000 := c.valid
  rcases hvalid with hlow | ⟨hlow, hhigh⟩
  · exact ⟨by omega, isSurrogate_of_lt hlow⟩
  · exact ⟨hhigh, (Utf8.isCode_of_gt hlow (Nat.lt_trans hhigh (by decide))).2⟩

theorem IsScalar.isCode {code : Nat} (hcode : IsScalar code) : Utf8.IsCode code :=
  ⟨Nat.lt_trans hcode.1 (by decide), hcode.2⟩

/-! ## Units of two and four bytes -/

namespace ByteOrder

/-- The two bytes of a number. -/
def twoBytes (order : ByteOrder) (n : Nat) : Bytes :=
  match order with
  | .littleEndian => [UInt8.ofNat n, UInt8.ofNat (n / 256)]
  | .bigEndian => [UInt8.ofNat (n / 256), UInt8.ofNat n]

/-- The four bytes of a number. -/
def fourBytes (order : ByteOrder) (n : Nat) : Bytes :=
  match order with
  | .littleEndian => order.twoBytes (n % 65536) ++ order.twoBytes (n / 65536)
  | .bigEndian => order.twoBytes (n / 65536) ++ order.twoBytes (n % 65536)

theorem exists_twoBytes_eq (order : ByteOrder) {n : Nat} (hn : n < 0x10000) :
    ∃ a b, order.twoBytes n = [a, b] ∧ order.pair a b = n := by
  cases order with
  | littleEndian =>
    refine ⟨_, _, rfl, ?_⟩
    simp only [pair, UInt8.toNat_ofNat']
    omega
  | bigEndian =>
    refine ⟨_, _, rfl, ?_⟩
    simp only [pair, UInt8.toNat_ofNat']
    omega

theorem exists_fourBytes_eq (order : ByteOrder) {n : Nat} (hn : n < 0x100000000) :
    ∃ a b c d, order.fourBytes n = [a, b, c, d] ∧ order.quad a b c d = n := by
  obtain ⟨a, b, hlow, hlow'⟩ := order.exists_twoBytes_eq (n := n % 65536) (by omega)
  obtain ⟨c, d, hhigh, hhigh'⟩ := order.exists_twoBytes_eq (n := n / 65536) (by omega)
  cases order with
  | littleEndian =>
    refine ⟨a, b, c, d, by rw [fourBytes, hlow, hhigh]; rfl, ?_⟩
    rw [quad, hlow', hhigh']
    omega
  | bigEndian =>
    refine ⟨c, d, a, b, by rw [fourBytes, hlow, hhigh]; rfl, ?_⟩
    rw [quad, hlow', hhigh']
    omega

end ByteOrder

namespace Utf16

/-- A code beyond two bytes is written as a pair of surrogates. -/
def encode (order : ByteOrder) (code : Nat) : Bytes :=
  if code < 0x10000 then order.twoBytes code
  else
    order.twoBytes (0xD800 + (code - 0x10000) / 1024) ++
      order.twoBytes (0xDC00 + (code - 0x10000) % 1024)

theorem character_encode (order : ByteOrder) {code : Nat} (hcode : IsScalar code) :
    Character (step order) (encode order code) code := by
  obtain ⟨hlimit, hsurrogate⟩ := hcode
  rw [isSurrogate, Bool.eq_false_iff, ne_eq, Bool.and_eq_true, decide_eq_true_eq,
    decide_eq_true_eq] at hsurrogate
  refine IsLocal.character (isLocal_step order) ?_
  unfold encode
  split
  · next hshort =>
    obtain ⟨a, b, hbytes, hpair⟩ := order.exists_twoBytes_eq hshort
    have hlow : ¬isLowSurrogate code = true := by
      rw [isLowSurrogate_iff]
      omega
    have hhigh : ¬isHighSurrogate code = true := by
      rw [isHighSurrogate_iff]
      omega
    simp only [hbytes, step, hpair, if_neg hlow, if_neg hhigh, List.length_cons, List.length_nil]
  · next hlong =>
    generalize hu : 0xD800 + (code - 0x10000) / 1024 = u
    generalize hv : 0xDC00 + (code - 0x10000) % 1024 = v
    obtain ⟨a, b, hfirst, hpair⟩ := order.exists_twoBytes_eq (n := u) (by omega)
    obtain ⟨c, d, hsecond, hpair'⟩ := order.exists_twoBytes_eq (n := v) (by omega)
    have hhigh : isHighSurrogate u = true := by
      rw [isHighSurrogate_iff]
      omega
    have hlow := not_isLowSurrogate hhigh
    have hlow' : isLowSurrogate v = true := by
      rw [isLowSurrogate_iff]
      omega
    have hcode : 0x10000 + (u - 0xD800) * 1024 + (v - 0xDC00) = code := by omega
    rw [hfirst, hsecond]
    simp only [List.cons_append, List.nil_append, step, hpair, hpair', if_neg hlow, if_pos hhigh,
      if_pos hlow', hcode, List.length_cons, List.length_nil]

end Utf16

namespace Utf32

def encode (order : ByteOrder) (code : Nat) : Bytes := order.fourBytes code

theorem character_encode (order : ByteOrder) {code : Nat} (hcode : IsScalar code) :
    Character (step order) (encode order code) code := by
  obtain ⟨hlimit, hsurrogate⟩ := hcode
  refine IsLocal.character (isLocal_step order) ?_
  obtain ⟨a, b, c, d, hbytes, hquad⟩ := order.exists_fourBytes_eq (n := code) (by omega)
  rw [encode, hbytes, step, hquad, hsurrogate, if_neg]
  · rfl
  · rw [Bool.false_or, decide_eq_true_eq]
    omega

end Utf32

/-! ## Encodings to write in -/

/-- The encodings that put no mark before a text and write a character in one way. -/
inductive Charset
  | utf8
  | ascii
  | latin1
  | utf16 (order : ByteOrder)
  | utf32 (order : ByteOrder)
deriving DecidableEq, Repr

namespace Charset

def name : Charset → Bytes
  | utf8 => "UTF-8"
  | ascii => "US-ASCII"
  | latin1 => "ISO-8859-1"
  | utf16 .littleEndian => "UTF-16LE"
  | utf16 .bigEndian => "UTF-16BE"
  | utf32 .littleEndian => "UTF-32LE"
  | utf32 .bigEndian => "UTF-32BE"

def encoding : Charset → Encoding
  | utf8 => .utf8
  | ascii => .ascii
  | latin1 => .latin1
  | utf16 order => .utf16In order
  | utf32 order => .utf32In order

/-- The codes that can be written are those below. -/
def limit : Charset → Nat
  | ascii => 0x80
  | latin1 => 0x100
  | utf8 | utf16 _ | utf32 _ => 0x110000

def encode : Charset → Nat → Bytes
  | utf8, code => Utf8.encode code
  | ascii, code | latin1, code => [UInt8.ofNat code]
  | utf16 order, code => Utf16.encode order code
  | utf32 order, code => Utf32.encode order code

/-- All characters of the text can be written. -/
def Has (charset : Charset) (text : List Char) : Prop := ∀ c ∈ text, c.toNat < charset.limit

instance (charset : Charset) (text : List Char) : Decidable (charset.Has text) :=
  List.decidableBAll _ text

def write (charset : Charset) (text : List Char) : Bytes :=
  text.flatMap fun c => charset.encode c.toNat

def decoder (charset : Charset) : Decoder := ⟨charset.name, charset.encoding⟩

/-- How a file in this encoding is read. -/
def options (charset : Charset) (split : Bool) : ReadOptions :=
  { encoding := some charset.name, splitStation := split }

theorem ofName_name (charset : Charset) : Decoder.ofName charset.name = .ok charset.decoder := by
  cases charset with
  | utf8 | ascii | latin1 => rfl
  | utf16 order | utf32 order => cases order <;> rfl

theorem ofChoice_options (charset : Charset) (split : Bool) :
    Decoder.ofChoice (charset.options split).encoding = .ok charset.decoder :=
  charset.ofName_name

theorem after_eq (charset : Charset) (s : Bytes) : charset.encoding.after s = charset.encoding := by
  cases charset <;> rfl

theorem unmarked_eq (charset : Charset) (s : Bytes) : charset.encoding.unmarked s = s := by
  cases charset <;> rfl

theorem after_decoder (charset : Charset) (s : Bytes) :
    charset.decoder.after s = charset.decoder := by
  unfold Decoder.after decoder
  rw [charset.after_eq]

theorem decode_eq_ok_iff {charset : Charset} {s text : Bytes} :
    charset.decoder.decode s = .ok text ↔
      ∃ codes, Characters charset.encoding.step s codes ∧ text = Utf8.text codes := by
  rw [Decoder.decode_eq_ok_iff]
  simp only [decoder, charset.after_eq, charset.unmarked_eq]

theorem character_encode (charset : Charset) {code : Nat} (hcode : IsScalar code)
    (hlimit : code < charset.limit) :
    Character charset.encoding.step (charset.encode code) code := by
  cases charset with
  | utf8 => exact Utf8.character_encode hcode.isCode
  | ascii | latin1 =>
    refine IsLocal.character (Encoding.isLocal_singleByte _) ?_
    have hlimit' : code < 0x100 := Nat.lt_of_lt_of_le hlimit (by decide)
    have hbyte : (UInt8.ofNat code).toNat = code := by
      rw [UInt8.toNat_ofNat']
      omega
    rw [encode, Encoding.singleByte, hbyte]
    exact if_pos hlimit
  | utf16 order => exact Utf16.character_encode order hcode
  | utf32 order => exact Utf32.character_encode order hcode

theorem write_eq (charset : Charset) (text : List Char) :
    charset.write text = (text.map Char.toNat).flatMap charset.encode := by
  rw [List.flatMap_map]
  rfl

theorem characters_encode (charset : Charset) {codes : List Nat}
    (hcodes : ∀ code ∈ codes, IsScalar code) (hlimit : ∀ code ∈ codes, code < charset.limit) :
    Characters charset.encoding.step (codes.flatMap charset.encode) codes := by
  induction codes with
  | nil => exact .nil
  | cons code codes ih =>
    obtain ⟨hcode, hcodes⟩ := List.forall_mem_cons.1 hcodes
    obtain ⟨hlt, hlimit⟩ := List.forall_mem_cons.1 hlimit
    exact .cons (charset.character_encode hcode hlt) (ih hcodes hlimit)

theorem isScalar_of_mem_map {text : List Char} : ∀ code ∈ text.map Char.toNat, IsScalar code := by
  intro code hcode
  obtain ⟨c, -, rfl⟩ := List.mem_map.1 hcode
  exact isScalar_toNat c

/-- What is written in an encoding is decoded to the same text in UTF-8. -/
theorem decode_write (charset : Charset) {text : List Char} (htext : charset.Has text) :
    charset.decoder.decode (charset.write text) = .ok (utf8.write text) := by
  have hlimit : ∀ code ∈ text.map Char.toNat, code < charset.limit := by
    intro code hcode
    obtain ⟨c, hc, rfl⟩ := List.mem_map.1 hcode
    exact htext c hc
  rw [write_eq, write_eq]
  exact decode_eq_ok_iff.2 ⟨_, charset.characters_encode isScalar_of_mem_map hlimit, rfl⟩

end Charset
end StrongMotion
