import Mathlib.Data.Set.Function
import Medulla.Library.Strings

/-! # File names of graphs

A graph's name is written byte by byte: letters, digits, `-`, `_` and `.` as they are, every other byte
as `~` and two digits. A name that gets too long so is replaced by `~h` and its digest.

* one byte: `escapeByte_spec`;
* every name: `sanitize_unique_reversible`. -/

namespace Medulla.Redb.FileNames

open Library.Strings

/-! ### Escapes -/

def hexDigit (n : ℕ) : Char := Char.ofNat (if n < 10 then 48 + n else 87 + n)

def hexByte (byte : UInt8) : List Char := [hexDigit (byte.toNat / 16), hexDigit (byte.toNat % 16)]

def isAsciiAlphanumeric (byte : UInt8) : Bool :=
  (48 ≤ byte && byte ≤ 57) || (65 ≤ byte && byte ≤ 90) || (97 ≤ byte && byte ≤ 122)

def isPlain (byte : UInt8) : Bool :=
  isAsciiAlphanumeric byte || byte == 45 || byte == 95 || byte == 46

def escapeByte (byte : UInt8) : List Char :=
  if isPlain byte then [Char.ofNat byte.toNat] else '~' :: hexByte byte

def escape (name : String) : String := .ofList ((bytes name).flatMap escapeByte)

def isShortened (name : String) : Bool := decide (200 < (escape name).utf8ByteSize)

/-- **The file name of a graph.** -/
def sanitize (sha256 : List UInt8 → Vector UInt8 32) (name : String) : String :=
  if isShortened name then .ofList ('~' :: 'h' :: (sha256 (bytes name)).toList.flatMap hexByte)
  else escape name

def digitValue (byte : UInt8) : Option ℕ :=
  if 48 ≤ byte && byte ≤ 57 then some (byte.toNat - 48)
  else if 97 ≤ byte && byte ≤ 102 then some (byte.toNat - 87)
  else if 65 ≤ byte && byte ≤ 70 then some (byte.toNat - 55)
  else none

/-- Two bytes read as a number to base 16; a sign before one digit is read too. -/
def fromStrRadix (high low : UInt8) : Option UInt8 :=
  if high == 43 then (digitValue low).map .ofNat
  else (digitValue high).bind fun h => (digitValue low).map fun l => .ofNat (16 * h + l)

def decode : List UInt8 → Option (List UInt8)
  | [] => some []
  | byte :: rest =>
    if byte == 126 then
      match rest with
      | high :: low :: rest => (fromStrRadix high low).bind fun b => (decode rest).map (b :: ·)
      | _ => none
    else (decode rest).map (byte :: ·)

/-- **The name of a file name**, if it is one that `sanitize` writes and not a digest. -/
def unsanitize (sha256 : List UInt8 → Vector UInt8 32) (key : String) : Option String :=
  if [126, 104].isPrefixOf (bytes key) then none
  else ((decode (bytes key)).bind fun out => String.fromUTF8? ⟨out.toArray⟩).filter
    fun name => sanitize sha256 name == key

/-! ### Escapes can be read back -/

theorem forall_byte {p : UInt8 → Prop} (h : ∀ n < 256, p (.ofNat n)) (byte : UInt8) : p byte := by
  have hbyte := h byte.toNat byte.toNat_lt
  rwa [UInt8.ofNat_toNat] at hbyte

theorem plain_spec (byte : UInt8) : isPlain byte = true →
    String.utf8EncodeChar (Char.ofNat byte.toNat) = [byte] ∧ byte ≠ 126 :=
  forall_byte (p := fun byte => isPlain byte = true →
    String.utf8EncodeChar (Char.ofNat byte.toNat) = [byte] ∧ byte ≠ 126) (by decide +kernel) byte

def digitByte (n : ℕ) : UInt8 := .ofNat (if n < 10 then 48 + n else 87 + n)

theorem hex_spec (byte : UInt8) : (hexByte byte).flatMap String.utf8EncodeChar =
      [digitByte (byte.toNat / 16), digitByte (byte.toNat % 16)] ∧
    fromStrRadix (digitByte (byte.toNat / 16)) (digitByte (byte.toNat % 16)) = some byte ∧
    digitByte (byte.toNat / 16) ≠ 104 :=
  forall_byte (p := fun byte => (hexByte byte).flatMap String.utf8EncodeChar =
      [digitByte (byte.toNat / 16), digitByte (byte.toNat % 16)] ∧
    fromStrRadix (digitByte (byte.toNat / 16)) (digitByte (byte.toNat % 16)) = some byte ∧
    digitByte (byte.toNat / 16) ≠ 104) (by decide +kernel) byte

/-- **An escape is read back**, and it does not start as a digest does. -/
theorem escapeByte_spec (byte : UInt8) (rest : List UInt8) :
    decode ((escapeByte byte).flatMap String.utf8EncodeChar ++ rest) =
        (decode rest).map (byte :: ·) ∧
      [126, 104].isPrefixOf ((escapeByte byte).flatMap String.utf8EncodeChar ++ rest) = false := by
  unfold escapeByte
  split_ifs with hplain
  · obtain ⟨hencode, hne⟩ := plain_spec byte hplain
    rw [List.flatMap_singleton, hencode]
    refine ⟨?_, by simp [List.isPrefixOf, hne.symm]⟩
    conv_lhs => unfold decode
    exact if_neg (by simpa using hne)
  · obtain ⟨hencode, hradix, hne⟩ := hex_spec byte
    rw [List.flatMap_cons, hencode]
    change decode (126 :: _ :: _ :: rest) = _ ∧ [126, 104].isPrefixOf (126 :: _ :: _ :: rest) = _
    simp [decode, hradix, List.isPrefixOf, hne.symm]

theorem bytes_escape (name : String) :
    bytes (escape name) = ((bytes name).flatMap escapeByte).flatMap String.utf8EncodeChar :=
  bytes_ofList _

theorem decode_escape (name : String) : decode (bytes (escape name)) = some (bytes name) := by
  rw [bytes_escape]
  induction bytes name with
  | nil => rfl
  | cons byte bs ih =>
    rw [List.flatMap_cons, List.flatMap_append, (escapeByte_spec byte _).1, ih]
    rfl

theorem escape_no_digest (name : String) : [126, 104].isPrefixOf (bytes (escape name)) = false := by
  rw [bytes_escape]
  cases bytes name with
  | nil => rfl
  | cons byte bs =>
    rw [List.flatMap_cons, List.flatMap_append]
    exact (escapeByte_spec byte _).2

theorem bytes_injective : Function.Injective bytes := by
  intro a b h
  exact String.toByteArray_inj.mp (ByteArray.ext (Array.toList_inj.mp h))

theorem fromUTF8_bytes (name : String) : String.fromUTF8? ⟨(bytes name).toArray⟩ = some name := by
  have harray : (⟨(bytes name).toArray⟩ : ByteArray) = name.toByteArray := ByteArray.ext rfl
  rw [harray]
  unfold String.fromUTF8?
  rw [dif_pos name.isValidUTF8]
  rfl

theorem hexBytes_injective : ∀ {xs ys : List UInt8}, xs.flatMap hexByte = ys.flatMap hexByte → xs = ys
  | [], [], _ => rfl
  | [], _ :: _, h => by cases h
  | _ :: _, [], h => by cases h
  | x :: xs, y :: ys, h => by
    rw [List.flatMap_cons, List.flatMap_cons] at h
    obtain ⟨hhead, htail⟩ := List.append_inj h rfl
    have hbytes := congrArg (List.flatMap String.utf8EncodeChar) hhead
    rw [(hex_spec x).1, (hex_spec y).1] at hbytes
    obtain ⟨hhigh, hlow⟩ := List.cons.inj hbytes
    have hxy : some x = some y := by
      rw [← (hex_spec x).2.1, ← (hex_spec y).2.1, hhigh, (List.cons.inj hlow).1]
    rw [Option.some.inj hxy, hexBytes_injective htail]

/-- **File names are unique and can be read back**: distinct names whose digests are distinct get
distinct file names, a name read back from a file name is written as that file name, and a name that is
not shortened is read back from its own. -/
theorem sanitize_unique_reversible (sha256 : List UInt8 → Vector UInt8 32) (names : Set String)
    (hsha256 : Set.InjOn (fun name => sha256 (bytes name)) names) :
    Set.InjOn (sanitize sha256) names ∧
    (∀ key name, unsanitize sha256 key = some name → sanitize sha256 name = key) ∧
    ∀ name, isShortened name = false → unsanitize sha256 (sanitize sha256 name) = some name := by
  have hshort : ∀ name, isShortened name = false → sanitize sha256 name = escape name :=
    fun name h => if_neg (by rw [h]; exact Bool.false_ne_true)
  have hdigest : ∀ name, isShortened name = true →
      [126, 104].isPrefixOf (bytes (sanitize sha256 name)) = true := by
    intro name h
    rw [sanitize, if_pos h, bytes_ofList]
    rfl
  refine ⟨fun a ha b hb heq => ?_, fun key name h => ?_, fun name h => ?_⟩
  · cases hla : isShortened a <;> cases hlb : isShortened b
    · rw [hshort a hla, hshort b hlb] at heq
      have hbytes := decode_escape a
      rw [heq, decode_escape b] at hbytes
      exact bytes_injective (Option.some.inj hbytes).symm
    · have hprefix := hdigest b hlb
      rw [← heq, hshort a hla, escape_no_digest] at hprefix
      cases hprefix
    · have hprefix := hdigest a hla
      rw [heq, hshort b hlb, escape_no_digest] at hprefix
      cases hprefix
    · rw [sanitize, sanitize, if_pos hla, if_pos hlb] at heq
      have hlists := String.ofList_injective heq
      obtain ⟨-, hlists⟩ := List.cons.inj hlists
      exact hsha256 ha hb (Vector.toList_inj.mp (hexBytes_injective (List.cons.inj hlists).2))
  · unfold unsanitize at h
    split_ifs at h
    exact eq_of_beq (Option.filter_eq_some_iff.mp h).2
  · rw [hshort name h, unsanitize, escape_no_digest, decode_escape]
    simp [fromUTF8_bytes, hshort name h]

/-- The SHA-256 digests of `a` and `b`. -/
def digestOfTwo (bs : List UInt8) : Vector UInt8 32 :=
  if bs = [97] then
    ⟨#[0xca, 0x97, 0x81, 0x12, 0xca, 0x1b, 0xbd, 0xca, 0xfa, 0xc2, 0x31, 0xb3, 0x9a, 0x23, 0xdc, 0x4d,
      0xa7, 0x86, 0xef, 0xf8, 0x14, 0x7c, 0x4e, 0x72, 0xb9, 0x80, 0x77, 0x85, 0xaf, 0xee, 0x48, 0xbb], rfl⟩
  else
    ⟨#[0x3e, 0x23, 0xe8, 0x16, 0x00, 0x39, 0x59, 0x4a, 0x33, 0x89, 0x4f, 0x65, 0x64, 0xe1, 0xb1, 0x34,
      0x8b, 0xbd, 0x7a, 0x00, 0x88, 0xd4, 0x2c, 0x4a, 0xcb, 0x73, 0xee, 0xae, 0xd5, 0x9c, 0x00, 0x9d], rfl⟩

theorem sanitize_unique_reversible_two : Set.InjOn (sanitize digestOfTwo) {"a", "b"} ∧
    unsanitize digestOfTwo (sanitize digestOfTwo "a/b") = some "a/b" := by
  have hsha256 : Set.InjOn (fun name => digestOfTwo (bytes name)) {"a", "b"} := by
    rintro x (rfl | rfl) y (rfl | rfl) h
    · rfl
    · exact absurd h (by decide)
    · exact absurd h (by decide)
    · rfl
  have h := sanitize_unique_reversible digestOfTwo {"a", "b"} hsha256
  exact ⟨h.1, h.2.2 "a/b" (by decide)⟩

end Medulla.Redb.FileNames
