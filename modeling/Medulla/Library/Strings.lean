import Mathlib.Data.String.Basic

/-! # Strings on their bytes

The characters of a string and the order of strings are defined through its decoding. -/

namespace Medulla.Library.Strings

def bytes (s : String) : List UInt8 := s.toByteArray.data.toList

theorem bytes_ofList : ∀ cs : List Char, bytes (.ofList cs) = cs.flatMap String.utf8EncodeChar
  | [] => rfl
  | c :: cs => by
    have hrest := bytes_ofList cs
    simp only [bytes, String.toByteArray_ofList] at hrest ⊢
    rw [List.utf8Encode_cons, List.utf8Encode_singleton, ByteArray.data_append, Array.toList_append, hrest]
    simp

/-! ### Characters -/

/-- The byte is a character of its own. -/
def isAscii (b : UInt8) : Bool := b < 0x80

/-- The characters of a string, read off its bytes where each byte is one. -/
def chars (s : String) : List Char :=
  if (bytes s).all isAscii then (bytes s).map fun b => .ofNat b.toNat else s.toList

theorem encode_of_ascii {c : Char} (h : (String.utf8EncodeChar c).all isAscii = true) :
    (String.utf8EncodeChar c).map (fun b => Char.ofNat b.toNat) = [c] := by
  unfold String.utf8EncodeChar at h ⊢
  dsimp only at h ⊢
  split_ifs at h ⊢ with hone htwo hthree
  · have hsmall : c.val.toNat < 256 := by omega
    simp only [List.map_cons, UInt8.toNat_ofNat', Nat.mod_eq_of_lt hsmall]
    exact congrArg (· :: []) (Char.ofNat_toNat c)
  all_goals
    simp only [List.all_cons, isAscii, UInt8.lt_iff_toNat_lt, UInt8.toNat_ofNat'] at h
    simp at h
    omega

theorem map_of_ascii : ∀ {cs : List Char}, (cs.flatMap String.utf8EncodeChar).all isAscii = true →
    (cs.flatMap String.utf8EncodeChar).map (fun b => Char.ofNat b.toNat) = cs
  | [], _ => rfl
  | c :: cs, h => by
    rw [List.flatMap_cons, List.all_append, Bool.and_eq_true] at h
    rw [List.flatMap_cons, List.map_append, encode_of_ascii h.1, map_of_ascii h.2]
    rfl

theorem chars_eq (s : String) : chars s = s.toList := by
  obtain ⟨cs, rfl⟩ := s.exists_eq_ofList
  unfold chars
  split_ifs with hascii
  · rw [bytes_ofList] at hascii ⊢
    rw [map_of_ascii hascii, String.toList_ofList]
  · rfl

section
variable (s : String) (p : Char → Bool) (b : Bool) (n : ℕ)

instance decidableAny : Decidable (s.toList.any p = b) :=
  decidable_of_iff ((chars s).any p = b) (by rw [chars_eq])

instance decidableAll : Decidable (s.toList.all p = b) :=
  decidable_of_iff ((chars s).all p = b) (by rw [chars_eq])

instance decidableDropAny : Decidable ((s.toList.drop n).any p = b) :=
  decidable_of_iff (((chars s).drop n).any p = b) (by rw [chars_eq])

instance decidableDropAll : Decidable ((s.toList.drop n).all p = b) :=
  decidable_of_iff (((chars s).drop n).all p = b) (by rw [chars_eq])

instance decidableTake (t : List Char) : Decidable (s.toList.take n = t) :=
  decidable_of_iff ((chars s).take n = t) (by rw [chars_eq])

instance decidablePrefix (t : List Char) : Decidable (t <+: s.toList) :=
  decidable_of_iff (t <+: chars s) (by rw [chars_eq])

instance decidableLength : Decidable (s.toList.length = n) :=
  decidable_of_iff ((chars s).length = n) (by rw [chars_eq])

end

/-! ### Order -/

theorem encode_lt {c d : Char} (h : c < d) (s t : List UInt8) :
    String.utf8EncodeChar c ++ s < String.utf8EncodeChar d ++ t := by
  have hval : c.val.toNat < d.val.toNat := h
  have hmax : d.val.toNat < 0x110000 := d.valid.elim (by omega) (by omega)
  unfold String.utf8EncodeChar
  have digits : ∀ k, k / 4096 = k / 64 / 64 ∧ k / 262144 = k / 64 / 64 / 64 := fun k => by omega
  simp only [digits]
  split_ifs <;>
    simp only [List.cons_append, List.cons_lt_cons_iff, UInt8.lt_iff_toNat_lt, ← UInt8.toNat_inj,
      UInt8.toNat_ofNat'] <;> omega

theorem flatMap_lt : ∀ {cs ds : List Char}, cs < ds →
    cs.flatMap String.utf8EncodeChar < ds.flatMap String.utf8EncodeChar
  | [], d :: ds, _ => by
    rw [List.flatMap_cons]
    cases hd : String.utf8EncodeChar d with
    | nil => exact absurd hd String.utf8EncodeChar_ne_nil
    | cons b bs => exact List.nil_lt_cons _ _
  | c :: cs, d :: ds, h => by
    rcases List.cons_lt_cons_iff.mp h with hcd | ⟨rfl, hrest⟩
    · exact encode_lt hcd _ _
    · exact List.append_left_lt (flatMap_lt hrest)

/-- **UTF-8 keeps the order of strings.** -/
theorem lt_iff_bytes_lt {s t : String} : s < t ↔ bytes s < bytes t := by
  have hmono : ∀ {s t : String}, s < t → bytes s < bytes t := by
    intro s t h
    rw [← String.ofList_toList (s := s), ← String.ofList_toList (s := t), bytes_ofList, bytes_ofList]
    exact flatMap_lt (String.lt_iff_toList_lt.mp h)
  refine ⟨hmono, fun h => ?_⟩
  rcases lt_trichotomy s t with hlt | rfl | hgt
  · exact hlt
  · exact absurd h (List.lt_irrefl _)
  · exact absurd (List.lt_trans h (hmono hgt)) (List.lt_irrefl _)

instance linearOrderString : LinearOrder String where
  le_refl := le_refl
  le_trans _ _ _ := le_trans
  lt_iff_le_not_ge _ _ := lt_iff_le_not_ge
  le_antisymm _ _ := le_antisymm
  le_total := le_total
  toDecidableLT _ _ := decidable_of_iff _ lt_iff_bytes_lt.symm
  toDecidableLE s t := decidable_of_iff (¬ bytes t < bytes s) (by rw [← lt_iff_bytes_lt, not_lt])
  toDecidableEq := inferInstance
  min_def s t := by
    rw [min_def]
    congr
  max_def s t := by
    rw [max_def]
    congr
  compare_eq_compareOfLessAndEq s t := by
    rw [LinearOrder.compare_eq_compareOfLessAndEq]
    unfold compareOfLessAndEq
    congr

end Medulla.Library.Strings
