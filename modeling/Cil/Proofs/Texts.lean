import Cil.Bytes

/-!
Texts as bytes. A text is known by its bytes, and these hold no zero byte unless the text holds the
character of that number.
-/

namespace Cil
namespace Bytes

theorem ofText_eq_flatMap (text : String) :
    ofText text = text.toList.flatMap String.utf8EncodeChar := by
  have bytes : text.toByteArray = text.toList.utf8Encode := by
    rw [← String.toByteArray_ofList, String.ofList_toList]
  rw [ofText, String.toUTF8_eq_toByteArray, bytes, List.utf8Encode]
  simp

@[simp] theorem length_ofText (text : String) : (ofText text).length = text.utf8ByteSize := rfl

theorem text?_ofText (text : String) : text? (ofText text) = some text := by
  have whole : (⟨(ofText text).toArray⟩ : ByteArray) = text.toByteArray := by
    rw [ofText, String.toUTF8_eq_toByteArray]
  rw [text?, whole, String.fromUTF8?, dif_pos text.isValidUTF8]
  rfl

theorem ofText_injective {a b : String} (h : ofText a = ofText b) : a = b := by
  have same := congrArg text? h
  rw [text?_ofText, text?_ofText] at same
  exact Option.some.inj same

theorem eq_zero_of_mem_utf8EncodeChar {c : Char} (h : (0 : UInt8) ∈ String.utf8EncodeChar c) :
    c = '\x00' := by
  have zero {n : Nat} (same : (0 : UInt8) = UInt8.ofNat n) : n % 256 = 0 :=
    (congrArg UInt8.toNat same).symm
  have small : c.val.toNat = 0 → c = '\x00' := by
    intro value
    apply Char.ext
    apply UInt32.toNat_inj.1
    exact value
  -- Each of the four forms marks all its bytes with high bits, but for that of the first characters.
  have marked (ns : List Nat) (high : ∀ n ∈ ns, 128 ≤ n ∧ n < 256) :
      (0 : UInt8) ∉ ns.map UInt8.ofNat := by
    intro member
    obtain ⟨n, hn, same⟩ := List.mem_map.1 member
    have := zero same.symm
    have := high n hn
    omega
  simp only [String.utf8EncodeChar] at h
  split at h
  · apply small
    have := zero (List.mem_singleton.1 h)
    omega
  split at h
  · exact absurd h (marked [_, _] (by simp; omega))
  split at h
  · exact absurd h (marked [_, _, _] (by simp; omega))
  · exact absurd h (marked [_, _, _, _] (by simp; omega))

theorem zero_notMem_ofText {text : String} (h : '\x00' ∉ text.toList) : (0 : UInt8) ∉ ofText text := by
  rw [ofText_eq_flatMap, List.mem_flatMap]
  rintro ⟨c, member, zero⟩
  exact h (eq_zero_of_mem_utf8EncodeChar zero ▸ member)

end Bytes
end Cil
