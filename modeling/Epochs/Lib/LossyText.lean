import Epochs.Lib.Utf8

/-! Reading bytes as text with every invalid sequence replaced: valid text is read as it is. -/

namespace Epochs.Lib.Utf8

theorem encodeChar_ne_nil (char : Char) : String.utf8EncodeChar char ≠ [] := by
  intro empty
  have length := String.length_utf8EncodeChar char
  have positive := char.utf8Size_pos
  rw [empty] at length
  simp at length
  omega

end Epochs.Lib.Utf8
