import Ssms.Lib.Rfc8259

/-!
# The characters of a JSON string (RFC 8259, section 7)

The code units of the escapes in a string are UTF-16. A code unit outside of the surrogates is the
character with its number; a high and a low surrogate, one after the other, are one character from
`0x10000` on. `utf8Of s` is the string in UTF-8. A string with a surrogate alone has none.

* `append_utf8`: the UTF-8 of a string tells where its first character ends.
-/

namespace Ssms.Lib.Rfc8259

/-- The first of two surrogates. -/
def IsHigh (u : BitVec 16) : Prop := 0xD800 ≤ u.toNat ∧ u.toNat < 0xDC00

/-- The second of two surrogates. -/
def IsLow (u : BitVec 16) : Prop := 0xDC00 ≤ u.toNat ∧ u.toNat < 0xE000

instance : DecidablePred IsHigh := fun u => by unfold IsHigh; infer_instance
instance : DecidablePred IsLow := fun u => by unfold IsLow; infer_instance

/-- The character of two surrogates. -/
def charOfPair (u u' : BitVec 16) : Char :=
  Char.ofNat (0x10000 + (u.toNat - 0xD800) * 0x400 + (u'.toNat - 0xDC00))

/-- A string in UTF-8. -/
def utf8Of : List Character → Option Bytes
  | [] => some []
  | .byte c :: s => (utf8Of s).map fun w => c :: w
  | .unit u :: s =>
    if IsHigh u then
      match s with
      | .unit u' :: s =>
        if IsLow u' then (utf8Of s).map fun w => String.utf8EncodeChar (charOfPair u u') ++ w
        else none
      | _ => none
    else if IsLow u then none
    else (utf8Of s).map fun w => String.utf8EncodeChar (Char.ofNat u.toNat) ++ w

/-- A number of a character is that of the character. -/
theorem toNat_val_ofNat {n : Nat} (h : n.isValidChar) : (Char.ofNat n).val.toNat = n := by
  rw [Char.ofNat, dif_pos h]
  rfl

theorem toNat_charOfPair {u u' : BitVec 16} (hu : IsHigh u) (hu' : IsLow u') :
    (charOfPair u u').val.toNat = 0x10000 + (u.toNat - 0xD800) * 0x400 + (u'.toNat - 0xDC00) := by
  refine toNat_val_ofNat (Or.inr ?_)
  unfold IsHigh at hu
  unfold IsLow at hu'
  omega

/-- **No character's bytes are the beginning of another one's.** -/
theorem append_utf8 {c c' : Char} {w w' : Bytes}
    (h : String.utf8EncodeChar c ++ w = String.utf8EncodeChar c' ++ w') : c = c' ∧ w = w' := by
  have hdecode := ByteArray.utf8DecodeChar?_utf8EncodeChar_append (b := w.toByteArray) (c := c)
  rw [← List.toByteArray_append, h, List.toByteArray_append,
    ByteArray.utf8DecodeChar?_utf8EncodeChar_append] at hdecode
  obtain rfl := Option.some.inj hdecode
  exact ⟨rfl, List.append_cancel_left h⟩

end Ssms.Lib.Rfc8259
