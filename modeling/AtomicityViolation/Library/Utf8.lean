import Mathlib.Data.List.Basic
import Mathlib.Data.List.Infix

/-!
# Texts as bytes

A text is written as the bytes of its UTF-8 encoding (`encode`) and read back from them (`decode`),
which fails on bytes that are no such encoding. A prefix of the bytes may end inside a character, so
it need not be the encoding of a prefix of the text; behind whole characters it is read as these and
what the rest is read as (`decode_append`).
-/

namespace Utf8

/-- The bytes of a text. -/
def encode (s : List Char) : List UInt8 := s.flatMap String.utf8EncodeChar

/-- The text that bytes encode. -/
def decode (bs : List UInt8) : Option (List Char) :=
  bs.toByteArray.utf8Decode?.map Array.toList

/-- The bytes of a text in two parts. -/
theorem encode_append (s t : List Char) : encode (s ++ t) = encode s ++ encode t :=
  List.flatMap_append

/-- The bytes of the beginning of a text. -/
theorem prefix_encode {s t : List Char} (h : s <+: t) : encode s <+: encode t := by
  obtain ⟨u, rfl⟩ := h
  exact encode_append s u ▸ List.prefix_append _ _

/-- The bytes of a text are read as the text. -/
theorem decode_encode (s : List Char) : decode (encode s) = some s := by
  have h : s.utf8Encode.utf8Decode? = some s.toArray := List.utf8Decode?_utf8Encode
  rw [decode, encode, ← List.utf8Encode, h]
  rfl

/-- What is read as a text are the bytes of it. -/
theorem encode_of_decode {bs : List UInt8} {s : List Char} (h : decode bs = some s) :
    encode s = bs := by
  obtain ⟨cs, hcs, rfl⟩ := Option.map_eq_some_iff.mp h
  have hsome : bs.toByteArray.utf8Decode?.isSome := by simp [hcs]
  have hget : bs.toByteArray.utf8Decode?.get hsome = cs := by simp [hcs]
  have hback := ByteArray.utf8Encode_get_utf8Decode? (b := bs.toByteArray) (h := hsome)
  rw [hget, List.utf8Encode] at hback
  simpa [encode, List.data_toByteArray] using congrArg (fun b => b.data.toList) hback

/-- A text whose bytes start those of another starts it. -/
theorem prefix_of_encode {s t : List Char} {bs : List UInt8} (h : encode s ++ bs = encode t) :
    s <+: t := by
  refine List.isPrefix_of_utf8Encode_append_eq_utf8Encode bs.toByteArray ?_
  rw [List.utf8Encode, List.utf8Encode, ← encode, ← encode, ← h, List.toByteArray_append]

/-- Behind the bytes of a text the rest is read on its own. -/
theorem decode_append (s : List Char) (bs : List UInt8) :
    decode (encode s ++ bs) = (decode bs).map (s ++ ·) := by
  cases hbs : decode bs with
  | some t => rw [← encode_of_decode hbs, ← encode_append, decode_encode, Option.map_some]
  | none =>
    -- A text that the whole is read as would start with `s`, and `bs` would be the rest of it.
    cases hwhole : decode (encode s ++ bs) with
    | none => rfl
    | some t =>
      have ht := encode_of_decode hwhole
      obtain ⟨u, rfl⟩ := prefix_of_encode ht.symm
      rw [encode_append] at ht
      rw [← List.append_cancel_left ht, decode_encode] at hbs
      cases hbs

end Utf8
