import NioClient.Library.PercentEncoding
import NioClient.Axum.Extractors

/-! # What a sign-in location carries -/
namespace NioClient.Axum
open PercentEncoding
variable {H : Type}

/-- The bytes of a string. -/
def bytesOf (s : String) : List UInt8 := s.toByteArray.data.toList

theorem bytesOf_inj {s t : String} (h : bytesOf s = bytesOf t) : s = t :=
  String.toByteArray_inj.mp (ByteArray.ext (Array.toList_inj.mp h))

theorem bytesOf_ofList (chars : List Char) :
    bytesOf (String.ofList chars) = chars.flatMap String.utf8EncodeChar := by
  rw [bytesOf, String.toByteArray_ofList, List.utf8Encode, List.data_toByteArray]

theorem isUnreserved_eq : ∀ b, isUnreserved b = unreserved b := by
  apply forall_byte
  decide +kernel

/-- What is pushed for one byte is its triplet, in ASCII. -/
theorem percent_bytes : ∀ b, (percent b).flatMap String.utf8EncodeChar = triplet b := by
  apply forall_byte
  decide +kernel

theorem unreserved_bytes : ∀ b, unreserved b → String.utf8EncodeChar (Char.ofNat b.toNat) = [b] := by
  apply forall_byte
  decide +kernel

theorem urlencode_bytes (s : String) : bytesOf (urlencode s) = encode unreserved (bytesOf s) := by
  rw [urlencode, bytesOf_ofList, List.flatMap_assoc, encode, ← bytesOf]
  apply List.flatMap_congr
  intro b _
  rw [isUnreserved_eq]
  split
  · next h => rw [List.flatMap_singleton, unreserved_bytes b h]
  · exact percent_bytes b

theorem signinLocation_eq (authState : AuthState) (parts : Parts H) : authState.signinLocation parts =
    authState.signinPrefix ++ "/signin?back=" ++ urlencode (parts.pathAndQuery.getD "/") := rfl

theorem decode_urlencode (s : String) : decode (bytesOf (urlencode s)) = bytesOf s := by
  rw [urlencode_bytes, decode_encode (by decide)]

theorem urlencode_inj {s t : String} : urlencode s = urlencode t ↔ s = t := by
  constructor
  · intro h
    apply bytesOf_inj
    rw [← decode_urlencode s, h, decode_urlencode]
  · rintro rfl
    rfl

/-- The location carries the path and query, or "/" where there is none, as unreserved
characters and triplets that either decoder reads back, and nothing else of the request. -/
theorem signinLocation_lossless (authState : AuthState) (parts : Parts H) :
    let back := parts.pathAndQuery.getD "/"
    let e := urlencode back
    authState.signinLocation parts = authState.signinPrefix ++ "/signin?back=" ++ e ∧
    Encoded unreserved (bytesOf e) ∧
    (∀ b ∈ bytesOf e, 33 ≤ b.toNat ∧ b.toNat ≤ 126 ∧ b ∉ delimiters) ∧
    decode (bytesOf e) = bytesOf back ∧
    decodeForm (bytesOf e) = bytesOf back ∧
    ∀ other : Parts H, authState.signinLocation other = authState.signinLocation parts ↔
      other.pathAndQuery.getD "/" = back := by
  intro back e
  have hbytes : bytesOf e = encode unreserved (bytesOf back) := urlencode_bytes back
  have hencoded : Encoded unreserved (bytesOf e) := by
    rw [hbytes]
    exact encode_encoded (bytesOf back)
  refine ⟨signinLocation_eq authState parts,hencoded,fun b hb => hencoded.visible hb,
    decode_urlencode back,?_,fun other => ?_⟩
  · rw [hbytes, decodeForm_encode (by decide) (by decide)]
  · rw [signinLocation_eq, signinLocation_eq, String.append_right_inj, urlencode_inj]

end NioClient.Axum
