import Mathlib.Data.Nat.Notation
import Mathlib.Tactic.Common

/-! # Percent-encoding

Of byte strings, over an arbitrary set of bytes which are kept as they are. A decoder
leaves a `%` alone that no two hex digits follow; the decoder for forms first turns
each `+` into a space.
-/
namespace NioClient.PercentEncoding
variable {keep : UInt8 → Bool} {b : UInt8} {bytes rest : List UInt8}

def hexDigit (n : ℕ) : UInt8 := if n < 10 then .ofNat (48 + n) else .ofNat (55 + n)

/-- The value of a hex digit of either case. -/
def hexValue (b : UInt8) : Option ℕ :=
  if 48 ≤ b.toNat ∧ b.toNat ≤ 57 then some (b.toNat - 48)
  else if 65 ≤ b.toNat ∧ b.toNat ≤ 70 then some (b.toNat - 55)
  else if 97 ≤ b.toNat ∧ b.toNat ≤ 102 then some (b.toNat - 87)
  else none

def triplet (b : UInt8) : List UInt8 := [37,hexDigit (b.toNat / 16),hexDigit (b.toNat % 16)]

def encode (keep : UInt8 → Bool) (bytes : List UInt8) : List UInt8 :=
  bytes.flatMap fun b => if keep b then [b] else triplet b

def decode : List UInt8 → List UInt8
  | [] => []
  | 37 :: hi :: lo :: rest =>
    match hexValue hi, hexValue lo with
    | some h, some l => .ofNat (16 * h + l) :: decode rest
    | _, _ => 37 :: decode (hi :: lo :: rest)
  | b :: rest => b :: decode rest

def decodeForm (bytes : List UInt8) : List UInt8 := decode (bytes.map fun b => if b = 43 then 32 else b)

/-- Kept bytes and well-formed triplets. -/
inductive Encoded (keep : UInt8 → Bool) : List UInt8 → Prop where
  | nil : Encoded keep []
  | kept {b : UInt8} {rest : List UInt8} (h : keep b) (hrest : Encoded keep rest) : Encoded keep (b :: rest)
  | triplet {hi lo : UInt8} {rest : List UInt8} (hhi : (hexValue hi).isSome) (hlo : (hexValue lo).isSome)
      (hrest : Encoded keep rest) : Encoded keep (37 :: hi :: lo :: rest)

/-- The unreserved characters of RFC 3986: letters, digits and `-._~`. -/
def unreserved (b : UInt8) : Bool :=
  65 ≤ b.toNat && b.toNat ≤ 90 || 97 ≤ b.toNat && b.toNat ≤ 122 || 48 ≤ b.toNat && b.toNat ≤ 57 ||
    b = 45 || b = 46 || b = 95 || b = 126

@[simp] theorem encode_nil : encode keep [] = [] := rfl

@[simp] theorem encode_cons :
    encode keep (b :: bytes) = (if keep b then [b] else triplet b) ++ encode keep bytes := rfl

theorem forall_byte {P : UInt8 → Prop} (h : ∀ n < 256, P (.ofNat n)) (b : UInt8) : P b := by
  have hb := h b.toNat b.toNat_lt
  rwa [UInt8.ofNat_toNat] at hb

theorem hexValue_hexDigit {n : ℕ} (h : n < 16) : hexValue (hexDigit n) = some n := by
  have hall : ∀ n < 16, hexValue (hexDigit n) = some n := by decide
  exact hall n h

theorem decode_cons_ne (h : b ≠ 37) : decode (b :: rest) = b :: decode rest := by
  rw [decode]
  rintro hi lo rest' rfl
  exact absurd rfl h

theorem decode_triplet : decode (triplet b ++ rest) = b :: decode rest := by
  have hb : b.toNat < 256 := b.toNat_lt
  have hhi : b.toNat / 16 < 16 := by omega
  have hlo : b.toNat % 16 < 16 := by omega
  have hbyte : 16 * (b.toNat / 16) + b.toNat % 16 = b.toNat := by omega
  simp only [triplet, List.cons_append, List.nil_append, decode, hexValue_hexDigit hhi,
    hexValue_hexDigit hlo, hbyte, UInt8.ofNat_toNat]

theorem decode_encode (hpercent : keep 37 = false) (bytes : List UInt8) :
    decode (encode keep bytes) = bytes := by
  induction bytes with
  | nil => rfl
  | cons b bytes ih =>
    rw [encode_cons]
    split
    · next hkeep =>
      have hb : b ≠ 37 := by
        rintro rfl
        simp [hpercent] at hkeep
      rw [List.singleton_append, decode_cons_ne hb, ih]
    · rw [decode_triplet, ih]

theorem encode_encoded (bytes : List UInt8) : Encoded keep (encode keep bytes) := by
  induction bytes with
  | nil => exact .nil
  | cons b bytes ih =>
    have hb : b.toNat < 256 := b.toNat_lt
    rw [encode_cons]
    split
    · next hkeep => exact .kept hkeep ih
    · exact .triplet (by simp [hexValue_hexDigit, show b.toNat / 16 < 16 by omega])
        (by simp [hexValue_hexDigit, show b.toNat % 16 < 16 by omega]) ih

theorem Encoded.mem {keep : UInt8 → Bool} (h : Encoded keep bytes) (hb : b ∈ bytes) :
    keep b ∨ b = 37 ∨ (hexValue b).isSome := by
  induction h with
  | nil => cases hb
  | kept hkeep _ ih =>
    rcases List.mem_cons.mp hb with rfl | hb
    · exact Or.inl hkeep
    · exact ih hb
  | triplet hhi hlo _ ih =>
    simp only [List.mem_cons] at hb
    rcases hb with rfl | rfl | rfl | hb
    · exact Or.inr (Or.inl rfl)
    · exact Or.inr (Or.inr hhi)
    · exact Or.inr (Or.inr hlo)
    · exact ih hb

theorem decodeForm_encode (hpercent : keep 37 = false) (hplus : keep 43 = false) (bytes : List UInt8) :
    decodeForm (encode keep bytes) = bytes := by
  have hmap : (encode keep bytes).map (fun b => if b = 43 then 32 else b) = encode keep bytes := by
    apply (List.map_congr_left _).trans (List.map_id _)
    intro b hb
    have hne : b ≠ 43 := by
      rintro rfl
      rcases (encode_encoded bytes).mem hb with hkeep | h | h
      · simp [hplus] at hkeep
      · cases h
      · cases h
    rw [if_neg hne, id]
  rw [decodeForm, hmap, decode_encode hpercent]

/-- The delimiters of RFC 3986, general and within components: `:/?#[]@` and `!$&'()*+,;=`. -/
def delimiters : List UInt8 :=
  [58,47,63,35,91,93,64,33,36,38,39,40,41,42,43,44,59,61]

theorem visible_of_unreserved : ∀ b : UInt8, unreserved b ∨ b = 37 ∨ (hexValue b).isSome →
    33 ≤ b.toNat ∧ b.toNat ≤ 126 ∧ b ∉ delimiters := by
  apply forall_byte
  decide +kernel

/-- An encoded byte is a visible ASCII character and no delimiter. -/
theorem Encoded.visible (h : Encoded unreserved bytes) (hb : b ∈ bytes) :
    33 ≤ b.toNat ∧ b.toNat ≤ 126 ∧ b ∉ delimiters :=
  visible_of_unreserved b (h.mem hb)

end NioClient.PercentEncoding
