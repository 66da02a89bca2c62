import Mathlib.Data.Int.Order.Basic
import Mathlib.Order.MinMax
import Mathlib.Tactic.Common
import NioClient.Library.FloatingPoint

/-! # Times in machine words

Seconds are 64 bits wide, and the nanoseconds come to less than a second. A `Duration` is
unsigned; an `Instant` of the monotonic clock and a `TimeDelta` between two dates are signed.
What the words stand for is a number of nanoseconds.
-/
namespace NioClient.MachineTime
open FloatingPoint

structure Duration where
  secs : UInt64
  nanos : Fin 1000000000
deriving DecidableEq, Repr

structure Instant where
  secs : Int64
  nanos : Fin 1000000000
deriving DecidableEq, Repr

structure TimeDelta where
  secs : Int64
  nanos : Fin 1000000000
deriving DecidableEq, Repr

def Duration.toNanos (d : Duration) : ℕ := d.secs.toNat * 1000000000 + d.nanos

def Instant.toNanos (t : Instant) : ℤ := t.secs.toInt * 1000000000 + t.nanos

def TimeDelta.toNanos (δ : TimeDelta) : ℤ := δ.secs.toInt * 1000000000 + δ.nanos

def Duration.zero : Duration := ⟨0,0⟩

def Duration.max : Duration := ⟨18446744073709551615,999999999⟩

instance : LE Instant := ⟨fun t u => t.secs < u.secs ∨ t.secs = u.secs ∧ t.nanos ≤ u.nanos⟩

def Instant.left (t : Instant) : ℤ := 9223372036854775808 * 1000000000 - t.toNanos

/-- Durations are ordered by their seconds first. -/
def Duration.min (a b : Duration) : Duration :=
  if a.secs < b.secs ∨ a.secs = b.secs ∧ a.nanos ≤ b.nanos then a else b

def Duration.ofNanos (n : ℕ) : Option Duration :=
  if n < 18446744073709551616 * 1000000000 then
    some ⟨UInt64.ofNat (n / 1000000000),⟨n % 1000000000, Nat.mod_lt _ (by decide)⟩⟩
  else none

def checkedSecs (n : ℤ) : Option Int64 :=
  if -9223372036854775808 ≤ n ∧ n < 9223372036854775808 then some (Int64.ofInt n) else none

/-- The seconds are added first, and then what the nanoseconds carry; `none` is a panic. -/
def Instant.add (t : Instant) (d : Duration) : Option Instant := do
  let secs ← checkedSecs (t.secs.toInt + d.secs.toNat)
  if h : t.nanos.val + d.nanos.val < 1000000000 then
    return ⟨secs,⟨t.nanos.val + d.nanos.val,h⟩⟩
  else do
    let carried ← checkedSecs (secs.toInt + 1)
    return ⟨carried,⟨t.nanos.val + d.nanos.val - 1000000000,by omega⟩⟩

/-- `zero` where `u` is later. -/
def Instant.saturatingSince (t u : Instant) : Duration :=
  (Duration.ofNanos (t.toNanos - u.toNanos).toNat).getD .zero

/-- A double has 52 bits of fraction; the sum and the quotient are rounded as well. -/
def secsF64 (n : ℕ) : ℚ :=
  round 52 (round 52 (n / 1000000000 : ℕ) + round 52 ((n % 1000000000 : ℕ) / 1000000000))

def Duration.asSecsF64 (d : Duration) : ℚ := round 52 (round 52 d.secs.toNat + round 52 (d.nanos / 1000000000))

/-- `none` is a panic. -/
def Duration.fromSecsF64 (q : ℚ) : Option Duration :=
  if q < 0 then none else ofNanos (roundTiesEven (q * 1000000000)).toNat

/-- A negative difference is no duration. -/
def TimeDelta.toStd (δ : TimeDelta) : Option Duration :=
  if δ.secs < 0 then none else some ⟨δ.secs.toUInt64,δ.nanos⟩

variable {a b d : Duration} {t u : Instant} {δ : TimeDelta} {n : ℕ}

@[simp] theorem Duration.toNanos_zero : Duration.zero.toNanos = 0 := by decide

theorem Duration.le_iff : a.secs < b.secs ∨ a.secs = b.secs ∧ a.nanos ≤ b.nanos ↔ a.toNanos ≤ b.toNanos := by
  have ha := a.nanos.isLt
  have hb := b.nanos.isLt
  rw [UInt64.lt_iff_toNat_lt, ← UInt64.toNat_inj, Fin.le_def, toNanos, toNanos]
  omega

theorem Duration.toNanos_min : (a.min b).toNanos = Min.min a.toNanos b.toNanos := by
  unfold Duration.min
  split
  · rename_i h
    rw [Nat.min_eq_left (le_iff.mp h)]
  · rename_i h
    rw [le_iff, not_le] at h
    rw [Nat.min_eq_right h.le]

theorem Duration.ofNanos_toNanos (h : n < 18446744073709551616 * 1000000000) :
    ∃ d, ofNanos n = some d ∧ d.toNanos = n := by
  refine ⟨_,if_pos h,?_⟩
  have hsecs : (UInt64.ofNat (n / 1000000000)).toNat = n / 1000000000 := by
    apply UInt64.toNat_ofNat_of_lt'
    unfold UInt64.size
    omega
  simp only [toNanos, hsecs]
  omega

theorem checkedSecs_eq_some {n : ℤ} {w : Int64} : checkedSecs n = some w ↔ w.toInt = n := by
  unfold checkedSecs
  split
  · rename_i hrange
    rw [Option.some.injEq, ← Int64.toInt_inj, Int64.toInt_ofInt_of_le hrange.1 hrange.2, eq_comm]
  · rename_i hrange
    have hle := w.le_toInt
    have hlt := w.toInt_lt
    constructor
    · intro h
      cases h
    · omega

theorem checkedSecs_isSome {n : ℤ} :
    (checkedSecs n).isSome ↔ -9223372036854775808 ≤ n ∧ n < 9223372036854775808 := by
  unfold checkedSecs
  split <;> simp_all

theorem Instant.toNanos_add (h : t.add d = some u) : u.toNanos = t.toNanos + d.toNanos := by
  simp only [add, Option.bind_eq_bind, Option.bind_eq_some_iff] at h
  obtain ⟨secs,hsecs,h⟩ := h
  rw [checkedSecs_eq_some] at hsecs
  split at h
  · cases h
    simp only [toNanos, Duration.toNanos, hsecs]
    omega
  · obtain ⟨carried,hcarried,h⟩ := Option.bind_eq_some_iff.mp h
    rw [checkedSecs_eq_some] at hcarried
    cases h
    simp only [toNanos, Duration.toNanos, hcarried, hsecs]
    omega

/-- A sum panics when the clock does not go so far. -/
theorem Instant.add_isSome : (t.add d).isSome ↔ d.toNanos < t.left := by
  have hle := t.secs.le_toInt
  have ht := t.nanos.isLt
  have hd := d.nanos.isLt
  unfold left toNanos Duration.toNanos
  cases hsecs : checkedSecs (t.secs.toInt + d.secs.toNat) with
  | none =>
    have hrange : ¬ (checkedSecs (t.secs.toInt + d.secs.toNat)).isSome := by simp [hsecs]
    rw [checkedSecs_isSome] at hrange
    simp only [add, hsecs, Option.bind_eq_bind, Option.bind_none, Option.isSome_none, Bool.false_eq_true,
      false_iff]
    omega
  | some secs =>
    have hrange : (checkedSecs (t.secs.toInt + d.secs.toNat)).isSome := by simp [hsecs]
    rw [checkedSecs_isSome] at hrange
    have hexact := checkedSecs_eq_some.mp hsecs
    simp only [add, hsecs, Option.bind_eq_bind, Option.bind_some]
    split
    · simp only [pure, Option.isSome_some, true_iff]
      omega
    · have hcarry : (checkedSecs (secs.toInt + 1)).isSome ↔ secs.toInt + 1 < 9223372036854775808 := by
        rw [checkedSecs_isSome]
        omega
      cases hcarried : checkedSecs (secs.toInt + 1) with
      | none =>
        simp only [hcarried, Option.isSome_none, Bool.false_eq_true, false_iff] at hcarry
        simp only [Option.bind_none, Option.isSome_none, Bool.false_eq_true, false_iff]
        omega
      | some carried =>
        simp only [hcarried, Option.isSome_some, true_iff] at hcarry
        simp only [pure, Option.bind_some, Option.isSome_some, true_iff]
        omega

theorem Instant.add_zero (t : Instant) : t.add .zero = some t := by
  have hsecs : checkedSecs (t.secs.toInt + Duration.zero.secs.toNat) = some t.secs :=
    checkedSecs_eq_some.mpr (by simp [Duration.zero])
  have hnanos : t.nanos.val + Duration.zero.nanos.val < 1000000000 := t.nanos.isLt
  simp only [add, hsecs, Option.bind_eq_bind, Option.bind_some, dif_pos hnanos]
  rfl

theorem Instant.add_add_isSome : ((t.add a).bind (·.add b)).isSome ↔ a.toNanos + b.toNanos < t.left := by
  have hfirst : (t.add a).isSome ↔ a.toNanos < t.left := add_isSome
  cases h : t.add a with
  | none =>
    simp only [h, Option.isSome_none, Bool.false_eq_true, false_iff] at hfirst
    simp only [Option.bind_none, Option.isSome_none, Bool.false_eq_true, false_iff]
    omega
  | some u =>
    have hsum := toNanos_add h
    rw [Option.bind_some, add_isSome, left, left, hsum]
    omega

theorem Instant.le_iff : t ≤ u ↔ t.toNanos ≤ u.toNanos := by
  have ht := t.nanos.isLt
  have hu := u.nanos.isLt
  change t.secs < u.secs ∨ t.secs = u.secs ∧ t.nanos ≤ u.nanos ↔ _
  rw [Int64.lt_iff_toInt_lt, ← Int64.toInt_inj, Fin.le_def, toNanos, toNanos]
  omega

theorem Instant.toNanos_saturatingSince (t u : Instant) :
    (t.saturatingSince u).toNanos = (t.toNanos - u.toNanos).toNat := by
  have ht := t.secs.toInt_lt
  have hu := u.secs.le_toInt
  have hnanos := t.nanos.isLt
  have hfits : (t.toNanos - u.toNanos).toNat < 18446744073709551616 * 1000000000 := by
    unfold toNanos
    omega
  obtain ⟨d,hd,hexact⟩ := Duration.ofNanos_toNanos hfits
  rw [saturatingSince, hd, Option.getD_some, hexact]

theorem TimeDelta.toNanos_toStd : (δ.toStd.getD Duration.zero).toNanos = δ.toNanos.toNat := by
  have hnanos := δ.nanos.isLt
  unfold toStd
  split
  · rename_i h
    rw [Int64.lt_iff_toInt_lt, Int64.toInt_zero] at h
    rw [Option.getD_none, Duration.toNanos_zero, toNanos]
    omega
  · rename_i h
    have hsecs : (δ.secs.toUInt64.toNat : ℤ) = δ.secs.toInt := by
      rw [Int64.not_lt] at h
      rw [Int64.toNat_toUInt64_of_le h, ← Int64.toNat_toInt]
      rw [Int64.le_iff_toInt_le, Int64.toInt_zero] at h
      exact Int.toNat_of_nonneg h
    simp only [Option.getD_some, Duration.toNanos, toNanos]
    omega

theorem Duration.asSecsF64_eq (d : Duration) : d.asSecsF64 = secsF64 d.toNanos := by
  have hnanos := d.nanos.isLt
  have hdiv : d.toNanos / 1000000000 = d.secs.toNat := by
    unfold toNanos
    omega
  have hmod : d.toNanos % 1000000000 = d.nanos := by
    unfold toNanos
    omega
  rw [asSecsF64, secsF64, hdiv, hmod]

theorem part_nonneg (n : ℕ) : (0 : ℚ) ≤ (n % 1000000000 : ℕ) / 1000000000 := by positivity

theorem part_lt (n : ℕ) : ((n % 1000000000 : ℕ) : ℚ) / 1000000000 ≤ 2 ^ (0 : ℤ) - 2 ^ (-(30 : ℤ)) := by
  have hle : ((n % 1000000000 : ℕ) : ℚ) ≤ 999999999 := by
    exact_mod_cast Nat.le_of_lt_succ (Nat.mod_lt n (by norm_num))
  rw [div_le_iff₀ (by norm_num)]
  norm_num
  linarith

theorem whole_add_part (n : ℕ) :
    ((n / 1000000000 : ℕ) : ℚ) + (n % 1000000000 : ℕ) / 1000000000 = n / 1000000000 := by
  rw [eq_div_iff (by norm_num), add_mul, div_mul_cancel₀ _ (by norm_num)]
  exact_mod_cast Nat.div_add_mod' n 1000000000

theorem round_part_nonneg (n : ℕ) : 0 ≤ round 52 (((n % 1000000000 : ℕ) : ℚ) / 1000000000) :=
  round_nonneg (part_nonneg n)

theorem round_part_lt (n : ℕ) : round 52 (((n % 1000000000 : ℕ) : ℚ) / 1000000000) < 1 := by
  have hfloat : IsFloat 52 (2 ^ (0 : ℤ) - 2 ^ (-(30 : ℤ)) : ℚ) := ⟨2 ^ 30 - 1,-30, by norm_num, by norm_num⟩
  exact (round_le hfloat (part_nonneg n) (part_lt n)).trans_lt (by norm_num)

theorem secsF64_nonneg (n : ℕ) : 0 ≤ secsF64 n :=
  round_nonneg (add_nonneg (round_nonneg (Nat.cast_nonneg _)) (round_part_nonneg n))

@[simp] theorem secsF64_zero : secsF64 0 = 0 := by simp [secsF64]

/-- From the second `2 ^ 53` on the nanoseconds are lost. -/
theorem secsF64_le_succ (n : ℕ) : secsF64 n ≤ round 52 (n / 1000000000 + 1 : ℕ) := by
  have hpart := round_part_lt n
  rcases Nat.lt_or_ge (n / 1000000000) (2 ^ 53) with hlt | hge
  · have hwhole : round 52 ((n / 1000000000 : ℕ) : ℚ) = (n / 1000000000 : ℕ) :=
      IsFloat.round_eq ⟨_,0,hlt.le, by simp⟩ (Nat.cast_nonneg _)
    have hnext : IsFloat 52 ((n / 1000000000 + 1 : ℕ) : ℚ) := ⟨_,0,hlt, by simp⟩
    rw [hnext.round_eq (Nat.cast_nonneg _), secsF64, hwhole]
    refine round_le hnext (add_nonneg (Nat.cast_nonneg _) (round_part_nonneg n)) ?_
    push_cast
    linarith
  · have hpow : ((2 : ℚ) ^ (53 : ℤ)) ≤ (n / 1000000000 : ℕ) := by exact_mod_cast hge
    have hfloat : IsFloat 52 (round 52 ((n / 1000000000 : ℕ) : ℚ)) := isFloat_round (Nat.cast_nonneg _)
    have hlow : (2 : ℚ) ^ (53 : ℤ) ≤ round 52 ((n / 1000000000 : ℕ) : ℚ) :=
      ((IsFloat.two_zpow 53).round_eq (by norm_num)).symm.trans_le (round_mono (by norm_num) hpow)
    have hpos : 0 < round 52 ((n / 1000000000 : ℕ) : ℚ) := (by norm_num : (0 : ℚ) < 2 ^ (53 : ℤ)).trans_le hlow
    have hulp : (2 : ℚ) ≤ ulp 52 (round 52 ((n / 1000000000 : ℕ) : ℚ)) := by
      have hlog : (53 : ℤ) ≤ Int.log 2 (round 52 ((n / 1000000000 : ℕ) : ℚ)) :=
        (Int.zpow_le_iff_le_log (by norm_num) hpos).mp (by exact_mod_cast hlow)
      calc (2 : ℚ) = 2 ^ (1 : ℤ) := by norm_num
        _ ≤ ulp 52 (round 52 ((n / 1000000000 : ℕ) : ℚ)) := zpow_le_zpow_right₀ (by norm_num) (by push_cast; omega)
    have hdropped : secsF64 n ≤ round 52 ((n / 1000000000 : ℕ) : ℚ) :=
      hfloat.round_add_le hpos (round_part_nonneg n) (by linarith)
    exact hdropped.trans (round_mono (Nat.cast_nonneg _) (by push_cast; linarith))

theorem secsF64_mono {m n : ℕ} (h : m ≤ n) : secsF64 m ≤ secsF64 n := by
  have hwhole (k : ℕ) : round 52 ((k / 1000000000 : ℕ) : ℚ) ≤ secsF64 k := by
    rw [← round_round (Nat.cast_nonneg _)]
    exact round_mono (round_nonneg (Nat.cast_nonneg _)) (le_add_of_nonneg_right (round_part_nonneg k))
  rcases (Nat.div_le_div_right (c := 1000000000) h).lt_or_eq with hlt | heq
  · calc secsF64 m ≤ round 52 ((m / 1000000000 + 1 : ℕ) : ℚ) := secsF64_le_succ m
      _ ≤ round 52 ((n / 1000000000 : ℕ) : ℚ) := round_mono (Nat.cast_nonneg _) (by exact_mod_cast hlt)
      _ ≤ secsF64 n := hwhole n
  · have hmod : m % 1000000000 ≤ n % 1000000000 := by omega
    have hpart : ((m % 1000000000 : ℕ) : ℚ) / 1000000000 ≤ (n % 1000000000 : ℕ) / 1000000000 :=
      div_le_div_of_nonneg_right (by exact_mod_cast hmod) (by norm_num)
    rw [secsF64, secsF64, heq]
    refine round_mono (add_nonneg (round_nonneg (Nat.cast_nonneg _)) (round_part_nonneg m)) ?_
    exact add_le_add_right (round_mono (part_nonneg m) hpart) _

theorem abs_secsF64_sub_le (n : ℕ) : |secsF64 n - n / 1000000000| ≤ n / 1000000000 * (5 / 2 ^ 54) := by
  have hwhole := abs_le.mp (abs_round_sub_le_mul (p := 52) (q := ((n / 1000000000 : ℕ) : ℚ)) (Nat.cast_nonneg _))
  have hpart := abs_le.mp (abs_round_sub_le_mul (p := 52) (part_nonneg n))
  have hsum := abs_le.mp (abs_round_sub_le_mul (p := 52)
    (add_nonneg (round_nonneg (p := 52) (Nat.cast_nonneg (n / 1000000000))) (round_part_nonneg n)))
  have hexact := whole_add_part n
  have hnonneg : (0 : ℚ) ≤ (n / 1000000000 : ℕ) := Nat.cast_nonneg _
  have hpart' := part_nonneg n
  rw [abs_le, ← hexact]
  unfold secsF64
  norm_num at hwhole hpart hsum ⊢
  constructor <;> linarith

theorem Duration.asSecsF64_nonneg (d : Duration) : 0 ≤ d.asSecsF64 := d.asSecsF64_eq ▸ secsF64_nonneg _

theorem Duration.asSecsF64_le (d : Duration) : d.asSecsF64 ≤ 2 ^ 64 := by
  have hsecs : round 52 (d.secs.toNat : ℚ) ≤ 2 ^ (64 : ℤ) := by
    have hlt : (d.secs.toNat : ℚ) ≤ 2 ^ (64 : ℤ) := by
      exact_mod_cast d.secs.toNat_lt.le
    exact round_le (.two_zpow 64) (Nat.cast_nonneg _) hlt
  have hone : (d.nanos : ℚ) / 1000000000 ≤ 2 ^ (0 : ℤ) := by
    rw [zpow_zero, div_le_one (by norm_num)]
    exact_mod_cast d.nanos.isLt.le
  have hnanos : round 52 ((d.nanos : ℚ) / 1000000000) ≤ 2 ^ (0 : ℤ) :=
    round_le (.two_zpow 0) (by positivity) hone
  have hsum : round 52 (d.secs.toNat : ℚ) + round 52 ((d.nanos : ℚ) / 1000000000) <
      2 ^ (64 : ℤ) + 2 ^ ((64 : ℤ) - (52 : ℕ)) / 2 := by
    norm_num at hsecs hnanos ⊢
    linarith
  exact_mod_cast round_le_two_zpow (add_nonneg (round_nonneg (Nat.cast_nonneg _)) (round_nonneg (by positivity))) hsum

/-- From the last double below `2 ^ 64` down. -/
theorem Duration.fromSecsF64_toNanos {q : ℚ} (hq : 0 ≤ q) (h : q ≤ 18446744073709549568) :
    ∃ d, fromSecsF64 q = some d ∧ d.toNanos = (roundTiesEven (q * 1000000000)).toNat := by
  have hle : roundTiesEven (q * 1000000000) ≤ 18446744073709549568 * 1000000000 := by
    apply roundTiesEven_le
    push_cast
    linarith
  rw [fromSecsF64, if_neg hq.not_gt]
  exact ofNanos_toNanos (by omega)

end NioClient.MachineTime
