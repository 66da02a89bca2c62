import Mathlib.Data.Int.Log
import Mathlib.Data.Rat.Floor
import Mathlib.Tactic.Linarith
import Mathlib.Tactic.Positivity

/-! # Rounding to floating point

A float with `p` bits of fraction is `m * 2 ^ k` where `m` has at most `p + 1` bits. Only
numbers which are not negative are rounded, and no bound is set on `k`.
-/
namespace NioClient.FloatingPoint

/-- The nearest integer, and halfway between two the even one. -/
def roundTiesEven (q : ℚ) : ℤ :=
  if Int.fract q < 1 / 2 then ⌊q⌋
  else if 1 / 2 < Int.fract q then ⌊q⌋ + 1
  else if ⌊q⌋ % 2 = 0 then ⌊q⌋
  else ⌊q⌋ + 1

/-- How far apart the floats are around `q`. -/
def ulp (p : ℕ) (q : ℚ) : ℚ := 2 ^ (Int.log 2 q - p)

def round (p : ℕ) (q : ℚ) : ℚ := roundTiesEven (q / ulp p q) * ulp p q

def IsFloat (p : ℕ) (b : ℚ) : Prop := ∃ m : ℕ, ∃ k : ℤ, m ≤ 2 ^ (p + 1) ∧ b = m * 2 ^ k

variable {p : ℕ} {q r b : ℚ} {n e : ℤ}

theorem abs_roundTiesEven_sub_le (q : ℚ) : |roundTiesEven q - q| ≤ 1 / 2 := by
  have hfloor := Int.floor_add_fract q
  have hnonneg := Int.fract_nonneg q
  have hlt := Int.fract_lt_one q
  unfold roundTiesEven
  rw [abs_le]
  split_ifs <;> push_cast <;> constructor <;> linarith

theorem roundTiesEven_le (h : q < n + 1 / 2) : roundTiesEven q ≤ n := by
  have hnear := (abs_le.mp (abs_roundTiesEven_sub_le q)).2
  have hlt : (roundTiesEven q : ℚ) < n + 1 := by linarith
  have hcast : roundTiesEven q < n + 1 := by exact_mod_cast hlt
  omega

theorem le_roundTiesEven (h : n - 1 / 2 < q) : n ≤ roundTiesEven q := by
  have hnear := (abs_le.mp (abs_roundTiesEven_sub_le q)).1
  have hlt : (n : ℚ) < roundTiesEven q + 1 := by linarith
  have hcast : n < roundTiesEven q + 1 := by exact_mod_cast hlt
  omega

theorem roundTiesEven_intCast (n : ℤ) : roundTiesEven n = n :=
  le_antisymm (roundTiesEven_le (by linarith)) (le_roundTiesEven (by linarith))

theorem roundTiesEven_nonneg (h : 0 ≤ q) : 0 ≤ roundTiesEven q :=
  le_roundTiesEven (by push_cast; linarith)

theorem roundTiesEven_mono (h : q ≤ r) : roundTiesEven q ≤ roundTiesEven r := by
  have hq := abs_le.mp (abs_roundTiesEven_sub_le q)
  have hr := abs_le.mp (abs_roundTiesEven_sub_le r)
  rcases (Int.floor_le_floor h).lt_or_eq with hlt | heq
  · -- an integer lies between
    have hsplit : (⌊q⌋ + 1 : ℤ) ≤ r := (Int.cast_le.mpr hlt).trans (Int.floor_le r)
    have hleft : roundTiesEven q ≤ ⌊q⌋ + 1 := roundTiesEven_le (by push_cast; linarith [Int.lt_floor_add_one q])
    exact hleft.trans (le_roundTiesEven (by linarith))
  · have hfract : Int.fract q ≤ Int.fract r := by
      rw [Int.fract, Int.fract, heq]
      linarith
    unfold roundTiesEven
    rw [heq]
    split_ifs <;> first | omega | linarith

theorem ulp_pos : 0 < ulp p q := zpow_pos (by norm_num) _

theorem abs_round_sub_le (p : ℕ) (q : ℚ) : |round p q - q| ≤ ulp p q / 2 := by
  have hpos : 0 < ulp p q := ulp_pos
  have hscaled : round p q - q = (roundTiesEven (q / ulp p q) - q / ulp p q) * ulp p q := by
    rw [sub_mul, div_mul_cancel₀ _ hpos.ne', round]
  rw [hscaled, abs_mul, abs_of_pos hpos]
  have hnear := mul_le_mul_of_nonneg_right (abs_roundTiesEven_sub_le (q / ulp p q)) hpos.le
  linarith

theorem ulp_eq (hlow : 2 ^ e ≤ q) (hhigh : q < 2 ^ (e + 1)) : ulp p q = 2 ^ (e - p) := by
  have hq : 0 < q := lt_of_lt_of_le (zpow_pos (by norm_num) _) hlow
  have hle : e ≤ Int.log 2 q := (Int.zpow_le_iff_le_log (by norm_num) hq).mp (by exact_mod_cast hlow)
  have hlt : Int.log 2 q < e + 1 := (Int.lt_zpow_iff_log_lt (by norm_num) hq).mp (by exact_mod_cast hhigh)
  rw [ulp, le_antisymm (Int.lt_add_one_iff.mp hlt) hle]

theorem two_zpow_log_le (hq : 0 < q) : (2 : ℚ) ^ Int.log 2 q ≤ q := by
  exact_mod_cast Int.zpow_log_le_self (b := 2) (by norm_num) hq

theorem lt_two_zpow_log (q : ℚ) : q < 2 ^ (Int.log 2 q + 1) := by
  exact_mod_cast Int.lt_zpow_succ_log_self (b := 2) (by norm_num) q

theorem two_pow_mul_ulp (p : ℕ) (q : ℚ) : 2 ^ p * ulp p q = 2 ^ Int.log 2 q := by
  rw [ulp, ← zpow_natCast, ← zpow_add₀ (by norm_num), add_sub_cancel]

theorem round_nonneg (h : 0 ≤ q) : 0 ≤ round p q := by
  have hpos : 0 < ulp p q := ulp_pos
  have hint : (0 : ℚ) ≤ roundTiesEven (q / ulp p q) := by
    exact_mod_cast roundTiesEven_nonneg (div_nonneg h hpos.le)
  exact mul_nonneg hint hpos.le

@[simp] theorem round_zero : round p 0 = 0 := by
  have hzero := roundTiesEven_intCast 0
  rw [Int.cast_zero] at hzero
  rw [round, zero_div, hzero, Int.cast_zero, zero_mul]

theorem le_round_two_zpow (hq : 0 < q) : 2 ^ Int.log 2 q ≤ round p q := by
  have hpos : 0 < ulp p q := ulp_pos
  have hscaled : ((2 ^ p : ℤ) : ℚ) ≤ q / ulp p q := by
    rw [le_div_iff₀ hpos, Int.cast_pow, Int.cast_ofNat, two_pow_mul_ulp]
    exact two_zpow_log_le hq
  have hint : (2 ^ p : ℤ) ≤ roundTiesEven (q / ulp p q) := le_roundTiesEven (by linarith)
  rw [← two_pow_mul_ulp p q, round]
  exact mul_le_mul_of_nonneg_right (by exact_mod_cast hint) hpos.le

theorem round_pos (hq : 0 < q) : 0 < round p q :=
  (zpow_pos (by norm_num) _).trans_le (le_round_two_zpow hq)

/-- The relative error of rounding. -/
theorem abs_round_sub_le_mul (hq : 0 ≤ q) : |round p q - q| ≤ q / 2 ^ (p + 1) := by
  rcases hq.eq_or_lt with rfl | hq
  · rw [round_zero, sub_zero, abs_zero, zero_div]
  · have hnear := abs_round_sub_le p q
    have hscale := two_pow_mul_ulp p q
    have hlog := two_zpow_log_le hq
    have hpow : (0 : ℚ) < 2 ^ p := by positivity
    rw [pow_succ, le_div_iff₀ (by positivity)]
    calc |round p q - q| * (2 ^ p * 2) ≤ ulp p q / 2 * (2 ^ p * 2) :=
          mul_le_mul_of_nonneg_right hnear (by positivity)
      _ = 2 ^ p * ulp p q := by ring
      _ ≤ q := hscale.trans_le hlog

theorem round_le_multiple (h : q < (n + 1 / 2) * ulp p q) : round p q ≤ n * ulp p q := by
  have hpos : 0 < ulp p q := ulp_pos
  have hint : (roundTiesEven (q / ulp p q) : ℚ) ≤ n := by
    exact_mod_cast roundTiesEven_le ((div_lt_iff₀ hpos).mpr h)
  exact mul_le_mul_of_nonneg_right hint hpos.le

theorem IsFloat.two_zpow (e : ℤ) : IsFloat p (2 ^ e) := ⟨1,e,Nat.one_le_two_pow, by norm_num⟩

/-- The floats from `q` on are multiples of its ulp. -/
theorem IsFloat.multiple (hb : IsFloat p b) (hq : 0 < q) (h : q ≤ b) : ∃ n : ℤ, b = n * ulp p q := by
  obtain ⟨m,k,hm,rfl⟩ := hb
  have hlog : (2 : ℚ) ^ Int.log 2 q ≤ q := by
    exact_mod_cast Int.zpow_log_le_self (b := 2) (by norm_num) hq
  rcases lt_or_ge k (Int.log 2 q - p) with hlt | hge
  · -- then `b` reaches no further than the power of 2 at or below `q`
    have hle : (m : ℚ) * 2 ^ k ≤ 2 ^ Int.log 2 q := calc
      (m : ℚ) * 2 ^ k ≤ 2 ^ (p + 1) * 2 ^ k :=
        mul_le_mul_of_nonneg_right (by exact_mod_cast hm) (zpow_pos (by norm_num) _).le
      _ = 2 ^ (((p + 1 : ℕ) : ℤ) + k) := by rw [← zpow_natCast, ← zpow_add₀ (by norm_num)]
      _ ≤ 2 ^ Int.log 2 q := zpow_le_zpow_right₀ (by norm_num) (by omega)
    refine ⟨2 ^ p,?_⟩
    rw [le_antisymm hle (hlog.trans h), ulp, Int.cast_pow, ← zpow_natCast, Int.cast_ofNat,
      ← zpow_add₀ (by norm_num), add_sub_cancel]
  · refine ⟨m * 2 ^ (k - (Int.log 2 q - p)).toNat,?_⟩
    push_cast
    rw [ulp, ← zpow_natCast, Int.toNat_of_nonneg (by omega), mul_assoc, ← zpow_add₀ (by norm_num),
      sub_add_cancel]

theorem round_le (hb : IsFloat p b) (hq : 0 ≤ q) (h : q ≤ b) : round p q ≤ b := by
  rcases hq.eq_or_lt with rfl | hq
  · rwa [round_zero]
  · obtain ⟨n,rfl⟩ := hb.multiple hq h
    have hpos : 0 < ulp p q := ulp_pos
    exact round_le_multiple (by linarith)

theorem IsFloat.round_eq (hb : IsFloat p b) (h : 0 ≤ b) : round p b = b := by
  rcases h.eq_or_lt with rfl | h
  · exact round_zero
  · obtain ⟨n,hn⟩ := hb.multiple h le_rfl
    have hquot : b / ulp p b = n := (div_eq_iff ulp_pos.ne').mpr hn
    rw [round, hquot, roundTiesEven_intCast, ← hn]

theorem isFloat_round (hq : 0 ≤ q) : IsFloat p (round p q) := by
  rcases hq.eq_or_lt with rfl | hq
  · exact ⟨0,0,Nat.zero_le _, by simp⟩
  · have hpos : 0 < ulp p q := ulp_pos
    have hnonneg : 0 ≤ roundTiesEven (q / ulp p q) := roundTiesEven_nonneg (div_nonneg hq.le hpos.le)
    have hle : roundTiesEven (q / ulp p q) ≤ 2 ^ (p + 1) := by
      apply roundTiesEven_le
      have hlt : q / ulp p q < 2 ^ (p + 1) := by
        rw [div_lt_iff₀ hpos, pow_succ, mul_right_comm, two_pow_mul_ulp, ← zpow_add_one₀ (by norm_num)]
        exact lt_two_zpow_log q
      push_cast
      linarith
    have hcast : ((roundTiesEven (q / ulp p q)).toNat : ℚ) = roundTiesEven (q / ulp p q) := by
      exact_mod_cast Int.toNat_of_nonneg hnonneg
    refine ⟨(roundTiesEven (q / ulp p q)).toNat,Int.log 2 q - p,?_, by rw [hcast, round, ulp]⟩
    exact Int.toNat_le.mpr (by exact_mod_cast hle)

@[simp] theorem round_round (hq : 0 ≤ q) : round p (round p q) = round p q :=
  (isFloat_round hq).round_eq (round_nonneg hq)

theorem round_mono (hq : 0 ≤ q) (h : q ≤ r) : round p q ≤ round p r := by
  rcases hq.eq_or_lt with rfl | hq
  · rw [round_zero]
    exact round_nonneg h
  · have hr := hq.trans_le h
    rcases (Int.log_mono_right (b := 2) hq h).lt_or_eq with hlt | heq
    · -- a power of 2 lies between
      have hpow : (2 : ℚ) ^ (Int.log 2 q + 1) ≤ 2 ^ Int.log 2 r := zpow_le_zpow_right₀ (by norm_num) (by omega)
      have hleft : round p q ≤ 2 ^ (Int.log 2 q + 1) := round_le (.two_zpow _) hq.le (lt_two_zpow_log q).le
      exact hleft.trans (hpow.trans (le_round_two_zpow hr))
    · have hulp : ulp p q = ulp p r := by rw [ulp, ulp, heq]
      have hpos : 0 < ulp p r := ulp_pos
      rw [round, round, hulp]
      exact mul_le_mul_of_nonneg_right (by exact_mod_cast roundTiesEven_mono (div_le_div_of_nonneg_right h hpos.le))
        hpos.le

/-- What exceeds a float by less than half an ulp is rounded down to it. -/
theorem IsFloat.round_add_le (hb : IsFloat p b) (hpos : 0 < b) (hq : 0 ≤ q) (h : q < ulp p b / 2) :
    round p (b + q) ≤ b := by
  obtain ⟨n,hn⟩ := hb.multiple hpos le_rfl
  have hulp : 0 < ulp p b := ulp_pos
  -- a float below the next power of 2 is a whole ulp below it
  have hnext : b + ulp p b ≤ 2 ^ (Int.log 2 b + 1) := by
    have htop : (2 : ℚ) ^ (Int.log 2 b + 1) = 2 ^ (p + 1) * ulp p b := by
      rw [pow_succ, mul_right_comm, two_pow_mul_ulp, zpow_add_one₀ (by norm_num)]
    have hlt : (n : ℚ) * ulp p b < 2 ^ (p + 1) * ulp p b := by
      rw [← hn, ← htop]
      exact lt_two_zpow_log b
    have hint : n + 1 ≤ 2 ^ (p + 1) := by exact_mod_cast lt_of_mul_lt_mul_right hlt hulp.le
    calc b + ulp p b = ((n + 1 : ℤ) : ℚ) * ulp p b := by rw [Int.cast_add, Int.cast_one, add_mul, ← hn, one_mul]
      _ ≤ 2 ^ (p + 1) * ulp p b := mul_le_mul_of_nonneg_right (by exact_mod_cast hint) hulp.le
      _ = 2 ^ (Int.log 2 b + 1) := htop.symm
  have hsame : ulp p (b + q) = ulp p b :=
    ulp_eq ((two_zpow_log_le hpos).trans (le_add_of_nonneg_right hq)) (by linarith)
  have hbound : round p (b + q) ≤ n * ulp p (b + q) := by
    apply round_le_multiple
    rw [add_mul, hsame, ← hn]
    linarith
  rwa [hsame, ← hn] at hbound

/-- What exceeds a power of 2 by less than half an ulp is rounded down to it. -/
theorem round_le_two_zpow (hq : 0 ≤ q) (h : q < 2 ^ e + 2 ^ (e - p) / 2) : round p q ≤ 2 ^ e := by
  rcases le_or_gt q (2 ^ e) with hle | hgt
  · exact round_le (.two_zpow e) hq hle
  · have hulp : ulp p (2 ^ e) = 2 ^ (e - p) := ulp_eq le_rfl (zpow_lt_zpow_right₀ (by norm_num) (by omega))
    have hexcess : q - 2 ^ e < ulp p (2 ^ e) / 2 := by
      rw [hulp]
      linarith
    have hbound := (IsFloat.two_zpow e).round_add_le (zpow_pos (by norm_num) e) (sub_nonneg.mpr hgt.le) hexcess
    rwa [add_sub_cancel] at hbound

end NioClient.FloatingPoint
