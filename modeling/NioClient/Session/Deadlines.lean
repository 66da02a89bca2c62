import NioClient.Check.Codec
import NioClient.Library.MachineTime
import NioClient.Session.Entry

/-! # The deadlines of an entry in machine words

`fill` adds durations to an instant, which panics past the end of the monotonic clock, and
multiplies doubles to draw its TTL. Here a panic is `none`, and the doubles are rounded.
-/
namespace NioClient.Session.Machine
open FloatingPoint MachineTime

abbrev DateTime := {dt : ℤ // Check.InChrono dt}

/-- The difference of two dates always has a whole number of seconds in 64 bits. -/
def DateTime.sub (a b : DateTime) : TimeDelta :=
  ⟨Int64.ofInt ((a.val - b.val) / 1000000000),⟨((a.val - b.val) % 1000000000).toNat, by omega⟩⟩

structure ResolvedSession where
  principal : String
  tenantId : String
  expiresAt : DateTime
deriving DecidableEq

structure ResolverConfig where
  capacity : ℕ := 10000
  l1Ttl : Duration := ⟨30,0⟩
  negTtl : Duration := ⟨2,0⟩
  staleIfError : Duration := .zero
deriving DecidableEq, Repr

/-- A factor below 1; from `1 / 2` up to 1 the doubles are the multiples of `2 ^ -53`. -/
structure Jitter where
  mantissa : ℕ
  four_fifths_le : 4 * 2 ^ 53 ≤ 5 * mantissa
  lt_one : mantissa < 2 ^ 53

def Jitter.factor (jitter : Jitter) : ℚ := jitter.mantissa / 2 ^ 53

structure Entry where
  outcome : Option ResolvedSession
  fetchedAt : Instant
  freshUntil : Instant
  staleUntil : Instant
  effectiveTtl : Duration
deriving DecidableEq

/-- `self.cfg.l1_ttl.as_secs_f64() * jitter`. -/
def ttlSecs (cfg : ResolverConfig) (jitter : Jitter) : ℚ := round 52 (cfg.l1Ttl.asSecsF64 * jitter.factor)

def effectiveTtl (cfg : ResolverConfig) (jitter : Jitter) : Option Duration :=
  Duration.fromSecsF64 (ttlSecs cfg jitter)

def wallRemaining (s : ResolvedSession) (wall : DateTime) : Duration :=
  (s.expiresAt.sub wall).toStd.getD .zero

/-- The entry which `fill` stores, unless one of its sums panics. -/
def fillEntry (cfg : ResolverConfig) (now : Instant) (jitter : Jitter) (wall : DateTime) :
    Option ResolvedSession → Option Entry
  | some s => do
    let eff ← effectiveTtl cfg jitter
    let ttl := eff.min (wallRemaining s wall)
    let freshUntil ← now.add ttl
    let staleUntil ← (← now.add ttl).add cfg.staleIfError
    return ⟨some s,now,freshUntil,staleUntil,eff⟩
  | none => do
    let freshUntil ← now.add cfg.negTtl
    let staleUntil ← now.add cfg.negTtl
    return ⟨none,now,freshUntil,staleUntil,cfg.negTtl⟩

/-- Refresh-ahead: `remaining.as_secs_f64() < 0.10 * entry.effective_ttl.as_secs_f64()`. -/
def Entry.refreshDue (e : Entry) (now : Instant) : Bool :=
  let remaining := e.freshUntil.saturatingSince now
  e.outcome.isSome && decide (remaining.asSecsF64 < round 52 (round 52 (1 / 10) * e.effectiveTtl.asSecsF64))

structure Entry.Ordered (e : Entry) : Prop where
  fetched_le_fresh : e.fetchedAt ≤ e.freshUntil
  fresh_le_stale : e.freshUntil ≤ e.staleUntil

def ttlNanos (cfg : ResolverConfig) (jitter : Jitter) : ℕ :=
  (roundTiesEven (ttlSecs cfg jitter * 1000000000)).toNat

/-- How long an entry is fresh: for what is shorter, the TTL drawn or what remains of the
session. A tombstone is fresh for the whole of the negative TTL. -/
def window (cfg : ResolverConfig) (jitter : Jitter) (wall : DateTime) : Option ResolvedSession → ℕ
  | some s => min (ttlNanos cfg jitter) (s.expiresAt.val - wall.val).toNat
  | none => cfg.negTtl.toNanos

def grace (cfg : ResolverConfig) : Option ResolvedSession → ℕ
  | some _ => cfg.staleIfError.toNanos
  | none => 0

/-- The clock does not end before the last deadline. -/
def ClockSuffices (cfg : ResolverConfig) (now : Instant) (jitter : Jitter) (wall : DateTime)
    (fetched : Option ResolvedSession) : Prop :=
  window cfg jitter wall fetched + grace cfg fetched < now.left

variable {cfg : ResolverConfig} {now : Instant} {jitter : Jitter} {wall : DateTime} {s : ResolvedSession}
  {fetched : Option ResolvedSession} {e : Entry}

theorem Jitter.factor_nonneg (jitter : Jitter) : 0 ≤ jitter.factor :=
  div_nonneg (Nat.cast_nonneg _) (by norm_num)

theorem Jitter.factor_le (jitter : Jitter) : jitter.factor ≤ (2 ^ 53 - 1) / 2 ^ 53 := by
  have hle : (jitter.mantissa : ℚ) ≤ 2 ^ 53 - 1 := by
    have hsucc : ((jitter.mantissa + 1 : ℕ) : ℚ) ≤ (2 ^ 53 : ℕ) := by exact_mod_cast jitter.lt_one
    push_cast at hsucc
    linarith
  exact div_le_div_of_nonneg_right hle (by norm_num)

theorem ttlSecs_nonneg (cfg : ResolverConfig) (jitter : Jitter) : 0 ≤ ttlSecs cfg jitter :=
  round_nonneg (mul_nonneg cfg.l1Ttl.asSecsF64_nonneg jitter.factor_nonneg)

theorem ttlSecs_le (cfg : ResolverConfig) (jitter : Jitter) : ttlSecs cfg jitter ≤ 18446744073709549568 := by
  have hfloat : IsFloat 52 (18446744073709549568 : ℚ) := ⟨2 ^ 53 - 1,11, by norm_num, by norm_num⟩
  apply round_le hfloat (mul_nonneg cfg.l1Ttl.asSecsF64_nonneg jitter.factor_nonneg)
  calc cfg.l1Ttl.asSecsF64 * jitter.factor ≤ 2 ^ 64 * ((2 ^ 53 - 1) / 2 ^ 53) :=
        mul_le_mul cfg.l1Ttl.asSecsF64_le jitter.factor_le jitter.factor_nonneg (by norm_num)
    _ = 18446744073709549568 := by norm_num

theorem effectiveTtl_total (cfg : ResolverConfig) (jitter : Jitter) :
    ∃ eff, effectiveTtl cfg jitter = some eff ∧ eff.toNanos = ttlNanos cfg jitter :=
  Duration.fromSecsF64_toNanos (ttlSecs_nonneg cfg jitter) (ttlSecs_le cfg jitter)

theorem DateTime.toNanos_sub (a b : DateTime) : (a.sub b).toNanos = a.val - b.val := by
  obtain ⟨a,ha⟩ := a
  obtain ⟨b,hb⟩ := b
  unfold Check.InChrono Check.minSecond Check.maxSecond at ha hb
  have hsecs : (Int64.ofInt ((a - b) / 1000000000)).toInt = (a - b) / 1000000000 :=
    Int64.toInt_ofInt_of_le (by omega) (by omega)
  simp only [DateTime.sub, TimeDelta.toNanos, hsecs]
  omega

theorem toNanos_wallRemaining (s : ResolvedSession) (wall : DateTime) :
    (wallRemaining s wall).toNanos = (s.expiresAt.val - wall.val).toNat := by
  rw [wallRemaining, TimeDelta.toNanos_toStd, DateTime.toNanos_sub]

def keptTtl (cfg : ResolverConfig) (jitter : Jitter) : Option ResolvedSession → ℕ
  | some _ => ttlNanos cfg jitter
  | none => cfg.negTtl.toNanos

theorem fillEntry_sums (cfg : ResolverConfig) (now : Instant) (jitter : Jitter) (wall : DateTime)
    (fetched : Option ResolvedSession) :
    ∃ eff ttl stale, eff.toNanos = keptTtl cfg jitter fetched ∧ ttl.toNanos = window cfg jitter wall fetched ∧
      stale.toNanos = grace cfg fetched ∧ fillEntry cfg now jitter wall fetched = do
        let freshUntil ← now.add ttl
        let staleUntil ← freshUntil.add stale
        return ⟨fetched,now,freshUntil,staleUntil,eff⟩ := by
  cases fetched with
  | none =>
    refine ⟨cfg.negTtl,cfg.negTtl,.zero,rfl,rfl,Duration.toNanos_zero,?_⟩
    cases h : now.add cfg.negTtl <;> simp [fillEntry, h, Instant.add_zero]
  | some s =>
    obtain ⟨eff,heff,hnanos⟩ := effectiveTtl_total cfg jitter
    refine ⟨eff,eff.min (wallRemaining s wall),cfg.staleIfError,hnanos,?_,rfl,?_⟩
    · rw [Duration.toNanos_min, hnanos, toNanos_wallRemaining, window]
    · cases h : now.add (eff.min (wallRemaining s wall)) <;> simp [fillEntry, heff, h]

theorem fillEntry_isSome (cfg : ResolverConfig) (now : Instant) (jitter : Jitter) (wall : DateTime)
    (fetched : Option ResolvedSession) :
    (fillEntry cfg now jitter wall fetched).isSome ↔ ClockSuffices cfg now jitter wall fetched := by
  obtain ⟨eff,ttl,stale,-,httl,hstale,hsums⟩ := fillEntry_sums cfg now jitter wall fetched
  have hboth : (fillEntry cfg now jitter wall fetched).isSome = ((now.add ttl).bind (·.add stale)).isSome := by
    rw [hsums]
    cases now.add ttl with
    | none => rfl
    | some fresh => cases h : fresh.add stale <;> simp [h]
  rw [hboth, Instant.add_add_isSome, httl, hstale, ClockSuffices]

theorem fillEntry_toNanos (h : fillEntry cfg now jitter wall fetched = some e) :
    e.outcome = fetched ∧ e.fetchedAt = now ∧ e.effectiveTtl.toNanos = keptTtl cfg jitter fetched ∧
      e.freshUntil.toNanos = now.toNanos + window cfg jitter wall fetched ∧
      e.staleUntil.toNanos = e.freshUntil.toNanos + grace cfg fetched := by
  obtain ⟨eff,ttl,stale,heff,httl,hstale,hsums⟩ := fillEntry_sums cfg now jitter wall fetched
  rw [hsums] at h
  obtain ⟨freshUntil,hfresh,h⟩ := Option.bind_eq_some_iff.mp h
  obtain ⟨staleUntil,hlast,h⟩ := Option.bind_eq_some_iff.mp h
  cases h
  rw [← heff, ← httl, ← hstale]
  exact ⟨rfl,rfl,rfl,Instant.toNanos_add hfresh,Instant.toNanos_add hlast⟩

theorem fillEntry_ordered (h : fillEntry cfg now jitter wall fetched = some e) : e.Ordered := by
  obtain ⟨-,hfetched,-,hfresh,hstale⟩ := fillEntry_toNanos h
  constructor
  · rw [Instant.le_iff, hfetched]
    omega
  · rw [Instant.le_iff]
    omega

/-- The deadlines of an entry are computed, and ordered, exactly when the clock suffices. -/
theorem deadlines_total (cfg : ResolverConfig) (now : Instant) (jitter : Jitter) (wall : DateTime)
    (fetched : Option ResolvedSession) :
    (∃ e, fillEntry cfg now jitter wall fetched = some e ∧ e.Ordered) ↔
      ClockSuffices cfg now jitter wall fetched := by
  rw [← fillEntry_isSome, Option.isSome_iff_exists]
  constructor
  · rintro ⟨e,h,-⟩
    exact ⟨e,h⟩
  · rintro ⟨e,h⟩
    exact ⟨e,h,fillEntry_ordered h⟩

theorem fillEntry_eq_none (h : now.left ≤ window cfg jitter wall fetched + grace cfg fetched) :
    fillEntry cfg now jitter wall fetched = none := by
  rw [← Option.not_isSome_iff_eq_none, fillEntry_isSome, ClockSuffices, not_lt]
  exact h

/-- A configured duration which was meant to be without end. -/
theorem endless_overflows :
    (¬ ∃ e, fillEntry { staleIfError := .max } ⟨1000,0⟩ ⟨9007199254740991, by decide, by decide⟩
      ⟨1700000000 * 1000000000, by decide⟩ (some ⟨"alice", "acme",⟨1700003600 * 1000000000, by decide⟩⟩) = some e ∧
        e.Ordered) ∧
    ¬ ∃ e, fillEntry { negTtl := .max } ⟨1000,0⟩ ⟨9007199254740991, by decide, by decide⟩
      ⟨1700000000 * 1000000000, by decide⟩ none = some e ∧ e.Ordered := by
  have hendless : Instant.left ⟨1000,0⟩ ≤ Duration.max.toNanos := by decide
  constructor
  · rintro ⟨e,h,-⟩
    rw [fillEntry_eq_none (by simp only [grace]; omega)] at h
    cases h
  · rintro ⟨e,h,-⟩
    rw [fillEntry_eq_none (by simp only [window, grace]; omega)] at h
    cases h

def ResolvedSession.exact (s : ResolvedSession) : Session.ResolvedSession :=
  ⟨s.principal,s.tenantId,s.expiresAt.val⟩

def ResolverConfig.exact (cfg : ResolverConfig) : Session.ResolverConfig :=
  ⟨cfg.capacity,cfg.l1Ttl.toNanos,cfg.negTtl.toNanos,cfg.staleIfError.toNanos⟩

theorem Jitter.four_fifths_le_factor (jitter : Jitter) : 4 / 5 ≤ jitter.factor := by
  have hle : (4 * 2 ^ 53 : ℚ) ≤ 5 * jitter.mantissa := by exact_mod_cast jitter.four_fifths_le
  rw [Jitter.factor, div_le_div_iff₀ (by norm_num) (by norm_num)]
  linarith

theorem Jitter.factor_lt_one (jitter : Jitter) : jitter.factor < 1 :=
  jitter.factor_le.trans_lt (by norm_num)

def Jitter.exact (jitter : Jitter) : Session.Jitter :=
  ⟨jitter.factor,jitter.four_fifths_le_factor,jitter.factor_lt_one.le⟩

/-- The entry by a clock which counts nanoseconds from `start`. -/
def Entry.since (start : Instant) (e : Entry) : Session.Entry where
  outcome := e.outcome.map (·.exact)
  fetchedAt := (e.fetchedAt.toNanos - start.toNanos).toNat
  freshUntil := (e.freshUntil.toNanos - start.toNanos).toNat
  staleUntil := (e.staleUntil.toNanos - start.toNanos).toNat
  effectiveTtl := e.effectiveTtl.toNanos

variable {start : Instant}

theorem refreshDue_since (h : start ≤ now) :
    (e.since start).refreshDue (now.toNanos - start.toNanos).toNat = e.refreshDue now := by
  rw [Instant.le_iff] at h
  have hremaining : (e.since start).freshUntil - (now.toNanos - start.toNanos).toNat =
      (e.freshUntil.saturatingSince now).toNanos := by
    rw [Instant.toNanos_saturatingSince]
    simp only [Entry.since]
    omega
  rw [Session.Entry.refreshDue, hremaining, Entry.refreshDue, Duration.asSecsF64_eq, Duration.asSecsF64_eq,
    tenthF64]
  simp [Entry.since]

theorem abs_ttlSecs_sub_le (cfg : ResolverConfig) (jitter : Jitter) :
    |ttlSecs cfg jitter - cfg.l1Ttl.toNanos / 1000000000 * jitter.factor| ≤
      cfg.l1Ttl.toNanos / 1000000000 * (8 / 2 ^ 54) := by
  have hnonneg := jitter.factor_nonneg
  have hlt := jitter.factor_lt_one
  have hsecs : (0 : ℚ) ≤ cfg.l1Ttl.toNanos / 1000000000 := by positivity
  have hdouble : |cfg.l1Ttl.asSecsF64 * jitter.factor - cfg.l1Ttl.toNanos / 1000000000 * jitter.factor| ≤
      cfg.l1Ttl.toNanos / 1000000000 * (5 / 2 ^ 54) := by
    rw [← sub_mul, abs_mul, abs_of_nonneg hnonneg, Duration.asSecsF64_eq]
    exact (mul_le_of_le_one_right (abs_nonneg _) hlt.le).trans (abs_secsF64_sub_le _)
  have hround := abs_le.mp (abs_round_sub_le_mul (p := 52) (mul_nonneg cfg.l1Ttl.asSecsF64_nonneg hnonneg))
  have hscaled := mul_le_of_le_one_right hsecs hlt.le
  rw [abs_le] at hdouble ⊢
  unfold ttlSecs
  norm_num at hdouble hround hscaled ⊢
  constructor <;> linarith

theorem le_add_one_of_cast_lt {m n : ℕ} (h : (m : ℚ) < n + 2) : m ≤ n + 1 := by
  have hcast : m < n + 2 := by exact_mod_cast h
  omega

/-- A TTL below `2 ^ 50` nanoseconds comes out within a nanosecond of the exact one. -/
theorem ttlNanos_near (jitter : Jitter) (h : cfg.l1Ttl.toNanos < 2 ^ 50) :
    ttlNanos cfg jitter ≤ Session.effectiveTtl cfg.exact jitter.exact + 1 ∧
    Session.effectiveTtl cfg.exact jitter.exact ≤ ttlNanos cfg jitter + 1 := by
  have hclose := abs_le.mp (abs_ttlSecs_sub_le cfg jitter)
  have hround := abs_le.mp (abs_roundTiesEven_sub_le (ttlSecs cfg jitter * 1000000000))
  have hnanos : (ttlNanos cfg jitter : ℚ) = roundTiesEven (ttlSecs cfg jitter * 1000000000) := by
    have hnonneg : 0 ≤ roundTiesEven (ttlSecs cfg jitter * 1000000000) :=
      roundTiesEven_nonneg (mul_nonneg (ttlSecs_nonneg cfg jitter) (by norm_num))
    exact_mod_cast Int.toNat_of_nonneg hnonneg
  have hproduct : (0 : ℚ) ≤ cfg.l1Ttl.toNanos * jitter.factor :=
    mul_nonneg (Nat.cast_nonneg _) jitter.factor_nonneg
  have hshort : (cfg.l1Ttl.toNanos : ℚ) < 1125899906842624 := by exact_mod_cast h
  have hfloor := Nat.floor_le (a := (cfg.l1Ttl.toNanos : ℚ) * jitter.factor + 1 / 2) (by linarith)
  have hceil := Nat.lt_floor_add_one ((cfg.l1Ttl.toNanos : ℚ) * jitter.factor + 1 / 2)
  have hexact : Session.effectiveTtl cfg.exact jitter.exact =
      ⌊(cfg.l1Ttl.toNanos : ℚ) * jitter.factor + 1 / 2⌋₊ := rfl
  rw [← hexact] at hfloor hceil
  norm_num at hclose
  exact ⟨le_add_one_of_cast_lt (by linarith),le_add_one_of_cast_lt (by linarith)⟩

/-- A TTL below `2 ^ 50` nanoseconds gives the entry of the exact model, up to a nanosecond. -/
theorem fillEntry_near (h : fillEntry cfg now jitter wall fetched = some e) (hstart : start ≤ now)
    (hshort : cfg.l1Ttl.toNanos < 2 ^ 50) :
    let near (m n : ℕ) : Prop := m ≤ n + 1 ∧ n ≤ m + 1
    let ideal := Session.fillEntry cfg.exact (now.toNanos - start.toNanos).toNat jitter.exact wall.val
      (fetched.map (·.exact))
    (e.since start).outcome = ideal.outcome ∧ (e.since start).fetchedAt = ideal.fetchedAt ∧
      near (e.since start).freshUntil ideal.freshUntil ∧ near (e.since start).staleUntil ideal.staleUntil ∧
      near (e.since start).effectiveTtl ideal.effectiveTtl := by
  obtain ⟨rfl,rfl,httl,hfresh,hstale⟩ := fillEntry_toNanos h
  obtain ⟨hle,hge⟩ := ttlNanos_near jitter hshort
  rw [Instant.le_iff] at hstart
  clear hshort h
  intro near ideal
  simp only [near, ideal, Entry.since]
  cases hout : e.outcome with
  | none =>
    simp only [hout, keptTtl, window, grace] at httl hfresh hstale
    simp only [Option.map_none, Session.fillEntry, ResolverConfig.exact, true_and]
    omega
  | some s =>
    simp only [hout, keptTtl, window, grace] at httl hfresh hstale
    have hgrace : cfg.exact.staleIfError = cfg.staleIfError.toNanos := rfl
    simp only [Option.map_some, Session.fillEntry, Session.wallRemaining, ResolvedSession.exact, true_and, hgrace]
    generalize Session.effectiveTtl cfg.exact jitter.exact = exact at hle hge ⊢
    generalize ttlNanos cfg jitter = drawn at hle hge httl hfresh
    generalize (s.expiresAt.val - wall.val).toNat = remaining at hfresh ⊢
    omega

theorem fillEntry_near_hour : ∃ e,
    fillEntry {} ⟨1000,0⟩ ⟨8106479329266893, by decide, by decide⟩ ⟨1700000000 * 1000000000, by decide⟩
      (some ⟨"alice", "acme",⟨1700003600 * 1000000000, by decide⟩⟩) = some e ∧
    (e.since ⟨1000,0⟩).effectiveTtl = 27000000000 ∧
    let near (m n : ℕ) : Prop := m ≤ n + 1 ∧ n ≤ m + 1
    near (e.since ⟨1000,0⟩).effectiveTtl (Session.effectiveTtl (ResolverConfig.exact {})
      (Jitter.exact ⟨8106479329266893, by decide, by decide⟩)) := by
  have hfilled : (fillEntry {} ⟨1000,0⟩ ⟨8106479329266893, by decide, by decide⟩
      ⟨1700000000 * 1000000000, by decide⟩
      (some ⟨"alice", "acme",⟨1700003600 * 1000000000, by decide⟩⟩)).map (fun e => (e.since ⟨1000,0⟩).effectiveTtl) =
      some 27000000000 := by decide +kernel
  obtain ⟨e,h,heff⟩ := Option.map_eq_some_iff.mp hfilled
  obtain ⟨-,-,-,-,hnear⟩ := fillEntry_near h (Instant.le_iff.mpr le_rfl) (by decide)
  exact ⟨e,h,heff,hnear⟩

end NioClient.Session.Machine
