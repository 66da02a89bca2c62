import Mathlib.Data.Rat.Floor
import Mathlib.Algebra.Order.Floor.Semiring
import Mathlib.Tactic.Linarith
import Mathlib.Tactic.NormNum
import NioClient.Library.MachineTime

/-! # Cache entries, their deadlines, and the decisions taken on them

An `Instant` and a `Duration` are a number of nanoseconds of the monotonic clock
in `ℕ`; a `DateTime` is the nanoseconds of the wall clock since the epoch in `ℤ`.
The refresh-ahead test compares doubles, as the code does; the product of
`effective_ttl` is taken exactly.
-/
namespace NioClient.Session
open FloatingPoint MachineTime

abbrev TokenHash := String

def secs (n : ℕ) : ℕ := n * 1000000000

def RESOLVE_TIMEOUT : ℕ := secs 5

structure ResolvedSession where
  principal : String
  tenantId : String
  expiresAt : ℤ
deriving DecidableEq, Repr

inductive ResolveError where
  | transport (msg : String)
  | backend (msg : String)
deriving DecidableEq, Repr

def ResolveError.isTransport : ResolveError → Bool
  | .transport _ => true
  | .backend _ => false

/-- `Ok(None)` means the token is unknown. -/
abbrev ResolveResult := Except ResolveError (Option ResolvedSession)

structure ResolverConfig where
  capacity : ℕ := 10000
  l1Ttl : ℕ := secs 30
  negTtl : ℕ := secs 2
  staleIfError : ℕ := 0
deriving DecidableEq, Repr

/-- One cache slot; `outcome = none` is a negative tombstone. -/
structure Entry where
  outcome : Option ResolvedSession
  fetchedAt : ℕ
  freshUntil : ℕ
  staleUntil : ℕ
  effectiveTtl : ℕ
deriving DecidableEq, Repr

structure Jitter where
  factor : ℚ
  four_fifths_le : 4 / 5 ≤ factor
  le_one : factor ≤ 1
deriving DecidableEq

def Jitter.one : Jitter := ⟨1, by norm_num, le_rfl⟩

/-- `Duration::from_secs_f64` rounds to the nearest nanosecond. -/
def effectiveTtl (cfg : ResolverConfig) (jitter : Jitter) : ℕ :=
  ⌊(cfg.l1Ttl : ℚ) * jitter.factor + 1 / 2⌋₊

theorem effectiveTtl_le (cfg : ResolverConfig) (jitter : Jitter) :
    effectiveTtl cfg jitter ≤ cfg.l1Ttl := by
  have hprod : (cfg.l1Ttl : ℚ) * jitter.factor ≤ cfg.l1Ttl :=
    mul_le_of_le_one_right (Nat.cast_nonneg _) jitter.le_one
  have hlt : ⌊(cfg.l1Ttl : ℚ) * jitter.factor + 1 / 2⌋₊ < cfg.l1Ttl + 1 := by
    apply (Nat.floor_lt' (Nat.succ_ne_zero _)).mpr
    push_cast
    linarith
  exact Nat.lt_succ_iff.mp hlt

/-- `(s.expires_at - Utc::now()).to_std().unwrap_or(Duration::ZERO)`. -/
def wallRemaining (s : ResolvedSession) (wall : ℤ) : ℕ := (s.expiresAt - wall).toNat

/-- The entry which `fill` stores for a fetched outcome, from the clocks it
reads and the jitter it draws after the fetch has returned. -/
def fillEntry (cfg : ResolverConfig) (now : ℕ) (jitter : Jitter) (wall : ℤ) :
    Option ResolvedSession → Entry
  | some s =>
    let eff := effectiveTtl cfg jitter
    let ttl := min eff (wallRemaining s wall)
    { outcome := some s
      fetchedAt := now
      freshUntil := now + ttl
      staleUntil := now + ttl + cfg.staleIfError
      effectiveTtl := eff }
  | none =>
    { outcome := none
      fetchedAt := now
      freshUntil := now + cfg.negTtl
      staleUntil := now + cfg.negTtl
      effectiveTtl := cfg.negTtl }

@[simp] theorem fillEntry_outcome (cfg : ResolverConfig) (now : ℕ) (jitter : Jitter)
    (wall : ℤ) (fetched : Option ResolvedSession) :
    (fillEntry cfg now jitter wall fetched).outcome = fetched := by
  cases fetched <;> rfl

/-- The deadlines of an entry never exceed the configured caps. -/
structure Entry.Capped (cfg : ResolverConfig) (e : Entry) : Prop where
  fresh_session : e.outcome.isSome → e.freshUntil ≤ e.fetchedAt + cfg.l1Ttl
  fresh_tombstone : e.outcome = none → e.freshUntil ≤ e.fetchedAt + cfg.negTtl
  stale_session : e.outcome.isSome → e.staleUntil ≤ e.fetchedAt + cfg.l1Ttl + cfg.staleIfError

theorem fillEntry_capped (cfg : ResolverConfig) (now : ℕ) (jitter : Jitter) (wall : ℤ)
    (fetched : Option ResolvedSession) : (fillEntry cfg now jitter wall fetched).Capped cfg := by
  have heff := effectiveTtl_le cfg jitter
  cases fetched with
  | none => constructor <;> simp [fillEntry]
  | some s =>
    have hmin := (min_le_left (effectiveTtl cfg jitter) (wallRemaining s wall)).trans heff
    constructor
    · simpa [fillEntry] using hmin
    · simp [fillEntry]
    · intro _
      simp only [fillEntry]
      omega

def Entry.wallValid (e : Entry) (wall : ℤ) : Bool :=
  match e.outcome with
  | some s => decide (wall < s.expiresAt)
  | none => true

/-- `0.10 * entry.effective_ttl.as_secs_f64()`. -/
def tenthF64 (effectiveTtl : ℕ) : ℚ := round 52 (round 52 (1 / 10) * secsF64 effectiveTtl)

/-- Refresh-ahead of a positive entry. -/
def Entry.refreshDue (e : Entry) (now : ℕ) : Bool :=
  e.outcome.isSome && decide (secsF64 (e.freshUntil - now) < tenthF64 e.effectiveTtl)

/-- What `resolve` makes of an entry which L1 returned. -/
inductive Verdict where
  | expired
  | hit (refresh : Bool)
  | stale
deriving DecidableEq, Repr

def judge (e : Entry) (now : ℕ) (wall : ℤ) : Verdict :=
  if e.wallValid wall then
    if now < e.freshUntil then .hit (e.refreshDue now) else .stale
  else .expired

theorem judge_hit {e : Entry} {now : ℕ} {wall : ℤ} {refresh : Bool}
    (h : judge e now wall = .hit refresh) : e.wallValid wall ∧ now < e.freshUntil := by
  unfold judge at h
  split at h
  · split at h
    · exact ⟨‹_›,‹_›⟩
    · cases h
  · cases h

theorem Entry.wallValid_some {e : Entry} {wall : ℤ} {s : ResolvedSession}
    (h : e.wallValid wall) (hs : e.outcome = some s) : wall < s.expiresAt := by
  simpa [wallValid, hs] using h

/-- The session `resolve` may fall back to, captured before the fill starts. -/
def staleCandidate (cfg : ResolverConfig) (entry : Option Entry) (now : ℕ) (wall : ℤ) :
    Option (ResolvedSession × ℕ) :=
  if cfg.staleIfError = 0 then none
  else
    match entry with
    | none => none
    | some e =>
      match e.outcome with
      | some s => if wall < s.expiresAt ∧ now < e.staleUntil then some (s, e.fetchedAt) else none
      | none => none

theorem staleCandidate_some {cfg : ResolverConfig} {entry : Option Entry} {now : ℕ}
    {wall : ℤ} {s : ResolvedSession} {at' : ℕ}
    (h : staleCandidate cfg entry now wall = some (s, at')) :
    0 < cfg.staleIfError ∧ ∃ e, entry = some e ∧ e.outcome = some s ∧ e.fetchedAt = at' ∧
      wall < s.expiresAt ∧ now < e.staleUntil := by
  unfold staleCandidate at h
  split at h
  · cases h
  · rename_i hzero
    cases entry with
    | none => cases h
    | some e =>
      cases ho : e.outcome with
      | none => simp [ho] at h
      | some s' =>
        simp only [ho, Option.ite_none_right_eq_some, Option.some.injEq, Prod.mk.injEq] at h
        obtain ⟨⟨hexp,hnow⟩,rfl,rfl⟩ := h
        exact ⟨Nat.pos_of_ne_zero hzero,e,rfl,ho,rfl,hexp,hnow⟩

end NioClient.Session
