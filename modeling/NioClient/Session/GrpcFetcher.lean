import NioClient.Library.Program
import NioClient.Check.Codec
import NioClient.Session.Entry

/-! # The fetch over `am.SessionService`

A session whose expiry `DateTime::from_timestamp` refuses is taken to expire at the
moment it is decoded.
-/
namespace NioClient.Session
open Environment Check

namespace Pb

structure ResolveRequest where
  tokenHash : String
deriving DecidableEq, Repr

inductive Outcome where
  | session (principal : String) (expiresAtUnixSeconds : Int64) (tenantId : String)
  | notFound
deriving DecidableEq

structure ResolveResponse where
  outcome : Option Outcome
deriving DecidableEq

end Pb

inductive Query where
  | resolve (r : Pb.ResolveRequest)
  | utcNow
deriving DecidableEq, Repr

def Query.Reply : Query → Type
  | .resolve _ => Except Status Pb.ResolveResponse
  | .utcNow => ℤ

abbrev Fetcher := Program Query Query.Reply

def resolveRpc (r : Pb.ResolveRequest) : Fetcher (Except Status Pb.ResolveResponse) := .ask (Query.resolve r)

def utcNow : Fetcher ℤ := .ask Query.utcNow

def isTransportCode (code : ℕ) : Bool := code = 14 || code = 4

def classifyStatus (status : Status) : ResolveError :=
  if isTransportCode status.code then .transport status.message else .backend status.message

section Fetching
variable (fromTimestamp : Int64 → Option ℤ)

def GrpcFetcher.fetch (tokenHash : TokenHash) : Fetcher ResolveResult := do
  match ← resolveRpc ⟨tokenHash⟩ with
  | .error status => return .error (classifyStatus status)
  | .ok resp =>
    match resp.outcome with
    | some (.session principal expiresAtUnixSeconds tenantId) =>
      match fromTimestamp expiresAtUnixSeconds with
      | some expiresAt => return .ok (some { principal, tenantId, expiresAt })
      | none => do
        let now ← utcNow
        return .ok (some { principal, tenantId, expiresAt := now })
    | some .notFound | none => return .ok none

end Fetching

/-- The instant the wire names. -/
def wireInstant (e : Int64) : ℤ := e.toInt * 1000000000

/-- From `decoded` on, `s` counts as expired once the instant the wire names has come, and
until then `fill` gives it a positive fresh window. -/
structure MeaningKept (e : Int64) (decoded : ℤ) (s : ResolvedSession) : Prop where
  expired_iff : ∀ (entry : Entry) (w : ℤ), entry.outcome = some s → decoded ≤ w →
    (entry.wallValid w = false ↔ wireInstant e ≤ w)
  window : ∀ (cfg : ResolverConfig) (now : ℕ) (jitter : Jitter) (w : ℤ), 0 < effectiveTtl cfg jitter →
    decoded ≤ w → w < wireInstant e → now < (fillEntry cfg now jitter w (some s)).freshUntil

variable {fromTimestamp : Int64 → Option ℤ} {tokenHash : TokenHash} {principal tenantId : String}
  {e : Int64} {decoded : ℤ} {s : ResolvedSession} {env : ∀ q, Query.Reply q}

theorem fetch_session (hreply : env (.resolve ⟨tokenHash⟩) = .ok ⟨some (.session principal e tenantId)⟩) :
    (GrpcFetcher.fetch fromTimestamp tokenHash).run env =
      .ok (some ⟨principal,tenantId,(fromTimestamp e).getD (env .utcNow)⟩) := by
  have hrpc : (resolveRpc ⟨tokenHash⟩).run env = .ok ⟨some (.session principal e tenantId)⟩ := hreply
  rw [GrpcFetcher.fetch, Program.run_bind, hrpc]
  dsimp only
  cases fromTimestamp e with
  | some dt => rfl
  | none => rfl

theorem Entry.wallValid_eq_false {entry : Entry} {w : ℤ} (h : entry.outcome = some s) :
    entry.wallValid w = false ↔ s.expiresAt ≤ w := by
  simp [Entry.wallValid, h]

theorem fillEntry_window {cfg : ResolverConfig} {now : ℕ} {jitter : Jitter} {w : ℤ} :
    now < (fillEntry cfg now jitter w (some s)).freshUntil ↔ 0 < effectiveTtl cfg jitter ∧ w < s.expiresAt := by
  simp only [fillEntry, wallRemaining]
  omega

theorem meaningKept_iff (hs : s.expiresAt = (fromTimestamp e).getD decoded)
    (hexact : ∀ secs dt, fromTimestamp secs = some dt → dt = wireInstant secs) :
    MeaningKept e decoded s ↔ (fromTimestamp e).isSome ∨ wireInstant e ≤ decoded := by
  constructor
  · intro h
    cases hdt : fromTimestamp e with
    | some dt => exact Or.inl rfl
    | none =>
      -- The session has expired already at the moment it is decoded.
      have hnow : s.expiresAt = decoded := by rw [hs, hdt, Option.getD_none]
      let entry : Entry := ⟨some s,0,0,0,0⟩
      have hexpired : entry.wallValid decoded = false :=
        (Entry.wallValid_eq_false rfl).mpr (le_of_eq hnow)
      exact Or.inr ((h.expired_iff entry decoded rfl le_rfl).mp hexpired)
  · intro h
    have hexpiry (w : ℤ) (hw : decoded ≤ w) : s.expiresAt ≤ w ↔ wireInstant e ≤ w := by
      cases hdt : fromTimestamp e with
      | some dt => rw [hs, hdt, Option.getD_some, hexact e dt hdt]
      | none =>
        rw [hs, hdt, Option.getD_none]
        have hpast : wireInstant e ≤ decoded := by simpa [hdt] using h
        omega
    refine ⟨fun entry w hentry hw => ?_,fun cfg now jitter w hpos hw hfuture => ?_⟩
    · rw [Entry.wallValid_eq_false hentry, hexpiry w hw]
    · have := hexpiry w hw
      exact fillEntry_window.mpr ⟨hpos,by omega⟩

/-- A fetched session keeps the meaning of its wire expiry exactly when
`DateTime::from_timestamp` accepts the expiry or it has passed when it is decoded. -/
theorem fetch_keepsMeaning (hexact : ∀ secs dt, fromTimestamp secs = some dt → dt = wireInstant secs)
    (hreply : env (.resolve ⟨tokenHash⟩) = .ok ⟨some (.session principal e tenantId)⟩) :
    ∃ s, (GrpcFetcher.fetch fromTimestamp tokenHash).run env = .ok (some s) ∧
      (MeaningKept e (env .utcNow) s ↔ (fromTimestamp e).isSome ∨ wireInstant e ≤ env .utcNow) :=
  ⟨_,fetch_session hreply,meaningKept_iff rfl hexact⟩

/-- The backend answers with an expiry `e`, and the wall clock shows 1700000000 s. -/
def replyWith (e : Int64) : ∀ q, Query.Reply q
  | .resolve _ => .ok ⟨some (.session "alice" e "t1")⟩
  | .utcNow => (1700000000000000000 : ℤ)

/-- The greatest expiry makes the session one that has expired when it is decoded. -/
theorem farExpiry_loses_meaning : ∃ s,
    (GrpcFetcher.fetch chronoFromTimestamp "k").run (replyWith Int64.maxValue) = .ok (some s) ∧
      ¬ MeaningKept Int64.maxValue (1700000000000000000 : ℤ) s := by
  refine ⟨_,rfl,fun h => ?_⟩
  have hexpired := h.expired_iff ⟨some ⟨"alice","t1",1700000000000000000⟩,0,0,0,0⟩
    1700000000000000000 rfl le_rfl
  revert hexpired
  decide

theorem chrono_exact (secs : Int64) (dt : ℤ) (h : chronoFromTimestamp secs = some dt) : dt = wireInstant secs :=
  (chrono.exact secs dt h).1

theorem fetch_keepsMeaning_nextDay : ∃ s,
    (GrpcFetcher.fetch chronoFromTimestamp "k").run (replyWith 1700086400) = .ok (some s) ∧
      MeaningKept 1700086400 (1700000000000000000 : ℤ) s := by
  have hreply : replyWith 1700086400 (.resolve ⟨"k"⟩) = .ok ⟨some (.session "alice" 1700086400 "t1")⟩ := rfl
  obtain ⟨s,hrun,hkept⟩ := fetch_keepsMeaning chrono_exact hreply
  exact ⟨s,hrun,hkept.mpr (Or.inl (by decide))⟩

end NioClient.Session
