import NioClient.Library.Execution
import NioClient.Session.Lru
import NioClient.Session.SingleFlight

/-! # The cached resolver as a system of interleaved sections

One action is one lock-protected section, one clock reading or one await point
of `CachedResolver`; between two of them any other task may run. The outside
world supplies what the code reads: wall-clock readings, fetch outcomes, jitter.
Answers and cached entries carry, as history, the number of the fetch they came
from.
-/
namespace NioClient.Session
open Execution

structure Cached where
  entry : Entry
  fetch : ℕ
deriving DecidableEq

/-- A captured stale candidate, with the fetch it came from. -/
structure Candidate where
  session : ResolvedSession
  fetchedAt : ℕ
  fetch : ℕ
deriving DecidableEq

/-- The path on which an answer was given, and the fetch the answer came from. -/
inductive Source where
  | l1 (fetch : ℕ)
  | joined (fill fetch : ℕ)
  | stale (fill fetch : ℕ)
deriving DecidableEq

def Source.fetch : Source → ℕ
  | l1 n | joined _ n | stale _ n => n

/-- The callers of `SingleFlight::run`: a `resolve` with the clocks it read at
its start, and the task which `spawn_refresh` starts. -/
inductive CallerKind where
  | resolve (now : ℕ) (wall : ℤ)
  | refresh
deriving DecidableEq

inductive CallerPhase where
  | started
  /-- L1 held an entry whose session has expired; its removal is pending. -/
  | expired
  | missed
  /-- About to enter `SingleFlight::run`, with its stale candidate captured. -/
  | flying (stale : Option Candidate)
  /-- Awaits the shared future of a fill. -/
  | waiting (fill : ℕ) (stale : Option Candidate)
  | answered (answer : ResolveResult) (source : Source)
  | cancelled
  | panicked
deriving DecidableEq

structure Caller where
  key : TokenHash
  kind : CallerKind
  phase : CallerPhase
deriving DecidableEq

structure State where
  now : ℕ
  cache : Lru TokenHash Cached
  flight : SingleFlight
  callers : List Caller

def init (cfg : ResolverConfig) : State := ⟨0, .new cfg.capacity, .default, []⟩

inductive Act where
  | tick (d : ℕ)
  | resolve (key : TokenHash) (wall : ℤ)
  | lookup (c : ℕ)
  | forcedMiss (c : ℕ)
  | captureStale (c : ℕ)
  | run (c : ℕ)
  | receive (c : ℕ)
  | cancel (c : ℕ)
  | callFetch (f : ℕ)
  | fetchReturns (f : ℕ) (returned : ResolveResult) (jitter : Jitter) (wall : ℤ)
  | fetchTimesOut (f : ℕ)
  | fetchPanics (f : ℕ)
  | put (f : ℕ)
  | cleanUp (f : ℕ)
  | evict (key : TokenHash)
deriving DecidableEq

/-- The fill that the action moves, and how. -/
def Act.event : Act → Option (ℕ × SingleFlight.FillEvent)
  | callFetch f => some (f, .called)
  | fetchReturns f returned jitter wall => some (f, SingleFlight.returnEvent jitter wall returned)
  | fetchTimesOut f => some (f, .failed)
  | fetchPanics f => some (f, .panicked)
  | put f => some (f, .put)
  | cleanUp f => some (f, .cleaned)
  | _ => none

theorem Act.event_called {a : Act} {f : ℕ} : a.event = some (f, .called) ↔ a = .callFetch f := by
  cases a with
  | fetchReturns g returned jitter wall => cases returned <;> simp [event, SingleFlight.returnEvent]
  | _ => simp [event]

theorem Act.event_built {a : Act} {f : ℕ} {fetched : Option ResolvedSession} {jitter : Jitter} {wall : ℤ} :
    a.event = some (f, .built fetched jitter wall) ↔ a = .fetchReturns f (.ok fetched) jitter wall := by
  cases a with
  | fetchReturns g returned jitter wall => cases returned <;> simp [event, SingleFlight.returnEvent]
  | _ => simp [event]

theorem Act.event_panicked {a : Act} {f : ℕ} : a.event = some (f, .panicked) ↔ a = .fetchPanics f := by
  cases a with
  | fetchReturns g returned jitter wall => cases returned <;> simp [event, SingleFlight.returnEvent]
  | _ => simp [event]

theorem Act.event_put {a : Act} {f : ℕ} : a.event = some (f, .put) ↔ a = .put f := by
  cases a with
  | fetchReturns g returned jitter wall => cases returned <;> simp [event, SingleFlight.returnEvent]
  | _ => simp [event]

theorem Act.event_cleaned {a : Act} {f : ℕ} : a.event = some (f, .cleaned) ↔ a = .cleanUp f := by
  cases a with
  | fetchReturns g returned jitter wall => cases returned <;> simp [event, SingleFlight.returnEvent]
  | _ => simp [event]

namespace State

def setCaller (s : State) (c : ℕ) (x : Caller) (phase : CallerPhase) : State :=
  { s with callers := s.callers.set c { x with phase } }

def spawnRefresh (s : State) (key : TokenHash) : State :=
  { s with callers := s.callers ++ [⟨key, .refresh, .flying none⟩] }

def resolve (s : State) (key : TokenHash) (wall : ℤ) : State :=
  { s with callers := s.callers ++ [⟨key, .resolve s.now wall, .started⟩] }

/-- Step 1 of `resolve`: the L1 lookup and what follows from it. -/
def lookup (s : State) (c : ℕ) : Option State := do
  let x ← s.callers[c]?
  match x.kind, x.phase with
  | .resolve now wall, .started =>
    let got := s.cache.get x.key
    let s' := { s with cache := got.2 }
    match got.1 with
    | none => some (s'.setCaller c x .missed)
    | some hit =>
      match judge hit.entry now wall with
      | .expired => some (s'.setCaller c x .expired)
      | .stale => some (s'.setCaller c x .missed)
      | .hit refresh =>
        let s'' := s'.setCaller c x (.answered (.ok hit.entry.outcome) (.l1 hit.fetch))
        some (if refresh then s''.spawnRefresh x.key else s'')
  | _, _ => none

/-- The forced miss removes by key, under a lock of its own. -/
def forcedMiss (s : State) (c : ℕ) : Option State := do
  let x ← s.callers[c]?
  match x.phase with
  | .expired => some ({ s with cache := s.cache.remove x.key }.setCaller c x .missed)
  | _ => none

def candidate (cfg : ResolverConfig) (s : State) (key : TokenHash) (now : ℕ) (wall : ℤ) :
    Option Candidate := do
  let cached ← s.cache.peek key
  let (session, fetchedAt) ← staleCandidate cfg (some cached.entry) now wall
  some ⟨session, fetchedAt, cached.fetch⟩

/-- Step 2 of `resolve`, before the single flight. -/
def captureStale (cfg : ResolverConfig) (s : State) (c : ℕ) : Option State := do
  let x ← s.callers[c]?
  match x.kind, x.phase with
  | .resolve now wall, .missed => some (s.setCaller c x (.flying (s.candidate cfg x.key now wall)))
  | _, _ => none

/-- The locked section of `SingleFlight::run`. -/
def run (s : State) (c : ℕ) : Option State := do
  let x ← s.callers[c]?
  match x.phase with
  | .flying stale =>
    let joined := s.flight.run x.key
    some ({ s with flight := joined.1 }.setCaller c x (.waiting joined.2 stale))
  | _ => none

/-- The end of `resolve`: what the caller makes of the result of fill `f`. -/
def conclude (f fetch : ℕ) (result : Except ResolveError Entry) (stale : Option Candidate) :
    CallerPhase :=
  match result with
  | .ok e => .answered (.ok e.outcome) (.joined f fetch)
  | .error e =>
    if e.isTransport then
      match stale with
      | some x => .answered (.ok (some x.session)) (.stale f x.fetch)
      | none => .answered (.error e) (.joined f fetch)
    else .answered (.error e) (.joined f fetch)

/-- `shared.await` completes; a poisoned future panics. -/
def receive (s : State) (c : ℕ) : Option State := do
  let x ← s.callers[c]?
  match x.phase with
  | .waiting f stale =>
    let fill ← s.flight.fills[f]?
    match fill.phase with
    | .done fetch result => some (s.setCaller c x (conclude f fetch result stale))
    | .panicked _ => some (s.setCaller c x .panicked)
    | _ => none
  | _ => none

/-- A caller is dropped; the only await point is that of the shared future. -/
def cancel (s : State) (c : ℕ) : Option State := do
  let x ← s.callers[c]?
  match x.phase with
  | .waiting _ _ => some (s.setCaller c x .cancelled)
  | _ => none

/-- The end of `fill`: the entry goes into the cache. -/
def put (s : State) (f : ℕ) : Option State := do
  let (fill, n, e) ← s.flight.pending f
  some { s with
    cache := s.cache.put fill.key ⟨e, n⟩
    flight := s.flight.setPhase f fill (.cleaning n (.ok e)) }

end State

def step (cfg : ResolverConfig) (s : State) : Act → Option State
  | .tick d => some { s with now := s.now + d }
  | .resolve key wall => some (s.resolve key wall)
  | .lookup c => s.lookup c
  | .forcedMiss c => s.forcedMiss c
  | .captureStale c => s.captureStale cfg c
  | .run c => s.run c
  | .receive c => s.receive c
  | .cancel c => s.cancel c
  | .callFetch f => (s.flight.callFetch f s.now).map fun flight => { s with flight }
  | .fetchReturns f returned jitter wall =>
    (s.flight.fetchReturns cfg f returned s.now jitter wall).map fun flight => { s with flight }
  | .fetchTimesOut f => (s.flight.fetchTimesOut f s.now).map fun flight => { s with flight }
  | .fetchPanics f => (s.flight.fetchPanics f).map fun flight => { s with flight }
  | .put f => s.put f
  | .cleanUp f => (s.flight.cleanUp f).map fun flight => { s with flight }
  | .evict key => some { s with cache := s.cache.remove key }

abbrev Run (cfg : ResolverConfig) (acts : List Act) (s : State) : Prop :=
  exec (step cfg) (init cfg) acts = some s

end NioClient.Session
