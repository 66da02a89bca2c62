import NioClient.Session.Resolver

/-! # One token by itself

What a resolver does for one token when it serves no other: an entry instead of the
LRU, the place of a fill instead of the in-flight map, no ids and no history. Fills
and callers are known by their places among those of the token.
-/
namespace NioClient.Session

inductive FillStage where
  | registered
  | fetching (beganAt : ℕ)
  | storing (entry : Entry)
  | cleaning (result : Except ResolveError Entry)
  | done (result : Except ResolveError Entry)
  | panicked
deriving DecidableEq

/-- A candidate is a session and the instant of its fetch. -/
abbrev Fallback := Option (ResolvedSession × ℕ)

inductive CallStage where
  | started
  | expired
  | missed
  | flying (stale : Fallback)
  | waiting (fill : ℕ) (stale : Fallback)
  | answered (answer : ResolveResult)
  | cancelled
  | panicked
deriving DecidableEq

structure Token where
  cached : Option Entry
  flight : Option ℕ
  fills : List FillStage
  /-- The instants at which `fetch` has been called. -/
  fetches : List ℕ
  callers : List (CallerKind × CallStage)
deriving DecidableEq

/-- The steps that concern one token, with the clock readings they take. -/
inductive Event where
  | resolve (now : ℕ) (wall : ℤ)
  | lookup (c : ℕ)
  | forcedMiss (c : ℕ)
  | captureStale (c : ℕ)
  | run (c : ℕ)
  | receive (c : ℕ)
  | cancel (c : ℕ)
  | callFetch (f : ℕ) (now : ℕ)
  | fetchReturns (f : ℕ) (returned : ResolveResult) (now : ℕ) (jitter : Jitter) (wall : ℤ)
  | fetchTimesOut (f : ℕ) (now : ℕ)
  | fetchPanics (f : ℕ)
  | put (f : ℕ)
  | cleanUp (f : ℕ)
  | evict
deriving DecidableEq

namespace Token

def start : Token := ⟨none, none, [], [], []⟩

def setCaller (k : Token) (c : ℕ) (kind : CallerKind) (stage : CallStage) : Token :=
  { k with callers := k.callers.set c (kind, stage) }

def setFill (k : Token) (f : ℕ) (stage : FillStage) : Token := { k with fills := k.fills.set f stage }

def lookup (k : Token) (c : ℕ) : Option Token :=
  match k.callers[c]? with
  | some (.resolve now wall, .started) =>
    match k.cached with
    | none => some (k.setCaller c (.resolve now wall) .missed)
    | some e =>
      match judge e now wall with
      | .expired => some (k.setCaller c (.resolve now wall) .expired)
      | .stale => some (k.setCaller c (.resolve now wall) .missed)
      | .hit refresh =>
        let left := k.setCaller c (.resolve now wall) (.answered (.ok e.outcome))
        some (if refresh then { left with callers := left.callers ++ [(.refresh, .flying none)] } else left)
  | _ => none

def run (k : Token) (c : ℕ) : Option Token :=
  match k.callers[c]? with
  | some (kind, .flying stale) =>
    match k.flight with
    | some f => some (k.setCaller c kind (.waiting f stale))
    | none =>
      some ({ k with flight := some k.fills.length, fills := k.fills ++ [FillStage.registered] }.setCaller c kind
        (.waiting k.fills.length stale))
  | _ => none

def conclude (result : Except ResolveError Entry) (stale : Fallback) : CallStage :=
  match result with
  | .ok e => .answered (.ok e.outcome)
  | .error e =>
    if e.isTransport then
      match stale with
      | some (session, _) => .answered (.ok (some session))
      | none => .answered (.error e)
    else .answered (.error e)

def receive (k : Token) (c : ℕ) : Option Token :=
  match k.callers[c]? with
  | some (kind, .waiting f stale) =>
    match k.fills[f]? with
    | some (.done result) => some (k.setCaller c kind (conclude result stale))
    | some .panicked => some (k.setCaller c kind .panicked)
    | _ => none
  | _ => none

def fetchReturns (cfg : ResolverConfig) (k : Token) (f : ℕ) (returned : ResolveResult) (now : ℕ)
    (jitter : Jitter) (wall : ℤ) : Option Token :=
  match k.fills[f]? with
  | some (.fetching _) =>
    some (k.setFill f (match returned with
      | .ok fetched => .storing (fillEntry cfg now jitter wall fetched)
      | .error e => .cleaning (.error e)))
  | _ => none

def fetchTimesOut (k : Token) (f : ℕ) (now : ℕ) : Option Token :=
  match k.fills[f]? with
  | some (.fetching beganAt) =>
    if beganAt + RESOLVE_TIMEOUT ≤ now then
      some (k.setFill f (.cleaning (.error (.transport "session resolve timed out after 5s"))))
    else none
  | _ => none

protected def step (cfg : ResolverConfig) (k : Token) : Event → Option Token
  | .resolve now wall => some { k with callers := k.callers ++ [(.resolve now wall, .started)] }
  | .lookup c => k.lookup c
  | .forcedMiss c =>
    match k.callers[c]? with
    | some (kind, .expired) => some ({ k with cached := none }.setCaller c kind .missed)
    | _ => none
  | .captureStale c =>
    match k.callers[c]? with
    | some (.resolve now wall, .missed) =>
      some (k.setCaller c (.resolve now wall) (.flying (staleCandidate cfg k.cached now wall)))
    | _ => none
  | .run c => k.run c
  | .receive c => k.receive c
  | .cancel c =>
    match k.callers[c]? with
    | some (kind, .waiting _ _) => some (k.setCaller c kind .cancelled)
    | _ => none
  | .callFetch f now =>
    match k.fills[f]? with
    | some .registered => some { k.setFill f (.fetching now) with fetches := k.fetches ++ [now] }
    | _ => none
  | .fetchReturns f returned now jitter wall => k.fetchReturns cfg f returned now jitter wall
  | .fetchTimesOut f now => k.fetchTimesOut f now
  | .fetchPanics f =>
    match k.fills[f]? with
    | some (.fetching _) => some (k.setFill f .panicked)
    | _ => none
  | .put f =>
    match k.fills[f]? with
    | some (.storing e) =>
      some { k.setFill f (.cleaning (.ok e)) with
        cached := if cfg.capacity = 0 then k.cached else some e }
    | _ => none
  | .cleanUp f =>
    match k.fills[f]? with
    | some (.cleaning result) => some { k.setFill f (.done result) with flight := none }
    | _ => none
  | .evict => some { k with cached := none }

end Token

end NioClient.Session
