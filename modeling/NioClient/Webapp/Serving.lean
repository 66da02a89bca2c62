import NioClient.Session.Quiescence
import NioClient.Webapp.Grants

/-! # The app as it serves requests

All requests are under way at once, and share the resolver and the backend. One action is
one call of a handler, one step of the resolver, or one RPC at the backend; the outside
world chooses the requests, the random bytes, the clocks and the RPCs that are lost.
-/
namespace NioClient.Webapp
open Environment Axum Check Session
variable {H E : Type}

inductive Stage where
  | running (rest : App (Response Body))
  /-- Awaits `resolve`, which is a caller of the resolver. -/
  | resolving (c : ℕ) (hash : TokenHash) (next : ResolveResult → App (Response Body))
  | dropped
  | panicked

/-- When a request has come: at which time, and after how many callers of the resolver. -/
structure Arrival where
  now : ℕ
  callers : ℕ
deriving DecidableEq

def Arrival.Before (arrival : Arrival) (c now : ℕ) : Prop := arrival.callers ≤ c ∧ arrival.now ≤ now

/-- As history, a request has its arrival and its calls. -/
structure Request (H : Type) where
  route : Route
  parts : Parts H
  arrival : Arrival
  log : CallLog
  stage : Stage

def Request.response? (x : Request H) : Option (Response Body) :=
  match x.stage with
  | .running (.pure response) => some response
  | _ => none

theorem Request.response?_eq {x : Request H} {response : Response Body} :
    x.response? = some response ↔ x.stage = .running (.pure response) := by
  unfold response?
  split
  · next hstage => simp [hstage]
  · next hnot => exact ⟨fun h => (by cases h),fun h => absurd h (hnot response)⟩

/-- As history, the resolver's actions are kept. `served` holds the replies that the backend
has given to the resolver's fetches. -/
structure State (H : Type) where
  resolver : Session.State
  acts : List Act
  backend : Backend
  served : AList fun _ : ℕ => Session.Pb.ResolveResponse
  requests : List (Request H)

def State.now (s : State H) : ℕ := s.resolver.now

def State.arrival (s : State H) : Arrival := ⟨s.now,s.resolver.callers.length⟩

def init (site : Site H E) (b : Backend) : State H := ⟨Session.init site.cfg,[],b,∅,[]⟩

inductive Action (H : Type) where
  | arrive (route : Route) (parts : Parts H)
  | resolve (r : ℕ) (wall : ℤ)
  | answered (r : ℕ)
  | rpc (r : ℕ) (lost : Option Status)
  | createSession (r : ℕ) (bytes : Vector UInt8 32) (nowUnix : Int64)
  | removeSession (r : ℕ)
  | evict (r : ℕ)
  | drop (r : ℕ)
  /-- The backend serves a fetch. -/
  | serve (n : ℕ) (nowUnix : Int64)
  | fetchReturns (f : ℕ) (lost : Option Status) (decodedAt : ℤ) (jitter : Jitter) (wall : ℤ)
  | resolver (a : Act)

/-- The resolver takes these steps by itself. -/
def internal : Act → Bool
  | .resolve .. | .cancel _ | .fetchReturns .. | .evict _ => false
  | _ => true

def lostRpc (status : Status) : ∀ rpc : Rpc, rpc.Reply
  | .check _ | .list _ => .error status

/-- The environment of a fetch whose RPC gives `reply`. -/
def fetchEnv (reply : Except Status Session.Pb.ResolveResponse) (decodedAt : ℤ) : ∀ q, Query.Reply q
  | .resolve _ => reply
  | .utcNow => decodedAt

def fetched (site : Site H E) (key : TokenHash) (reply : Except Status Session.Pb.ResolveResponse)
    (decodedAt : ℤ) : ResolveResult :=
  (GrpcFetcher.fetch site.fromTimestamp key).run (fetchEnv reply decodedAt)

namespace State
variable (site : Site H E) (s : State H)

def setStage (r : ℕ) (x : Request H) (stage : Stage) : State H :=
  { s with requests := s.requests.set r { x with stage } }

def goOn (r : ℕ) (x : Request H) (call : AppCall) (reply : call.Reply) (rest : App (Response Body)) : State H :=
  { s with requests := s.requests.set r { x with log := x.log ++ [⟨call,reply⟩], stage := .running rest } }

def act (a : Act) : Option (State H) :=
  (Session.step site.cfg s.resolver a).map fun resolver => { s with resolver, acts := s.acts ++ [a] }

def arrive (route : Route) (parts : Parts H) : Option (State H) :=
  if route.admits parts.method then
    some { s with requests := s.requests ++ [⟨route,parts,s.arrival,[],.running (handle site parts route)⟩] }
  else none

def resolve (r : ℕ) (wall : ℤ) : Option (State H) := do
  let x ← s.requests[r]?
  match x.stage with
  | .running (.call (.extractor (.resolve hash)) next) => do
    let s' ← s.act site (.resolve hash wall)
    some (s'.setStage r x (.resolving s.resolver.callers.length hash next))
  | _ => none

def answered (r : ℕ) : Option (State H) := do
  let x ← s.requests[r]?
  match x.stage with
  | .resolving c hash next => do
    let caller ← s.resolver.callers[c]?
    match caller.phase with
    | .answered answer _ => some (s.goOn r x (.extractor (.resolve hash)) answer (next answer))
    | .panicked => some (s.setStage r x .panicked)
    | _ => none
  | _ => none

def rpc (r : ℕ) (lost : Option Status) : Option (State H) := do
  let x ← s.requests[r]?
  match x.stage with
  | .running (.call (.extractor (.rpc rpc)) next) =>
    let reply := match lost with
      | none => s.backend.reply rpc
      | some status => lostRpc status rpc
    some (s.goOn r x (.extractor (.rpc rpc)) reply (next reply))
  | _ => none

def createSession (r : ℕ) (bytes : Vector UInt8 32) (nowUnix : Int64) : Option (State H) := do
  let x ← s.requests[r]?
  match x.stage with
  | .running (.call (.createSession principal) next) =>
    let (raw, backend) := s.backend.createSession site.crates principal bytes nowUnix
    some ({ s with backend }.goOn r x (.createSession principal) raw (next raw))
  | _ => none

def removeSession (r : ℕ) : Option (State H) := do
  let x ← s.requests[r]?
  match x.stage with
  | .running (.call (.removeSession hash) next) =>
    some ({ s with backend := s.backend.removeSession hash }.goOn r x (.removeSession hash) () (next ()))
  | _ => none

def evict (r : ℕ) : Option (State H) := do
  let x ← s.requests[r]?
  match x.stage with
  | .running (.call (.evict hash) next) => do
    let s' ← s.act site (.evict hash)
    some (s'.goOn r x (.evict hash) () (next ()))
  | _ => none

def drop (r : ℕ) : Option (State H) := do
  let x ← s.requests[r]?
  match x.stage with
  | .running (.call (.extractor (.rpc _)) _) => some (s.setStage r x .dropped)
  | .resolving c _ _ => do
    let s' ← s.act site (.cancel c)
    some (s'.setStage r x .dropped)
  | _ => none

def serve (n : ℕ) (nowUnix : Int64) : Option (State H) := do
  let x ← s.resolver.flight.fetches[n]?
  match s.served.lookup n with
  | some _ => none
  | none => some { s with served := s.served.insert n (s.backend.resolve nowUnix ⟨x.key⟩) }

/-- The reply to a fetch, unless it is lost. -/
def fetchReply (n : ℕ) : Option Status → Option (Except Status Session.Pb.ResolveResponse)
  | none => (s.served.lookup n).map .ok
  | some status => some (.error status)

def fetchReturns (f : ℕ) (lost : Option Status) (decodedAt : ℤ) (jitter : Jitter) (wall : ℤ) :
    Option (State H) := do
  let fill ← s.resolver.flight.fills[f]?
  let n ← fill.phase.fetch?
  let reply ← s.fetchReply n lost
  s.act site (.fetchReturns f (fetched site fill.key reply decodedAt) jitter wall)

end State

def step (site : Site H E) (s : State H) : Action H → Option (State H)
  | .arrive route parts => s.arrive site route parts
  | .resolve r wall => s.resolve site r wall
  | .answered r => s.answered r
  | .rpc r lost => s.rpc r lost
  | .createSession r bytes nowUnix => s.createSession site r bytes nowUnix
  | .removeSession r => s.removeSession r
  | .evict r => s.evict site r
  | .drop r => s.drop site r
  | .serve n nowUnix => s.serve n nowUnix
  | .fetchReturns f lost decodedAt jitter wall => s.fetchReturns site f lost decodedAt jitter wall
  | .resolver a => if internal a then s.act site a else none

end NioClient.Webapp
