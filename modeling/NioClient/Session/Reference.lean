import NioClient.Library.RecencyList
import NioClient.Session.Entry

/-! # The reference cache

What the resolver is for when nothing runs concurrently: a bounded list of
entries in order of recency, with the fetches made, the answers given and the
refreshes which have been spawned and have not run.
-/
namespace NioClient.Session
open RecencyList

/-- How a fetch goes: it begins `start` after the decision to fetch, and takes
`delay` to return, or to time out. A success is stamped with the draw and the wall
clock at its return. -/
inductive Trip where
  | returns (start delay : ℕ) (outcome : ResolveResult) (jitter : Jitter) (wall : ℤ)
  | timesOut (start delay : ℕ) (h : RESOLVE_TIMEOUT ≤ delay)

/-- One event of a sequential history. A `resolve` reads `wall` at its start; its
trip is that of the fetch it makes, if it makes one. A `refresh` is a task spawned
for `key` by an earlier `resolve`. -/
inductive Op where
  | tick (d : ℕ)
  | evict (key : TokenHash)
  | resolve (key : TokenHash) (wall : ℤ) (trip : Trip)
  | refresh (key : TokenHash) (trip : Trip)

/-- Of a fetch: its key, the time it began, and what it returned if it did. -/
abbrev FetchSummary := TokenHash × ℕ × Option ResolveResult

structure Reference where
  now : ℕ
  entries : List (TokenHash × Entry)
  fetches : List FetchSummary
  answers : List ResolveResult
  spawned : List TokenHash

namespace Reference
variable (cfg : ResolverConfig) (r : Reference) (key : TokenHash)

def start : Reference := ⟨0,[],[],[],[]⟩

def answer (a : ResolveResult) : Reference := { r with answers := r.answers ++ [a] }

def spawn : Reference := { r with spawned := r.spawned ++ [key] }

def fetch : Trip → Reference × ResolveResult
  | .returns start delay outcome jitter wall =>
    let began := r.now + start
    let ended := began + delay
    let entries := match outcome with
      | .ok fetched => store cfg.capacity key (fillEntry cfg ended jitter wall fetched) r.entries
      | .error _ => r.entries
    ({ r with now := ended, entries, fetches := r.fetches ++ [(key,began,some outcome)] }, outcome)
  | .timesOut start delay _ =>
    ({ r with now := r.now + start + delay, fetches := r.fetches ++ [(key,r.now + start,none)] },
      .error (.transport "session resolve timed out after 5s"))

/-- The session which is answered in place of a transport error. -/
def fallback (wall : ℤ) : Option ResolvedSession :=
  match find key r.entries with
  | some { outcome := some s, staleUntil, .. } =>
    if 0 < cfg.staleIfError ∧ r.now < staleUntil ∧ wall < s.expiresAt then some s else none
  | _ => none

def settle : ResolveResult → Option ResolvedSession → ResolveResult
  | .error (.transport _), some s => .ok (some s)
  | outcome, _ => outcome

def miss (wall : ℤ) (trip : Trip) : Reference :=
  let fetched := r.fetch cfg key trip
  fetched.1.answer (settle fetched.2 (r.fallback cfg key wall))

def resolve (wall : ℤ) (trip : Trip) : Reference :=
  let touched := { r with entries := touch key r.entries }
  match find key r.entries with
  | none => touched.miss cfg key wall trip
  | some e =>
    if e.wallValid wall then
      if r.now < e.freshUntil then
        let answered := touched.answer (.ok e.outcome)
        if e.refreshDue r.now then answered.spawn key else answered
      else touched.miss cfg key wall trip
    else { touched with entries := forget key touched.entries }.miss cfg key wall trip

def refresh (trip : Trip) : Reference :=
  if key ∈ r.spawned then ({ r with spawned := r.spawned.erase key }.fetch cfg key trip).1 else r

def apply : Op → Reference
  | .tick d => { r with now := r.now + d }
  | .evict key => { r with entries := forget key r.entries }
  | .resolve key wall trip => r.resolve cfg key wall trip
  | .refresh key trip => r.refresh cfg key trip

def replay (history : List Op) : Reference := history.foldl (apply cfg) start

end Reference
end NioClient.Session
