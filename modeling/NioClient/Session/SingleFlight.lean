import Mathlib.Data.List.AList
import NioClient.Session.Entry

/-! # Single-flight fills

The in-flight map holds, under each key, the id and the handle of a shared
future; a handle is an index into `fills`, the futures ever registered. A fill
runs `fill` and then the clean-up of `SingleFlight::run`, whichever task drives
it; its phase says how far it has come and holds its local variables.
-/
namespace NioClient.Session

/-- One call of `SessionFetcher::fetch`. The list of them, in the order in which
they begin, is a history variable; nothing in the code reads it. -/
structure Fetch where
  fill : ℕ
  key : TokenHash
  beganAt : ℕ
  returned : Option ResolveResult
deriving DecidableEq

def Fetch.returns (x : Fetch) (r : ResolveResult) : Fetch := { x with returned := some r }

inductive Phase where
  /-- Registered and spawned, not polled yet. -/
  | registered
  /-- Awaits the fetch inside the timeout. -/
  | fetching (fetch : ℕ)
  /-- The entry is built, its `put` is pending. -/
  | storing (fetch : ℕ) (entry : Entry)
  /-- `fill` has ended, the clean-up is pending. -/
  | cleaning (fetch : ℕ) (result : Except ResolveError Entry)
  /-- The output is memoised for every clone. -/
  | done (fetch : ℕ) (result : Except ResolveError Entry)
  | panicked (fetch : ℕ)
deriving DecidableEq

namespace Phase

def fetch? : Phase → Option ℕ
  | registered => none
  | fetching n | storing n _ | cleaning n _ | done n _ | panicked n => some n

def entry? : Phase → Option Entry
  | storing _ e | cleaning _ (.ok e) | done _ (.ok e) => some e
  | _ => none

def stored? : Phase → Option Entry
  | cleaning _ (.ok e) | done _ (.ok e) => some e
  | _ => none

def live : Phase → Bool
  | done _ _ => false
  | _ => true

def ended : Phase → Bool
  | done _ _ | panicked _ => true
  | _ => false

end Phase

structure Fill where
  id : UInt64
  key : TokenHash
  phase : Phase
deriving DecidableEq

structure SingleFlight where
  inflight : AList fun _ : TokenHash => UInt64 × ℕ
  nextId : UInt64
  fills : List Fill
  fetches : List Fetch

namespace SingleFlight

def default : SingleFlight := ⟨∅, 0, [], []⟩

/-- The branch of `run` which registers a new fill and spawns it. -/
def register (sf : SingleFlight) (key : TokenHash) : SingleFlight :=
  { sf with
    inflight := sf.inflight.insert key (sf.nextId, sf.fills.length)
    nextId := sf.nextId + 1
    fills := sf.fills ++ [⟨sf.nextId, key, .registered⟩] }

/-- The locked section of `run`: joins the fill in flight or registers one. -/
def run (sf : SingleFlight) (key : TokenHash) : SingleFlight × ℕ :=
  match sf.inflight.lookup key with
  | some (_, existing) => (sf, existing)
  | none => (sf.register key, sf.fills.length)

def setPhase (sf : SingleFlight) (f : ℕ) (fill : Fill) (phase : Phase) : SingleFlight :=
  { sf with fills := sf.fills.set f { fill with phase } }

/-- The first poll of a fill calls the fetcher. -/
def callFetch (sf : SingleFlight) (f : ℕ) (now : ℕ) : Option SingleFlight := do
  let fill ← sf.fills[f]?
  match fill.phase with
  | .registered =>
    some { sf.setPhase f fill (.fetching sf.fetches.length) with
      fetches := sf.fetches ++ [⟨f, fill.key, now, none⟩] }
  | _ => none

/-- The fetch returns in time; a session or a tombstone is stamped at once. -/
def fetchReturns (cfg : ResolverConfig) (sf : SingleFlight) (f : ℕ) (returned : ResolveResult)
    (now : ℕ) (jitter : Jitter) (wall : ℤ) : Option SingleFlight := do
  let fill ← sf.fills[f]?
  match fill.phase with
  | .fetching n =>
    let phase := match returned with
      | .ok fetched => .storing n (fillEntry cfg now jitter wall fetched)
      | .error e => .cleaning n (.error e)
    some { sf.setPhase f fill phase with
      fetches := sf.fetches.modify n (·.returns returned) }
  | _ => none

/-- The timeout elapses first; the fetch is dropped. -/
def fetchTimesOut (sf : SingleFlight) (f : ℕ) (now : ℕ) : Option SingleFlight := do
  let fill ← sf.fills[f]?
  match fill.phase with
  | .fetching n =>
    let x ← sf.fetches[n]?
    if x.beganAt + RESOLVE_TIMEOUT ≤ now then
      some (sf.setPhase f fill
        (.cleaning n (.error (.transport "session resolve timed out after 5s"))))
    else none
  | _ => none

/-- The fetcher panics, or a deadline overflows: the clean-up is never reached. -/
def fetchPanics (sf : SingleFlight) (f : ℕ) : Option SingleFlight := do
  let fill ← sf.fills[f]?
  match fill.phase with
  | .fetching n => some (sf.setPhase f fill (.panicked n))
  | _ => none

def pending (sf : SingleFlight) (f : ℕ) : Option (Fill × ℕ × Entry) := do
  let fill ← sf.fills[f]?
  match fill.phase with
  | .storing n e => some (fill, n, e)
  | _ => none

/-- The clean-up at the end of the shared future. -/
def cleanUp (sf : SingleFlight) (f : ℕ) : Option SingleFlight := do
  let fill ← sf.fills[f]?
  match fill.phase with
  | .cleaning n r =>
    let held := ((sf.inflight.lookup fill.key).map fun (gid, _) => gid == fill.id).getD false
    some { sf.setPhase f fill (.done n r) with
      inflight := if held then sf.inflight.erase fill.key else sf.inflight }
  | _ => none

inductive FillEvent where
  | called
  | built (fetched : Option ResolvedSession) (jitter : Jitter) (wall : ℤ)
  | failed
  | panicked
  | put
  | cleaned
deriving DecidableEq

def returnEvent (jitter : Jitter) (wall : ℤ) : ResolveResult → FillEvent
  | .ok fetched => .built fetched jitter wall
  | .error _ => .failed

/-- What each step of fill `f` of `key` does to its phase and to the fetch log. -/
inductive Next (cfg : ResolverConfig) (now f : ℕ) (key : TokenHash) :
    FillEvent → Phase → List Fetch → Phase → List Fetch → Prop
  | call (log) : Next cfg now f key .called .registered log
      (.fetching log.length) (log ++ [⟨f, key, now, none⟩])
  | fetched (n fetched jitter wall log) : Next cfg now f key (.built fetched jitter wall)
      (.fetching n) log (.storing n (fillEntry cfg now jitter wall fetched))
      (log.modify n (·.returns (.ok fetched)))
  | failed (n e log) : Next cfg now f key .failed (.fetching n) log (.cleaning n (.error e))
      (log.modify n (·.returns (.error e)))
  | timedOut (n msg log) : Next cfg now f key .failed (.fetching n) log
      (.cleaning n (.error (.transport msg))) log
  | panicked (n log) : Next cfg now f key .panicked (.fetching n) log (.panicked n) log
  | stored (n e log) : Next cfg now f key .put (.storing n e) log (.cleaning n (.ok e)) log
  | cleaned (n r log) : Next cfg now f key .cleaned (.cleaning n r) log (.done n r) log

/-- Everything a step of the resolver can do to its single flight, with the fill
that moves. -/
inductive Move (cfg : ResolverConfig) (now : ℕ) (sf : SingleFlight) :
    Option (ℕ × FillEvent) → SingleFlight → Prop
  | stay : Move cfg now sf none sf
  | register (key) (h : sf.inflight.lookup key = none) : Move cfg now sf none (sf.register key)
  | advance (f event fill phase log) (hf : sf.fills[f]? = some fill)
      (hn : Next cfg now f fill.key event fill.phase sf.fetches phase log)
      (hlive : event ≠ .cleaned) :
      Move cfg now sf (some (f, event)) { sf.setPhase f fill phase with fetches := log }
  | clean (f fill n r) (hf : sf.fills[f]? = some fill) (hp : fill.phase = .cleaning n r) :
      Move cfg now sf (some (f, .cleaned)) { sf.setPhase f fill (.done n r) with
        inflight :=
          if ((sf.inflight.lookup fill.key).map fun (gid, _) => gid == fill.id).getD false then
            sf.inflight.erase fill.key
          else sf.inflight }

theorem run_move (cfg : ResolverConfig) (now : ℕ) (sf : SingleFlight) (key : TokenHash) :
    Move cfg now sf none (sf.run key).1 := by
  unfold run
  split
  · exact .stay
  · exact .register key ‹_›

theorem run_joined (sf : SingleFlight) (key : TokenHash) :
    ∃ id, (sf.run key).1.inflight.lookup key = some (id, (sf.run key).2) := by
  unfold run
  split
  · rename_i id f h
    exact ⟨id,h⟩
  · exact ⟨sf.nextId, by simp [register]⟩

theorem callFetch_eq {sf sf' : SingleFlight} {f now : ℕ} (h : sf.callFetch f now = some sf') :
    ∃ fill, sf.fills[f]? = some fill ∧ fill.phase = .registered ∧
      sf' = { sf.setPhase f fill (.fetching sf.fetches.length) with
        fetches := sf.fetches ++ [⟨f, fill.key, now, none⟩] } := by
  simp only [callFetch, Option.bind_eq_bind, Option.bind_eq_some_iff] at h
  obtain ⟨fill,hf,h⟩ := h
  split at h
  · rename_i hp
    exact ⟨fill,hf,hp,(Option.some.inj h).symm⟩
  · cases h

/-- The phase after a fetch has returned in time. -/
def afterReturn (cfg : ResolverConfig) (now n : ℕ) (jitter : Jitter) (wall : ℤ) : ResolveResult → Phase
  | .ok fetched => .storing n (fillEntry cfg now jitter wall fetched)
  | .error e => .cleaning n (.error e)

theorem fetchReturns_eq {cfg : ResolverConfig} {sf sf' : SingleFlight} {f now : ℕ}
    {returned : ResolveResult} {jitter : Jitter} {wall : ℤ}
    (h : sf.fetchReturns cfg f returned now jitter wall = some sf') :
    ∃ fill n, sf.fills[f]? = some fill ∧ fill.phase = .fetching n ∧
      sf' = { sf.setPhase f fill (afterReturn cfg now n jitter wall returned) with
        fetches := sf.fetches.modify n (·.returns returned) } := by
  simp only [fetchReturns, Option.bind_eq_bind, Option.bind_eq_some_iff] at h
  obtain ⟨fill,hf,h⟩ := h
  split at h
  · rename_i n hp
    refine ⟨fill,n,hf,hp,?_⟩
    cases returned <;> exact (Option.some.inj h).symm
  · cases h

theorem fetchTimesOut_eq {sf sf' : SingleFlight} {f now : ℕ} (h : sf.fetchTimesOut f now = some sf') :
    ∃ fill n x, sf.fills[f]? = some fill ∧ fill.phase = .fetching n ∧ sf.fetches[n]? = some x ∧
      x.beganAt + RESOLVE_TIMEOUT ≤ now ∧ sf' = sf.setPhase f fill
        (.cleaning n (.error (.transport "session resolve timed out after 5s"))) := by
  simp only [fetchTimesOut, Option.bind_eq_bind, Option.bind_eq_some_iff] at h
  obtain ⟨fill,hf,h⟩ := h
  split at h
  · rename_i n hp
    obtain ⟨x,hx,h⟩ := Option.bind_eq_some_iff.mp h
    split at h
    · exact ⟨fill,n,x,hf,hp,hx,‹_›,(Option.some.inj h).symm⟩
    · cases h
  · cases h

theorem fetchPanics_eq {sf sf' : SingleFlight} {f : ℕ} (h : sf.fetchPanics f = some sf') :
    ∃ fill n, sf.fills[f]? = some fill ∧ fill.phase = .fetching n ∧
      sf' = sf.setPhase f fill (.panicked n) := by
  simp only [fetchPanics, Option.bind_eq_bind, Option.bind_eq_some_iff] at h
  obtain ⟨fill,hf,h⟩ := h
  split at h
  · rename_i n hp
    exact ⟨fill,n,hf,hp,(Option.some.inj h).symm⟩
  · cases h

theorem pending_eq {sf : SingleFlight} {f n : ℕ} {fill : Fill} {e : Entry}
    (h : sf.pending f = some (fill, n, e)) :
    sf.fills[f]? = some fill ∧ fill.phase = .storing n e := by
  simp only [pending, Option.bind_eq_bind, Option.bind_eq_some_iff] at h
  obtain ⟨fill',hf,h⟩ := h
  split at h
  · rename_i n' e' hp
    cases h
    exact ⟨hf,hp⟩
  · cases h

theorem cleanUp_eq {sf sf' : SingleFlight} {f : ℕ} (h : sf.cleanUp f = some sf') :
    ∃ fill n r, sf.fills[f]? = some fill ∧ fill.phase = .cleaning n r ∧
      sf' = { sf.setPhase f fill (.done n r) with
        inflight :=
          if ((sf.inflight.lookup fill.key).map fun (gid, _) => gid == fill.id).getD false then
            sf.inflight.erase fill.key
          else sf.inflight } := by
  simp only [cleanUp, Option.bind_eq_bind, Option.bind_eq_some_iff] at h
  obtain ⟨fill,hf,h⟩ := h
  split at h
  · rename_i n r hp
    exact ⟨fill,n,r,hf,hp,(Option.some.inj h).symm⟩
  · cases h

theorem callFetch_move (cfg : ResolverConfig) {sf sf' : SingleFlight} {f now : ℕ}
    (h : sf.callFetch f now = some sf') : Move cfg now sf (some (f, .called)) sf' := by
  obtain ⟨fill,hf,hp,rfl⟩ := callFetch_eq h
  exact .advance f .called fill _ _ hf (hp ▸ .call _) nofun

theorem fetchReturns_move {cfg : ResolverConfig} {sf sf' : SingleFlight} {f now : ℕ}
    {returned : ResolveResult} {jitter : Jitter} {wall : ℤ}
    (h : sf.fetchReturns cfg f returned now jitter wall = some sf') :
    Move cfg now sf (some (f, returnEvent jitter wall returned)) sf' := by
  obtain ⟨fill,n,hf,hp,rfl⟩ := fetchReturns_eq h
  cases returned with
  | ok fetched => exact .advance f _ fill _ _ hf (hp ▸ .fetched n fetched jitter wall _) nofun
  | error e => exact .advance f .failed fill _ _ hf (hp ▸ .failed n e _) nofun

theorem fetchTimesOut_move (cfg : ResolverConfig) {sf sf' : SingleFlight} {f now : ℕ}
    (h : sf.fetchTimesOut f now = some sf') : Move cfg now sf (some (f, .failed)) sf' := by
  obtain ⟨fill,n,x,hf,hp,-,-,rfl⟩ := fetchTimesOut_eq h
  exact .advance f .failed fill _ _ hf (hp ▸ .timedOut n _ _) nofun

theorem fetchPanics_move (cfg : ResolverConfig) (now : ℕ) {sf sf' : SingleFlight} {f : ℕ}
    (h : sf.fetchPanics f = some sf') : Move cfg now sf (some (f, .panicked)) sf' := by
  obtain ⟨fill,n,hf,hp,rfl⟩ := fetchPanics_eq h
  exact .advance f .panicked fill _ _ hf (hp ▸ .panicked n _) nofun

theorem pending_move (cfg : ResolverConfig) (now : ℕ) {sf : SingleFlight} {f n : ℕ} {fill : Fill}
    {e : Entry} (h : sf.pending f = some (fill, n, e)) :
    Move cfg now sf (some (f, .put)) (sf.setPhase f fill (.cleaning n (.ok e))) := by
  obtain ⟨hf,hp⟩ := pending_eq h
  exact .advance f .put fill _ _ hf (hp ▸ .stored n e _) nofun

theorem cleanUp_move (cfg : ResolverConfig) (now : ℕ) {sf sf' : SingleFlight} {f : ℕ}
    (h : sf.cleanUp f = some sf') : Move cfg now sf (some (f, .cleaned)) sf' := by
  obtain ⟨fill,n,r,hf,hp,rfl⟩ := cleanUp_eq h
  exact .clean f fill n r hf hp

end SingleFlight
end NioClient.Session
