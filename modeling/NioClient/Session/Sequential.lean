import NioClient.Session.LruRefinement
import NioClient.Session.Reference
import NioClient.Session.Resolver

/-! # Sequential histories of the resolver

When each resolve, evict and spawned refresh runs to completion before the next
one starts, the order of its sections is forced. The schedule of a history in the
concurrent system follows that order, and the system then does what the reference
cache does.
-/
namespace NioClient.Session
open Execution RecencyList

def Trip.start : Trip → ℕ
  | .returns start _ _ _ _ | .timesOut start _ _ => start

def Trip.delay : Trip → ℕ
  | .returns _ delay _ _ _ | .timesOut _ delay _ => delay

/-- The sections of fill `f` from the end of its fetch to its clean-up. -/
def Trip.ends (f : ℕ) : Trip → List Act
  | .returns _ _ (.ok fetched) jitter wall => [.fetchReturns f (.ok fetched) jitter wall,.put f]
  | .returns _ _ (.error e) jitter wall => [.fetchReturns f (.error e) jitter wall]
  | .timesOut _ _ _ => [.fetchTimesOut f]

/-- From `SingleFlight::run` on, with caller `c` the leader of fill `f`. -/
def Trip.acts (c f : ℕ) (trip : Trip) : List Act :=
  [.tick trip.start,.run c,.callFetch f,.tick trip.delay] ++ trip.ends f ++ [.cleanUp f,.receive c]

def Caller.spawned (key : TokenHash) : Caller := ⟨key,.refresh,.flying none⟩

/-- The sections of one event. Where the source branches on what it reads, only the
branch which it takes is enabled. -/
def schedule (s : State) : Op → List Act
  | .tick d => [.tick d]
  | .evict key => [.evict key]
  | .resolve key wall trip =>
    let c := s.callers.length
    let misses := .captureStale c :: trip.acts c s.flight.fills.length
    let rest := match (s.cache.get key).1 with
      | none => misses
      | some hit =>
        match judge hit.entry s.now wall with
        | .expired => .forcedMiss c :: misses
        | .stale => misses
        | .hit _ => []
    .resolve key wall :: .lookup c :: rest
  | .refresh key trip =>
    match s.callers.findIdx? (· = Caller.spawned key) with
    | some c => trip.acts c s.flight.fills.length
    | none => []

def perform (cfg : ResolverConfig) (s : State) (op : Op) : Option State :=
  exec (step cfg) s (schedule s op)

def Fetch.summary (x : Fetch) : FetchSummary := (x.key,x.beganAt,x.returned)

def Caller.answer? (x : Caller) : Option ResolveResult :=
  match x.kind, x.phase with
  | .resolve _ _, .answered a _ => some a
  | _, _ => none

def State.answers (s : State) : List ResolveResult := s.callers.filterMap Caller.answer?

@[simp] theorem set_concat {α : Type} (xs : List α) (x y : α) :
    (xs ++ [x]).set xs.length y = xs ++ [y] := by
  rw [List.set_append_right _ _ (Nat.le_refl _), Nat.sub_self]
  rfl

@[simp] theorem modify_concat {α : Type} (xs : List α) (x : α) (g : α → α) :
    (xs ++ [x]).modify xs.length g = xs ++ [g x] := by
  rw [List.modify_eq_take_drop]
  simp

theorem filterMap_set {α β : Type} {xs : List α} {n : ℕ} {x y : α} {g : α → Option β}
    (hx : xs[n]? = some x) (hg : g y = g x) : (xs.set n y).filterMap g = xs.filterMap g := by
  have hmap : (xs.set n y).map g = xs.map g := by
    rw [List.map_set]
    refine List.ext_getElem? fun m => ?_
    rw [List.getElem?_set]
    split
    · rename_i hm
      subst hm
      obtain ⟨hlt,rfl⟩ := List.getElem?_eq_some_iff.mp hx
      simp [hlt, hg]
    · rfl
  have hid := congrArg (List.filterMap id) hmap
  simpa only [List.filterMap_map, Function.id_comp] using hid

/-- The reference's account of the cache, the clock and the fetches. -/
structure Agrees (cfg : ResolverConfig) (s : State) (r : Reference) : Prop where
  now : s.now = r.now
  cache : ∃ es, s.cache.Refines es ∧ mapValues Cached.entry es = r.entries
  capacity : s.cache.capacity = cfg.capacity
  idle : ∀ key, s.flight.inflight.lookup key = none
  fetches : s.flight.fetches.map Fetch.summary = r.fetches

/-- The reference's account of the callers between two events. -/
structure Accounts (callers : List Caller) (r : Reference) : Prop where
  answers : callers.filterMap Caller.answer? = r.answers
  spawned : ∀ key, callers.count (Caller.spawned key) = r.spawned.count key

variable {cfg : ResolverConfig} {s u : State} {r : Reference} {cs : List Caller} {c : ℕ}
  {key : TokenHash} {kind : CallerKind} {stale : Option Candidate} {wall : ℤ} {trip : Trip}

theorem Accounts.answered (h : Accounts cs r) (key : TokenHash) (now : ℕ) (wall : ℤ)
    (a : ResolveResult) (source : Source) :
    Accounts (cs ++ [⟨key,.resolve now wall,.answered a source⟩]) (r.answer a) := by
  refine ⟨?_,fun k => ?_⟩
  · rw [List.filterMap_append, h.answers]
    rfl
  · have hnot : Caller.spawned k ∉ [⟨key,.resolve now wall,.answered a source⟩] := by
      simp [Caller.spawned]
    rw [List.count_append, h.spawned, List.count_eq_zero.mpr hnot]
    rfl

theorem Accounts.spawn (h : Accounts cs r) (key : TokenHash) :
    Accounts (cs ++ [Caller.spawned key]) (r.spawn key) := by
  refine ⟨?_,fun k => ?_⟩
  · rw [List.filterMap_append, h.answers]
    exact List.append_nil _
  · rw [List.count_append, h.spawned, Reference.spawn, List.count_append]
    simp [List.count_singleton, Caller.spawned]

theorem Accounts.ran (h : Accounts cs r) (hc : cs[c]? = some (Caller.spawned key))
    (a : ResolveResult) (source : Source) :
    Accounts (cs.set c ⟨key,.refresh,.answered a source⟩)
      { r with spawned := r.spawned.erase key } := by
  refine ⟨?_,fun k => ?_⟩
  · have hsame : Caller.answer? ⟨key,.refresh,.answered a source⟩ =
        Caller.answer? (Caller.spawned key) := rfl
    rw [filterMap_set hc hsame, h.answers]
  · obtain ⟨hlt,hget⟩ := List.getElem?_eq_some_iff.mp hc
    rw [List.count_set hlt, hget, h.spawned, List.count_erase]
    simp [Caller.spawned]

/-- What the fill of a trip decided on at `now` comes to. -/
def Trip.result (cfg : ResolverConfig) (now : ℕ) : Trip → Except ResolveError Entry
  | .returns start delay outcome jitter wall =>
    outcome.map (fillEntry cfg (now + start + delay) jitter wall)
  | .timesOut _ _ _ => .error (.transport "session resolve timed out after 5s")

def Trip.returned : Trip → Option ResolveResult
  | .returns _ _ outcome _ _ => some outcome
  | .timesOut _ _ _ => none

def State.leading (u : State) (c : ℕ) (x : Caller) (stale : Option Candidate) (trip : Trip)
    (cache : Lru TokenHash Cached) (phase : Phase) (returned : Option ResolveResult) : State where
  now := u.now + trip.start + trip.delay
  cache := cache
  flight :=
    { inflight := u.flight.inflight.insert x.key (u.flight.nextId,u.flight.fills.length)
      nextId := u.flight.nextId + 1
      fills := u.flight.fills ++ [⟨u.flight.nextId,x.key,phase⟩]
      fetches := u.flight.fetches ++
        [⟨u.flight.fills.length,x.key,u.now + trip.start,returned⟩] }
  callers := u.callers.set c { x with phase := .waiting u.flight.fills.length stale }

def State.stored (cfg : ResolverConfig) (u : State) (key : TokenHash) (trip : Trip) :
    Lru TokenHash Cached :=
  match trip.result cfg u.now with
  | .ok e => u.cache.put key ⟨e,u.flight.fetches.length⟩
  | .error _ => u.cache

def State.landed (cfg : ResolverConfig) (u : State) (c : ℕ) (x : Caller)
    (stale : Option Candidate) (trip : Trip) : State where
  now := u.now + trip.start + trip.delay
  cache := u.stored cfg x.key trip
  flight :=
    { inflight := (u.flight.inflight.insert x.key (u.flight.nextId,u.flight.fills.length)).erase x.key
      nextId := u.flight.nextId + 1
      fills := u.flight.fills ++
        [⟨u.flight.nextId,x.key,.done u.flight.fetches.length (trip.result cfg u.now)⟩]
      fetches := u.flight.fetches ++
        [⟨u.flight.fills.length,x.key,u.now + trip.start,trip.returned⟩] }
  callers := u.callers.set c
    { x with
      phase := State.conclude u.flight.fills.length u.flight.fetches.length (trip.result cfg u.now)
        stale }

theorem exec_begin {x : Caller} (hc : u.callers[c]? = some x) (hx : x.phase = .flying stale)
    (hidle : u.flight.inflight.lookup x.key = none) :
    exec (step cfg) u [.tick trip.start,.run c,.callFetch u.flight.fills.length,.tick trip.delay] =
      some (u.leading c x stale trip u.cache (.fetching u.flight.fetches.length) none) := by
  simp [exec_cons, step, State.run, hc, hx, SingleFlight.run, hidle, SingleFlight.register,
    State.setCaller, SingleFlight.callFetch, SingleFlight.setPhase, State.leading]

theorem exec_finish {x : Caller} {cache : Lru TokenHash Cached} {n : ℕ}
    {result : Except ResolveError Entry} {returned : Option ResolveResult} (hc : c < u.callers.length) :
    exec (step cfg) (u.leading c x stale trip cache (.cleaning n result) returned)
        [.cleanUp u.flight.fills.length,.receive c] =
      some { u.leading c x stale trip cache (.done n result) returned with
        flight.inflight :=
          (u.flight.inflight.insert x.key (u.flight.nextId,u.flight.fills.length)).erase x.key
        callers := u.callers.set c
          { x with phase := State.conclude u.flight.fills.length n result stale } } := by
  simp [exec_cons, step, SingleFlight.cleanUp, State.leading, SingleFlight.setPhase, State.receive,
    State.setCaller, hc]

/-- The timeout of the last fetch, not reduced to a comparison with five seconds. -/
theorem fetchTimesOut_last (inflight : AList fun _ : TokenHash => UInt64 × ℕ) (nextId id : UInt64)
    (fills : List Fill) (log : List Fetch) (key : TokenHash) (f began delay : ℕ)
    (h : RESOLVE_TIMEOUT ≤ delay) :
    (SingleFlight.mk inflight nextId (fills ++ [⟨id,key,.fetching log.length⟩])
      (log ++ [⟨f,key,began,none⟩])).fetchTimesOut fills.length (began + delay) =
    some ⟨inflight,nextId,fills ++ [⟨id,key,.cleaning log.length
      (.error (.transport "session resolve timed out after 5s"))⟩],log ++ [⟨f,key,began,none⟩]⟩ := by
  have hdue : began + RESOLVE_TIMEOUT ≤ began + delay := Nat.add_le_add_left h began
  rw [SingleFlight.fetchTimesOut, List.getElem?_concat_length, Option.bind_eq_bind, Option.bind_some]
  dsimp only
  rw [List.getElem?_concat_length, Option.bind_eq_bind, Option.bind_some, if_pos hdue,
    SingleFlight.setPhase, set_concat]

theorem exec_ends (u : State) (c : ℕ) (x : Caller) (stale : Option Candidate) (trip : Trip) :
    exec (step cfg) (u.leading c x stale trip u.cache (.fetching u.flight.fetches.length) none)
        (trip.ends u.flight.fills.length) =
      some (u.leading c x stale trip (u.stored cfg x.key trip)
        (.cleaning u.flight.fetches.length (trip.result cfg u.now)) trip.returned) := by
  match trip with
  | .returns start delay (.ok fetched) jitter wall =>
    simp [Trip.ends, exec_cons, step, State.leading, SingleFlight.fetchReturns, SingleFlight.setPhase,
      State.put, SingleFlight.pending, Fetch.returns, State.stored, Trip.result, Trip.returned,
      Except.map, Trip.start, Trip.delay]
  | .returns start delay (.error e) jitter wall =>
    simp [Trip.ends, exec_cons, step, State.leading, SingleFlight.fetchReturns, SingleFlight.setPhase,
      Fetch.returns, State.stored, Trip.result, Trip.returned, Except.map]
  | .timesOut start delay hdelay =>
    simp [Trip.ends, exec_cons, step, State.leading, Trip.start, Trip.delay, fetchTimesOut_last, hdelay,
      State.stored, Trip.result, Trip.returned]

theorem exec_trip {x : Caller} (hc : u.callers[c]? = some x) (hx : x.phase = .flying stale)
    (hidle : u.flight.inflight.lookup x.key = none) :
    exec (step cfg) u (trip.acts c u.flight.fills.length) = some (u.landed cfg c x stale trip) := by
  have hlt := (List.getElem?_eq_some_iff.mp hc).1
  rw [Trip.acts, exec_append, exec_append, exec_begin hc hx hidle, Option.bind_some, exec_ends,
    Option.bind_some, exec_finish hlt]
  rfl

theorem Agrees.landed (h : Agrees cfg u r) (c : ℕ) (x : Caller) (stale : Option Candidate)
    (trip : Trip) : Agrees cfg (u.landed cfg c x stale trip) (r.fetch cfg x.key trip).1 := by
  obtain ⟨hnow,⟨es,hrefines,hentries⟩,hcapacity,hidle,hfetches⟩ := h
  have hidle' : ∀ k, ((u.flight.inflight.insert x.key (u.flight.nextId,u.flight.fills.length)).erase
      x.key).lookup k = none := by
    intro k
    by_cases hk : k = x.key
    · rw [hk, AList.lookup_erase]
    · rw [AList.lookup_erase_ne hk, AList.lookup_insert_ne hk, hidle]
  have hsummary : ∀ y : Fetch,
      (u.flight.fetches ++ [y]).map Fetch.summary = r.fetches ++ [y.summary] := by
    intro y
    rw [List.map_append, hfetches]
    rfl
  match trip with
  | .returns start delay (.ok fetched) jitter wall =>
    refine ⟨?_,⟨_,hrefines.put x.key ⟨fillEntry cfg (u.now + start + delay) jitter wall fetched,
      u.flight.fetches.length⟩,?_⟩,?_,hidle',?_⟩
    · exact congrArg (· + start + delay) hnow
    · simp only [Reference.fetch, ← hnow, ← hentries, hcapacity]
      exact (store_mapValues Cached.entry x.key es cfg.capacity _).symm
    · exact (Lru.capacity_put ..).trans hcapacity
    · simp only [Reference.fetch, ← hnow]
      exact hsummary _
  | .returns start delay (.error e) jitter wall =>
    refine ⟨?_,⟨es,hrefines,hentries⟩,hcapacity,hidle',?_⟩
    · exact congrArg (· + start + delay) hnow
    · simp only [Reference.fetch, ← hnow]
      exact hsummary _
  | .timesOut start delay hdelay =>
    refine ⟨?_,⟨es,hrefines,hentries⟩,hcapacity,hidle',?_⟩
    · exact congrArg (· + start + delay) hnow
    · simp only [Reference.fetch, ← hnow]
      exact hsummary _

theorem Agrees.setCallers (h : Agrees cfg s r) (callers : List Caller) :
    Agrees cfg { s with callers } r := ⟨h.now,h.cache,h.capacity,h.idle,h.fetches⟩

theorem Agrees.answer (h : Agrees cfg s r) (a : ResolveResult) : Agrees cfg s (r.answer a) :=
  ⟨h.now,h.cache,h.capacity,h.idle,h.fetches⟩

theorem Agrees.spawn (h : Agrees cfg s r) (key : TokenHash) : Agrees cfg s (r.spawn key) :=
  ⟨h.now,h.cache,h.capacity,h.idle,h.fetches⟩

theorem Agrees.erase (h : Agrees cfg s r) (key : TokenHash) :
    Agrees cfg s { r with spawned := r.spawned.erase key } :=
  ⟨h.now,h.cache,h.capacity,h.idle,h.fetches⟩

theorem Agrees.remove (h : Agrees cfg s r) (key : TokenHash) :
    Agrees cfg { s with cache := s.cache.remove key } { r with entries := forget key r.entries } := by
  obtain ⟨es,hrefines,hentries⟩ := h.cache
  refine ⟨h.now,⟨_,hrefines.remove key,?_⟩,?_,h.idle,h.fetches⟩
  · rw [← forget_mapValues, hentries]
  · rw [Lru.capacity_remove, h.capacity]

theorem Agrees.get (h : Agrees cfg s r) (key : TokenHash) :
    ((s.cache.get key).1.map Cached.entry = find key r.entries) ∧
    Agrees cfg { s with cache := (s.cache.get key).2 } { r with entries := touch key r.entries } := by
  obtain ⟨es,hrefines,hentries⟩ := h.cache
  obtain ⟨hfind,htouch⟩ := hrefines.get key
  refine ⟨?_,h.now,⟨_,htouch,?_⟩,?_,h.idle,h.fetches⟩
  · rw [hfind, ← hentries, find_mapValues]
  · rw [← touch_mapValues, hentries]
  · rw [Lru.capacity_get, h.capacity]

theorem Agrees.candidate (h : Agrees cfg s r) (key : TokenHash) (wall : ℤ) :
    (s.candidate cfg key s.now wall).map Candidate.session = r.fallback cfg key wall := by
  obtain ⟨es,hrefines,hentries⟩ := h.cache
  have hfind : find key r.entries = (s.cache.peek key).map Cached.entry := by
    rw [← hentries, find_mapValues, hrefines.peek]
  rw [Reference.fallback, hfind, State.candidate, ← h.now]
  match s.cache.peek key with
  | none => rfl
  | some ⟨⟨none,_,_,_,_⟩,_⟩ => simp [staleCandidate]
  | some ⟨⟨some session,_,_,staleUntil,_⟩,_⟩ =>
    by_cases hzero : cfg.staleIfError = 0
    · simp [staleCandidate, hzero]
    · by_cases hvalid : wall < session.expiresAt ∧ s.now < staleUntil
      · simp [staleCandidate, hzero, hvalid, Nat.pos_of_ne_zero hzero]
      · have hnot : ¬ (0 < cfg.staleIfError ∧ s.now < staleUntil ∧ wall < session.expiresAt) :=
          fun hall => hvalid ⟨hall.2.2,hall.2.1⟩
        simp [staleCandidate, hzero, hvalid, hnot]

theorem Trip.result_outcome (cfg : ResolverConfig) (now : ℕ) (r : Reference) (key : TokenHash)
    (trip : Trip) : (trip.result cfg now).map Entry.outcome = (r.fetch cfg key trip).2 := by
  match trip with
  | .returns _ _ (.ok fetched) _ _ => exact congrArg Except.ok (fillEntry_outcome ..)
  | .returns _ _ (.error e) _ _ => rfl
  | .timesOut _ _ _ => rfl

theorem conclude_settle (f n : ℕ) (result : Except ResolveError Entry) (stale : Option Candidate) :
    ∃ source, State.conclude f n result stale =
      .answered (Reference.settle (result.map Entry.outcome) (stale.map Candidate.session)) source := by
  match result, stale with
  | .ok e, _ => exact ⟨_,rfl⟩
  | .error (.transport _), some x => exact ⟨_,rfl⟩
  | .error (.transport _), none => exact ⟨_,rfl⟩
  | .error (.backend _), _ => exact ⟨_,rfl⟩

theorem Accounts.fetch (h : Accounts cs r) (cfg : ResolverConfig) (key : TokenHash) (trip : Trip) :
    Accounts cs (r.fetch cfg key trip).1 := by
  cases trip <;> exact ⟨h.answers,h.spawned⟩

/-- The resolver after some events, and the reference after the same events. -/
structure Simulates (cfg : ResolverConfig) (s : State) (r : Reference) : Prop where
  agrees : Agrees cfg s r
  accounts : Accounts s.callers r

theorem Agrees.miss (h : Agrees cfg u r) (hcs : Accounts cs r)
    (hu : u.callers = cs ++ [⟨key,.resolve u.now wall,.missed⟩]) (trip : Trip) :
    ∃ t, exec (step cfg) u (.captureStale cs.length :: trip.acts cs.length u.flight.fills.length) =
        some t ∧ Simulates cfg t (r.miss cfg key wall trip) := by
  let stale := u.candidate cfg key u.now wall
  let x : Caller := ⟨key,.resolve u.now wall,.flying stale⟩
  have hcapture : step cfg u (.captureStale cs.length) = some { u with callers := cs ++ [x] } := by
    simp [step, State.captureStale, hu, State.setCaller, x, stale]
  have htrip : exec (step cfg) { u with callers := cs ++ [x] }
      (trip.acts cs.length u.flight.fills.length) =
      some ({ u with callers := cs ++ [x] }.landed cfg cs.length x stale trip) :=
    exec_trip List.getElem?_concat_length rfl (h.idle key)
  rw [exec_cons, hcapture, Option.bind_some, htrip]
  refine ⟨_,rfl,((h.setCallers _).landed cs.length x stale trip).answer _,?_⟩
  obtain ⟨source,hsource⟩ := conclude_settle u.flight.fills.length u.flight.fetches.length
    (trip.result cfg u.now) stale
  rw [Trip.result_outcome cfg u.now r key trip, h.candidate key wall] at hsource
  have hanswered := (hcs.fetch cfg key trip).answered key u.now wall
    (Reference.settle (r.fetch cfg key trip).2 (r.fallback cfg key wall)) source
  simp only [State.landed, set_concat, hsource]
  exact hanswered

/-- What the lookup of a new `resolve` leaves at the end of the callers. -/
def State.lookedUp (s : State) (key : TokenHash) (wall : ℤ) : List Caller :=
  let left := Caller.mk key (.resolve s.now wall)
  match (s.cache.get key).1 with
  | none => [left .missed]
  | some hit =>
    match judge hit.entry s.now wall with
    | .expired => [left .expired]
    | .stale => [left .missed]
    | .hit refresh =>
      left (.answered (.ok hit.entry.outcome) (.l1 hit.fetch)) ::
        if refresh then [Caller.spawned key] else []

theorem exec_lookup (s : State) (key : TokenHash) (wall : ℤ) (as : List Act) :
    exec (step cfg) s (.resolve key wall :: .lookup s.callers.length :: as) =
      exec (step cfg) { s with
        cache := (s.cache.get key).2
        callers := s.callers ++ s.lookedUp key wall } as := by
  rw [State.lookedUp]
  cases hgot : (s.cache.get key).1 with
  | none => simp [exec_cons, step, State.resolve, State.lookup, hgot, State.setCaller]
  | some hit =>
    cases hjudge : judge hit.entry s.now wall with
    | hit refresh =>
      cases refresh <;>
      simp [exec_cons, step, State.resolve, State.lookup, hgot, hjudge, State.setCaller,
        State.spawnRefresh, Caller.spawned]
    | stale => simp [exec_cons, step, State.resolve, State.lookup, hgot, hjudge, State.setCaller]
    | expired => simp [exec_cons, step, State.resolve, State.lookup, hgot, hjudge, State.setCaller]

theorem Simulates.resolve (h : Simulates cfg s r) (key : TokenHash) (wall : ℤ) (trip : Trip) :
    ∃ t, perform cfg s (.resolve key wall trip) = some t ∧
      Simulates cfg t (r.resolve cfg key wall trip) := by
  obtain ⟨hfind,htouched⟩ := h.agrees.get key
  have hcs : Accounts s.callers { r with entries := touch key r.entries } :=
    ⟨h.accounts.answers,h.accounts.spawned⟩
  have hleft := fun xs => htouched.setCallers (s.callers ++ xs)
  rw [perform, schedule, exec_lookup, State.lookedUp, Reference.resolve, ← hfind]
  cases hgot : (s.cache.get key).1 with
  | none => exact (hleft _).miss hcs rfl trip
  | some hit =>
    dsimp only [Option.map_some]
    have hnow := h.agrees.now
    by_cases hwall : hit.entry.wallValid wall
    · by_cases hfresh : r.now < hit.entry.freshUntil
      · have hjudge : judge hit.entry s.now wall = .hit (hit.entry.refreshDue r.now) := by
          simp [judge, hwall, hnow, hfresh]
        rw [hjudge, if_pos hwall, if_pos hfresh]
        refine ⟨_,rfl,?_⟩
        have hanswered := hcs.answered key s.now wall (.ok hit.entry.outcome) (.l1 hit.fetch)
        cases hit.entry.refreshDue r.now with
        | false => exact ⟨(hleft _).answer _,hanswered⟩
        | true =>
          have hspawned := hanswered.spawn key
          rw [List.append_assoc] at hspawned
          exact ⟨((hleft _).answer _).spawn key,hspawned⟩
      · have hjudge : judge hit.entry s.now wall = .stale := by simp [judge, hwall, hnow, hfresh]
        rw [hjudge, if_pos hwall, if_neg hfresh]
        exact (hleft _).miss hcs rfl trip
    · have hjudge : judge hit.entry s.now wall = .expired := by simp [judge, hwall]
      rw [hjudge, if_neg hwall]
      dsimp only
      rw [exec_cons]
      have hforced : step cfg { s with
          cache := (s.cache.get key).2
          callers := s.callers ++ [⟨key,.resolve s.now wall,.expired⟩] } (.forcedMiss s.callers.length) =
          some { s with
            cache := (s.cache.get key).2.remove key
            callers := s.callers ++ [⟨key,.resolve s.now wall,.missed⟩] } := by
        simp [step, State.forcedMiss, State.setCaller]
      rw [hforced]
      exact ((hleft _).remove key).miss ⟨hcs.answers,hcs.spawned⟩ rfl trip

theorem Simulates.refresh (h : Simulates cfg s r) (key : TokenHash) (trip : Trip) :
    ∃ t, perform cfg s (.refresh key trip) = some t ∧ Simulates cfg t (r.refresh cfg key trip) := by
  have hcount := h.accounts.spawned key
  rw [perform, schedule, Reference.refresh]
  cases hfind : s.callers.findIdx? (· = Caller.spawned key) with
  | none =>
    have habsent : Caller.spawned key ∉ s.callers := by
      intro hmem
      simpa using List.findIdx?_eq_none_iff.mp hfind _ hmem
    have hnot : key ∉ r.spawned := by
      rw [← List.count_eq_zero, ← hcount, List.count_eq_zero.mpr habsent]
    rw [if_neg hnot]
    exact ⟨s,rfl,h⟩
  | some c =>
    obtain ⟨hlt,hget,-⟩ := List.findIdx?_eq_some_iff_getElem.mp hfind
    have hc : s.callers[c]? = some (Caller.spawned key) := by
      rw [List.getElem?_eq_getElem hlt]
      simpa using hget
    have hmem : key ∈ r.spawned := by
      rw [← List.count_pos_iff, ← hcount, List.count_pos_iff]
      exact List.mem_of_getElem? hc
    rw [if_pos hmem]
    refine ⟨_,exec_trip hc rfl (h.agrees.idle key),?_,?_⟩
    · exact (h.agrees.erase key).landed c (Caller.spawned key) none trip
    · obtain ⟨source,hsource⟩ := conclude_settle s.flight.fills.length s.flight.fetches.length
        (trip.result cfg s.now) none
      simp only [State.landed, hsource]
      exact (h.accounts.ran hc _ source).fetch cfg key trip

/-- One event of the resolver is one event of the reference. -/
protected theorem Simulates.perform (h : Simulates cfg s r) (op : Op) :
    ∃ t, perform cfg s op = some t ∧ Simulates cfg t (r.apply cfg op) := by
  cases op with
  | tick d =>
    refine ⟨_,rfl,⟨?_,h.agrees.cache,h.agrees.capacity,h.agrees.idle,h.agrees.fetches⟩,
      h.accounts.answers,h.accounts.spawned⟩
    exact congrArg (· + d) h.agrees.now
  | evict key => exact ⟨_,rfl,h.agrees.remove key,h.accounts.answers,h.accounts.spawned⟩
  | resolve key wall trip => exact h.resolve key wall trip
  | refresh key trip => exact h.refresh key trip

theorem simulates_init (cfg : ResolverConfig) : Simulates cfg (init cfg) .start :=
  ⟨⟨rfl,⟨[],Lru.refines_new _,rfl⟩,rfl,fun _ => rfl,rfl⟩,rfl,fun _ => rfl⟩

theorem Simulates.replay (h : Simulates cfg s r) (history : List Op) :
    ∃ t, exec (perform cfg) s history = some t ∧
      Simulates cfg t (history.foldl (Reference.apply cfg) r) := by
  induction history generalizing s r with
  | nil => exact ⟨s,rfl,h⟩
  | cons op history ih =>
    obtain ⟨m,hm,hsim⟩ := h.perform op
    obtain ⟨t,ht,hsim⟩ := ih hsim
    exact ⟨t,by rw [exec_cons, hm]; exact ht,hsim⟩

/-- Events one after the other are one run of the concurrent system. -/
theorem exec_perform {t : State} {history : List Op}
    (h : exec (perform cfg) s history = some t) : ∃ acts, exec (step cfg) s acts = some t := by
  induction history generalizing s with
  | nil => exact ⟨[],h⟩
  | cons op history ih =>
    obtain ⟨m,hm,hrest⟩ := exec_cons_iff.mp h
    obtain ⟨acts,hacts⟩ := ih hrest
    exact ⟨schedule s op ++ acts,exec_append_iff.mpr ⟨m,hm,hacts⟩⟩

/-- A sequential history gives the answers of the reference cache, from the fetches
which the reference makes. -/
theorem sequential_refinement (cfg : ResolverConfig) (history : List Op) :
    ∃ acts s, Run cfg acts s ∧ exec (perform cfg) (init cfg) history = some s ∧
      s.answers = (Reference.replay cfg history).answers ∧
      s.flight.fetches.map Fetch.summary = (Reference.replay cfg history).fetches := by
  obtain ⟨s,hs,hsim⟩ := (simulates_init cfg).replay history
  obtain ⟨acts,hacts⟩ := exec_perform hs
  exact ⟨acts,s,hacts,hs,hsim.accounts.answers,hsim.agrees.fetches⟩

end NioClient.Session
