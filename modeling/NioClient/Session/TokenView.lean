import NioClient.Library.Selection
import NioClient.Session.Retention
import NioClient.Session.Token

/-! # What the resolver shows of one token

The view of a key leaves out every other key: the generations of the LRU, the ids,
and the numbers under which the fills, callers and fetches of all keys are counted.
-/
namespace NioClient.Session
open Execution Selection
variable {cfg : ResolverConfig} {s t : State} {a : Act} {pre acts : List Act} {key : TokenHash}

def Caller.ofKey (key : TokenHash) (x : Caller) : Bool := x.key = key
def Fill.ofKey (key : TokenHash) (x : Fill) : Bool := x.key = key

@[simp] theorem Caller.ofKey_iff {x : Caller} : x.ofKey key = true ↔ x.key = key := by simp [ofKey]
@[simp] theorem Fill.ofKey_iff {x : Fill} : x.ofKey key = true ↔ x.key = key := by simp [ofKey]

def seeFill (log : List Fetch) : Phase → FillStage
  | .registered => .registered
  | .fetching n => .fetching (((log[n]?).map Fetch.beganAt).getD 0)
  | .storing _ e => .storing e
  | .cleaning _ r => .cleaning r
  | .done _ r => .done r
  | .panicked _ => .panicked

def Candidate.fallback (x : Candidate) : ResolvedSession × ℕ := (x.session, x.fetchedAt)

/-- Fills are known by their places among the fills of the key. -/
def seeCaller (key : TokenHash) (fills : List Fill) : CallerPhase → CallStage
  | .started => .started
  | .expired => .expired
  | .missed => .missed
  | .flying stale => .flying (stale.map Candidate.fallback)
  | .waiting f stale => .waiting (place (Fill.ofKey key) fills f) (stale.map Candidate.fallback)
  | .answered answer _ => .answered answer
  | .cancelled => .cancelled
  | .panicked => .panicked

def seeFetch (key : TokenHash) (x : Fetch) : Option ℕ := if x.key = key then some x.beganAt else none

def SingleFlight.place (sf : SingleFlight) (key : TokenHash) (f : ℕ) : ℕ :=
  Selection.place (Fill.ofKey key) sf.fills f

def State.place (s : State) (key : TokenHash) (c : ℕ) : ℕ := Selection.place (Caller.ofKey key) s.callers c

def view (key : TokenHash) (s : State) : Token where
  cached := (s.cache.peek key).map Cached.entry
  flight := (s.flight.inflight.lookup key).map fun x => s.flight.place key x.2
  fills := (s.flight.fills.filter (Fill.ofKey key)).map fun x => seeFill s.flight.fetches x.phase
  fetches := s.flight.fetches.filterMap (seeFetch key)
  callers := (s.callers.filter (Caller.ofKey key)).map fun x => (x.kind, seeCaller key s.flight.fills x.phase)

/-- What the action is for the token of `key`, if it is about that token. -/
def observe (key : TokenHash) (s : State) : Act → Option Event
  | .tick _ => none
  | .resolve key' wall => if key' = key then some (.resolve s.now wall) else none
  | .lookup c => caller c .lookup
  | .forcedMiss c => caller c .forcedMiss
  | .captureStale c => caller c .captureStale
  | .run c => caller c .run
  | .receive c => caller c .receive
  | .cancel c => caller c .cancel
  | .callFetch f => fill f fun f => .callFetch f s.now
  | .fetchReturns f returned jitter wall => fill f fun f => .fetchReturns f returned s.now jitter wall
  | .fetchTimesOut f => fill f fun f => .fetchTimesOut f s.now
  | .fetchPanics f => fill f .fetchPanics
  | .put f => fill f .put
  | .cleanUp f => fill f .cleanUp
  | .evict key' => if key' = key then some .evict else none
where
  caller (c : ℕ) (event : ℕ → Event) : Option Event :=
    (s.callers[c]?).bind fun x => if x.key = key then some (event (s.place key c)) else none
  fill (f : ℕ) (event : ℕ → Event) : Option Event :=
    (s.flight.fills[f]?).bind fun x => if x.key = key then some (event (s.flight.place key f)) else none

theorem observe_caller {c : ℕ} {x : Caller} (hx : s.callers[c]? = some x) (event : ℕ → Event) :
    observe.caller key s c event = if x.key = key then some (event (s.place key c)) else none := by
  rw [observe.caller, hx, Option.bind_some]

theorem observe_fill {f : ℕ} {x : Fill} (hx : s.flight.fills[f]? = some x) (event : ℕ → Event) :
    observe.fill key s f event = if x.key = key then some (event (s.flight.place key f)) else none := by
  rw [observe.fill, hx, Option.bind_some]

theorem view_caller {c : ℕ} {x : Caller} (hx : s.callers[c]? = some x) (hkey : x.key = key) :
    (view key s).callers[s.place key c]? = some (x.kind, seeCaller key s.flight.fills x.phase) := by
  have hplace := getElem?_place (p := Caller.ofKey key) hx (Caller.ofKey_iff.mpr hkey)
  rw [view, List.getElem?_map, State.place, hplace]
  rfl

theorem view_fill {f : ℕ} {x : Fill} (hx : s.flight.fills[f]? = some x) (hkey : x.key = key) :
    (view key s).fills[s.flight.place key f]? = some (seeFill s.flight.fetches x.phase) := by
  have hplace := getElem?_place (p := Fill.ofKey key) hx (Fill.ofKey_iff.mpr hkey)
  rw [view, List.getElem?_map, SingleFlight.place, hplace]
  rfl

theorem view_setCaller {c : ℕ} {x : Caller} {phase : CallerPhase} (hx : s.callers[c]? = some x)
    (hkey : x.key = key) : view key (s.setCaller c x phase) =
      (view key s).setCaller (s.place key c) x.kind (seeCaller key s.flight.fills phase) := by
  have hset := filter_set (p := Caller.ofKey key) (y := { x with phase }) hx (Caller.ofKey_iff.mpr hkey)
    (Caller.ofKey_iff.mpr hkey)
  simp only [view, State.setCaller, Token.setCaller, hset, List.map_set]
  rfl

theorem view_setCaller_other {c : ℕ} {x : Caller} {phase : CallerPhase} (hx : s.callers[c]? = some x)
    (hkey : x.key ≠ key) : view key (s.setCaller c x phase) = view key s := by
  have hset := filter_set_of_not (p := Caller.ofKey key) (y := { x with phase }) hx
    (by simpa using hkey) (by simpa using hkey)
  simp only [view, State.setCaller, hset]

theorem view_spawn (s : State) (key' : TokenHash) : view key (s.spawnRefresh key') =
    if key' = key then { view key s with callers := (view key s).callers ++ [(.refresh, .flying none)] }
    else view key s := by
  split
  · rename_i hkey
    simp [view, State.spawnRefresh, Caller.ofKey, hkey, seeCaller]
  · rename_i hkey
    simp [view, State.spawnRefresh, Caller.ofKey, hkey]

@[simp] theorem place_setPhase {sf : SingleFlight} {f : ℕ} {x : Fill} {phase : Phase}
    (hx : sf.fills[f]? = some x) (g : ℕ) : (sf.setPhase f x phase).place key g = sf.place key g :=
  place_set (p := Fill.ofKey key) (y := { x with phase }) hx rfl g

theorem seeCaller_setPhase {sf : SingleFlight} {f : ℕ} {x : Fill} {phase : Phase}
    (hx : sf.fills[f]? = some x) : seeCaller key (sf.setPhase f x phase).fills = seeCaller key sf.fills := by
  funext p
  cases p with
  | waiting g stale => exact congrArg (CallStage.waiting · _) (place_setPhase hx g)
  | _ => rfl

theorem view_advance {f : ℕ} {x : Fill} {phase : Phase} (hx : s.flight.fills[f]? = some x)
    (hkey : x.key = key) {log : List Fetch}
    (hlog : ∀ y ∈ s.flight.fills, seeFill log y.phase = seeFill s.flight.fetches y.phase) :
    view key { s with flight := { s.flight.setPhase f x phase with fetches := log } } =
      { (view key s).setFill (s.flight.place key f) (seeFill log phase) with
        fetches := log.filterMap (seeFetch key) } := by
  have hset := filter_set (p := Fill.ofKey key) (y := { x with phase }) hx (Fill.ofKey_iff.mpr hkey)
    (Fill.ofKey_iff.mpr hkey)
  have hfills : (s.flight.fills.filter (Fill.ofKey key)).map (fun y => seeFill log y.phase) =
      (view key s).fills := List.map_congr_left fun y hy => hlog y (List.mem_filter.mp hy).1
  have hcallers : seeCaller key (s.flight.setPhase f x phase).fills = seeCaller key s.flight.fills :=
    seeCaller_setPhase hx
  have hplace (g : ℕ) : (s.flight.setPhase f x phase).place key g = s.flight.place key g :=
    place_setPhase hx g
  simp only [SingleFlight.setPhase, SingleFlight.place] at hcallers hplace
  simp only [view, Token.setFill, SingleFlight.setPhase, SingleFlight.place, hset, List.map_set, hcallers,
    hplace] at hfills ⊢
  rw [hfills]

theorem view_advance_other {f : ℕ} {x : Fill} {phase : Phase} (hx : s.flight.fills[f]? = some x)
    (hkey : x.key ≠ key) {log : List Fetch}
    (hlog : ∀ y ∈ s.flight.fills, seeFill log y.phase = seeFill s.flight.fetches y.phase)
    (hfetches : log.filterMap (seeFetch key) = s.flight.fetches.filterMap (seeFetch key)) :
    view key { s with flight := { s.flight.setPhase f x phase with fetches := log } } = view key s := by
  have hset := filter_set_of_not (p := Fill.ofKey key) (y := { x with phase }) hx
    (by simpa using hkey) (by simpa using hkey)
  have hfills : (s.flight.fills.filter (Fill.ofKey key)).map (fun y => seeFill log y.phase) =
      (view key s).fills := List.map_congr_left fun y hy => hlog y (List.mem_filter.mp hy).1
  have hcallers : seeCaller key (s.flight.setPhase f x phase).fills = seeCaller key s.flight.fills :=
    seeCaller_setPhase hx
  have hplace (g : ℕ) : (s.flight.setPhase f x phase).place key g = s.flight.place key g :=
    place_setPhase hx g
  simp only [SingleFlight.setPhase, SingleFlight.place] at hcallers hplace
  simp only [view, SingleFlight.setPhase, SingleFlight.place, hset, hcallers, hplace, hfetches] at hfills ⊢
  rw [hfills]

theorem seeFill_returns (log : List Fetch) (n : ℕ) (r : ResolveResult) (p : Phase) :
    seeFill (log.modify n (·.returns r)) p = seeFill log p := by
  cases p with
  | fetching m =>
    simp only [seeFill, List.getElem?_modify, Option.map_eq_map, Option.map_map]
    congr 3
    funext x
    by_cases hnm : n = m <;> simp [hnm, Fetch.returns]
  | _ => rfl

theorem seeFetch_returns (log : List Fetch) (n : ℕ) (r : ResolveResult) :
    (log.modify n (·.returns r)).filterMap (seeFetch key) = log.filterMap (seeFetch key) :=
  filterMap_modify (f := (·.returns r)) (fun _ => rfl) log n

/-- A new call is none that a fill awaits. -/
theorem seeFill_append (hl : s.flight.Logged cfg) (x : Fetch) :
    ∀ y ∈ s.flight.fills, seeFill (s.flight.fetches ++ [x]) y.phase = seeFill s.flight.fetches y.phase := by
  intro y hy
  obtain ⟨f,hf⟩ := List.getElem?_of_mem hy
  cases hp : y.phase with
  | fetching n =>
    obtain ⟨z,hz,-⟩ := hl.call f y n hf (by simp [hp, Phase.fetch?])
    have hlt := (List.getElem?_eq_some_iff.mp hz).1
    rw [seeFill, List.getElem?_append_left hlt, seeFill]
  | _ => rfl

theorem get_fst_sane (hsane : CacheSane cfg s) (key : TokenHash) :
    (s.cache.get key).1 = s.cache.peek key := by
  by_cases hcap : s.cache.capacity = 0
  · rw [hsane.2 (hsane.1.symm.trans hcap) key, Lru.get, if_pos hcap]
  · exact Lru.get_fst_eq hcap key

/-- The action is a step of the token, or the token does not notice it. -/
def Seen (cfg : ResolverConfig) (key : TokenHash) (s t : State) (a : Act) : Prop :=
  match observe key s a with
  | some event => (view key s).step cfg event = some (view key t)
  | none => view key t = view key s

theorem seen_caller {c : ℕ} {x : Caller} {event : ℕ → Event}
    (ha : observe key s a = observe.caller key s c event) (hx : s.callers[c]? = some x)
    (hown : x.key = key → (view key s).step cfg (event (s.place key c)) = some (view key t))
    (hother : x.key ≠ key → view key t = view key s) : Seen cfg key s t a := by
  rw [Seen, ha, observe_caller hx]
  by_cases hkey : x.key = key
  · rw [if_pos hkey]
    exact hown hkey
  · rw [if_neg hkey]
    exact hother hkey

theorem seen_fill {f : ℕ} {x : Fill} (event : ℕ → Event)
    (ha : observe key s a = observe.fill key s f event) (hx : s.flight.fills[f]? = some x)
    (hown : x.key = key → (view key s).step cfg (event (s.flight.place key f)) = some (view key t))
    (hother : x.key ≠ key → view key t = view key s) : Seen cfg key s t a := by
  rw [Seen, ha, observe_fill hx]
  by_cases hkey : x.key = key
  · rw [if_pos hkey]
    exact hown hkey
  · rw [if_neg hkey]
    exact hother hkey

@[simp] theorem view_get (s : State) (key key' : TokenHash) :
    view key { s with cache := (s.cache.get key').2 } = view key s := by
  simp [view]

theorem view_remove (s : State) (key key' : TokenHash) :
    view key { s with cache := s.cache.remove key' } =
      if key' = key then { view key s with cached := none } else view key s := by
  split
  · rename_i hkey
    simp [view, hkey]
  · rename_i hkey
    simp [view, Lru.peek_remove_ne (Ne.symm hkey)]

theorem resolve_seen (s : State) (key key' : TokenHash) (wall : ℤ) :
    Seen cfg key s (s.resolve key' wall) (.resolve key' wall) := by
  rw [Seen, observe]
  by_cases hkey : key' = key
  · rw [if_pos hkey]
    simp [view, State.resolve, Caller.ofKey, hkey, seeCaller, Token.step]
  · rw [if_neg hkey]
    simp [view, State.resolve, Caller.ofKey, hkey]

theorem evict_seen (s : State) (key key' : TokenHash) :
    Seen cfg key s { s with cache := s.cache.remove key' } (.evict key') := by
  rw [Seen, observe, view_remove]
  by_cases hkey : key' = key
  · rw [if_pos hkey, if_pos hkey]
    rfl
  · rw [if_neg hkey, if_neg hkey]

theorem view_afterLookup (s : State) {c : ℕ} {key : TokenHash} {now : ℕ} {wall : ℤ}
    (hx : s.callers[c]? = some ⟨key, .resolve now wall, .started⟩) :
    view key (s.afterLookup c key now wall) =
      let got := found (s.cache.get key).1 now wall
      let left := (view key s).setCaller (s.place key c) (.resolve now wall)
        (seeCaller key s.flight.fills got.1)
      if got.2 then { left with callers := left.callers ++ [(.refresh, .flying none)] } else left := by
  have hset (phase : CallerPhase) : view key (State.setCaller { s with cache := (s.cache.get key).2 } c
      ⟨key, .resolve now wall, .started⟩ phase) = _ := view_setCaller hx rfl
  rw [view_get] at hset
  dsimp only [State.afterLookup]
  split
  · rw [view_spawn, if_pos rfl, hset]
    rfl
  · exact hset _

theorem lookup_seen (hsane : CacheSane cfg s) {c : ℕ} (h : s.lookup c = some t) :
    Seen cfg key s t (.lookup c) := by
  obtain ⟨key',now,wall,hx,rfl⟩ := lookup_eq h
  refine seen_caller rfl hx ?_ ?_
  · rintro rfl
    have hcached : (view key' s).cached = (s.cache.peek key').map Cached.entry := rfl
    dsimp only [Token.step]
    rw [view_afterLookup s hx, get_fst_sane hsane, Token.lookup, view_caller hx rfl, hcached]
    cases s.cache.peek key' with
    | none => simp [found, seeCaller]
    | some hit => cases hjudge : judge hit.entry now wall <;> simp [found, seeCaller, hjudge]
  · intro hkey
    have hset : view key (State.setCaller { s with cache := (s.cache.get key').2 } c
        ⟨key', .resolve now wall, .started⟩ (found (s.cache.get key').1 now wall).1) =
          view key { s with cache := (s.cache.get key').2 } := view_setCaller_other hx hkey
    rw [view_get] at hset
    dsimp only [State.afterLookup]
    split
    · rw [view_spawn, if_neg hkey, hset]
    · exact hset

theorem forcedMiss_seen {c : ℕ} (h : s.forcedMiss c = some t) : Seen cfg key s t (.forcedMiss c) := by
  obtain ⟨x,hx,hphase,rfl⟩ := forcedMiss_eq h
  refine seen_caller rfl hx ?_ ?_
  · intro hkey
    dsimp only [Token.step]
    rw [view_caller hx hkey, hphase, view_setCaller (s := { s with cache := s.cache.remove x.key }) hx hkey,
      view_remove, if_pos hkey]
    rfl
  · intro hkey
    rw [view_setCaller_other (s := { s with cache := s.cache.remove x.key }) hx hkey, view_remove,
      if_neg hkey]

theorem candidate_view (cfg : ResolverConfig) (s : State) (key : TokenHash) (now : ℕ) (wall : ℤ) :
    (s.candidate cfg key now wall).map Candidate.fallback = staleCandidate cfg (view key s).cached now wall := by
  have hcached : (view key s).cached = (s.cache.peek key).map Cached.entry := rfl
  rw [hcached, State.candidate]
  cases s.cache.peek key with
  | none => simp [staleCandidate]
  | some x =>
    dsimp only [Option.bind_eq_bind, Option.bind_some, Option.map_some]
    cases staleCandidate cfg (some x.entry) now wall <;> rfl

theorem captureStale_seen {c : ℕ} (h : s.captureStale cfg c = some t) :
    Seen cfg key s t (.captureStale c) := by
  obtain ⟨x,now,wall,hx,hkind,hphase,rfl⟩ := captureStale_eq h
  refine seen_caller rfl hx ?_ fun hkey => view_setCaller_other hx hkey
  intro hkey
  dsimp only [Token.step]
  rw [view_caller hx hkey, hphase, hkind, view_setCaller hx hkey, hkind, hkey]
  dsimp only [seeCaller]
  rw [candidate_view]

theorem cancel_seen {c : ℕ} (h : s.cancel c = some t) : Seen cfg key s t (.cancel c) := by
  obtain ⟨x,f,stale,hx,hphase,rfl⟩ := cancel_eq h
  refine seen_caller rfl hx ?_ fun hkey => view_setCaller_other hx hkey
  intro hkey
  dsimp only [Token.step]
  rw [view_caller hx hkey, hphase, view_setCaller hx hkey]
  rfl

theorem conclude_view (fills : List Fill) (f n : ℕ) (result : Except ResolveError Entry)
    (stale : Option Candidate) : seeCaller key fills (State.conclude f n result stale) =
      Token.conclude result (stale.map Candidate.fallback) := by
  cases result with
  | ok e => rfl
  | error e =>
    simp only [State.conclude, Token.conclude]
    split
    · cases stale <;> rfl
    · rfl

theorem receive_seen (hrun : Run cfg pre s) {c : ℕ} (h : s.receive c = some t) :
    Seen cfg key s t (.receive c) := by
  obtain ⟨x,f,stale,fill,hx,hphase,hf,hcases⟩ := receive_eq h
  -- the fill is one of the caller's own key
  have hfill : fill.key = x.key := by
    have hok := run_callers hrun hx
    rw [CallerOk, hphase] at hok
    obtain ⟨⟨fill',hf',hkey⟩,-⟩ := hok
    cases hf.symm.trans hf'
    exact hkey
  refine seen_caller rfl hx ?_ ?_
  · intro hkey
    dsimp only [Token.step]
    rw [Token.receive, view_caller hx hkey, hphase]
    dsimp only [seeCaller]
    rw [← SingleFlight.place, view_fill hf (hfill.trans hkey)]
    rcases hcases with ⟨n,result,hp,rfl⟩ | ⟨n,hp,rfl⟩
    · rw [hp, view_setCaller hx hkey, conclude_view]
      rfl
    · rw [hp, view_setCaller hx hkey]
      rfl
  · intro hkey
    rcases hcases with ⟨n,result,-,rfl⟩ | ⟨n,-,rfl⟩
    · exact view_setCaller_other hx hkey
    · exact view_setCaller_other hx hkey

theorem place_register {sf : SingleFlight} {f : ℕ} (hf : f ≤ sf.fills.length) (key key' : TokenHash) :
    (sf.register key').place key f = sf.place key f := place_append hf _

/-- A new fill is none that a caller awaits. -/
theorem seeCaller_register (hrun : Run cfg pre s) (key' : TokenHash) :
    ∀ x ∈ s.callers, seeCaller key (s.flight.register key').fills x.phase =
      seeCaller key s.flight.fills x.phase := by
  intro x hx
  obtain ⟨c,hc⟩ := List.getElem?_of_mem hx
  have hok := run_callers hrun hc
  rw [CallerOk] at hok
  cases hp : x.phase with
  | waiting f stale =>
    rw [hp] at hok
    obtain ⟨⟨fill,hf,-⟩,-⟩ := hok
    have hlt := (List.getElem?_eq_some_iff.mp hf).1
    exact congrArg (CallStage.waiting · _) (place_register hlt.le key key')
  | _ => rfl

theorem view_register (hrun : Run cfg pre s) (key : TokenHash) :
    view key { s with flight := s.flight.register key } = { view key s with
      flight := some (view key s).fills.length
      fills := (view key s).fills ++ [FillStage.registered] } := by
  have hcallers : (s.callers.filter (Caller.ofKey key)).map
      (fun x => (x.kind, seeCaller key (s.flight.register key).fills x.phase)) = (view key s).callers := by
    refine List.map_congr_left fun x hx => ?_
    rw [seeCaller_register hrun key x (List.mem_filter.mp hx).1]
  have hlen : s.flight.place key s.flight.fills.length = (view key s).fills.length := by
    rw [SingleFlight.place, place_length, view, List.length_map]
  have hplace := (place_register (le_refl s.flight.fills.length) key key).trans hlen
  have hlook : (s.flight.register key).inflight.lookup key = some (s.flight.nextId,s.flight.fills.length) := by
    simp [SingleFlight.register]
  have hfills : (s.flight.register key).fills.filter (Fill.ofKey key) =
      s.flight.fills.filter (Fill.ofKey key) ++ [⟨s.flight.nextId, key, .registered⟩] := by
    simp [SingleFlight.register, Fill.ofKey]
  rw [view, hcallers, hlook, Option.map_some, hplace, hfills, List.map_append]
  rfl

theorem view_register_other (hrun : Run cfg pre s) {key' : TokenHash} (hkey : key' ≠ key) :
    view key { s with flight := s.flight.register key' } = view key s := by
  have hcallers : (s.callers.filter (Caller.ofKey key)).map
      (fun x => (x.kind, seeCaller key (s.flight.register key').fills x.phase)) = (view key s).callers := by
    refine List.map_congr_left fun x hx => ?_
    rw [seeCaller_register hrun key' x (List.mem_filter.mp hx).1]
  have hlook : (s.flight.register key').inflight.lookup key = s.flight.inflight.lookup key := by
    simp [SingleFlight.register, AList.lookup_insert_ne hkey.symm]
  have hflight : (s.flight.inflight.lookup key).map (fun x => (s.flight.register key').place key x.2) =
      (view key s).flight := by
    refine Option.map_congr fun x hx => ?_
    obtain ⟨fill,hf,-⟩ := (run_wellFormed hrun).owner key x.1 x.2 hx
    exact place_register (List.getElem?_eq_some_iff.mp hf).1.le key key'
  have hfills : (s.flight.register key').fills.filter (Fill.ofKey key) =
      s.flight.fills.filter (Fill.ofKey key) := by
    simp [SingleFlight.register, Fill.ofKey, hkey]
  rw [view, hcallers, hlook, hflight, hfills]
  rfl

theorem run_seen (hrun : Run cfg pre s) {c : ℕ} (h : s.run c = some t) : Seen cfg key s t (.run c) := by
  obtain ⟨x,stale,hx,hphase,rfl⟩ := run_eq h
  refine seen_caller rfl hx ?_ ?_
  · rintro rfl
    dsimp only [Token.step]
    rw [Token.run, view_caller hx rfl, hphase]
    have hflight : (view x.key s).flight =
        (s.flight.inflight.lookup x.key).map fun y => s.flight.place x.key y.2 := rfl
    dsimp only [seeCaller]
    rw [hflight, SingleFlight.run]
    cases hlook : s.flight.inflight.lookup x.key with
    | some y =>
      rw [view_setCaller hx rfl]
      rfl
    | none =>
      rw [view_setCaller (s := { s with flight := s.flight.register x.key }) hx rfl, view_register hrun]
      dsimp only [seeCaller]
      rw [← SingleFlight.place, place_register le_rfl, SingleFlight.place, place_length]
      simp [view, State.place]
  · intro hkey
    rw [view_setCaller_other (s := { s with flight := (s.flight.run x.key).1 }) hx hkey, SingleFlight.run]
    split
    · rfl
    · exact view_register_other hrun hkey

theorem callFetch_seen (hrun : Run cfg pre s) {f : ℕ} {flight : SingleFlight}
    (h : s.flight.callFetch f s.now = some flight) :
    Seen cfg key s { s with flight } (.callFetch f) := by
  obtain ⟨fill,hf,hp,rfl⟩ := SingleFlight.callFetch_eq h
  have hlog := seeFill_append (run_logged hrun) ⟨f, fill.key, s.now, none⟩
  refine seen_fill (fun g => .callFetch g s.now) rfl hf ?_ ?_
  · intro hkey
    dsimp only [Token.step]
    rw [view_fill hf hkey, hp, view_advance hf hkey hlog]
    simp [seeFill, seeFetch, hkey, view]
  · intro hkey
    exact view_advance_other hf hkey hlog (by simp [seeFetch, hkey])

theorem fetchReturns_seen {f : ℕ} {returned : ResolveResult} {jitter : Jitter} {wall : ℤ}
    {flight : SingleFlight} (h : s.flight.fetchReturns cfg f returned s.now jitter wall = some flight) :
    Seen cfg key s { s with flight } (.fetchReturns f returned jitter wall) := by
  obtain ⟨fill,n,hf,hp,rfl⟩ := SingleFlight.fetchReturns_eq h
  have hlog : ∀ y ∈ s.flight.fills, seeFill (s.flight.fetches.modify n (·.returns returned)) y.phase =
      seeFill s.flight.fetches y.phase := fun y _ => seeFill_returns _ n returned y.phase
  refine seen_fill (fun g => .fetchReturns g returned s.now jitter wall) rfl hf ?_ ?_
  · intro hkey
    dsimp only [Token.step, Token.fetchReturns]
    rw [view_fill hf hkey, hp, view_advance hf hkey hlog, seeFetch_returns]
    cases returned <;> rfl
  · intro hkey
    exact view_advance_other hf hkey hlog (seeFetch_returns _ n returned)

/-- A step of a fill that makes no call and writes no return. -/
theorem view_setPhase {f : ℕ} {x : Fill} {phase : Phase} (hx : s.flight.fills[f]? = some x)
    (hkey : x.key = key) : view key { s with flight := s.flight.setPhase f x phase } =
      (view key s).setFill (s.flight.place key f) (seeFill s.flight.fetches phase) :=
  view_advance hx hkey fun _ _ => rfl

theorem view_setPhase_other {f : ℕ} {x : Fill} {phase : Phase} (hx : s.flight.fills[f]? = some x)
    (hkey : x.key ≠ key) : view key { s with flight := s.flight.setPhase f x phase } = view key s :=
  view_advance_other hx hkey (fun _ _ => rfl) rfl

theorem fetchTimesOut_seen {f : ℕ} {flight : SingleFlight} (h : s.flight.fetchTimesOut f s.now = some flight) :
    Seen cfg key s { s with flight } (.fetchTimesOut f) := by
  obtain ⟨fill,n,x,hf,hp,hx,hdue,rfl⟩ := SingleFlight.fetchTimesOut_eq h
  refine seen_fill (fun g => .fetchTimesOut g s.now) rfl hf ?_ fun hkey => view_setPhase_other hf hkey
  intro hkey
  dsimp only [Token.step]
  rw [Token.fetchTimesOut, view_fill hf hkey, hp, view_setPhase hf hkey]
  dsimp only [seeFill]
  rw [hx, Option.map_some, Option.getD_some, if_pos hdue]

theorem fetchPanics_seen {f : ℕ} {flight : SingleFlight} (h : s.flight.fetchPanics f = some flight) :
    Seen cfg key s { s with flight } (.fetchPanics f) := by
  obtain ⟨fill,n,hf,hp,rfl⟩ := SingleFlight.fetchPanics_eq h
  refine seen_fill .fetchPanics rfl hf ?_ fun hkey => view_setPhase_other hf hkey
  intro hkey
  dsimp only [Token.step]
  rw [view_fill hf hkey, hp, view_setPhase hf hkey]
  rfl

/-- The map holds the fill that cleans up, and nothing else under its key. -/
theorem cleanUp_seen (hrun : Run cfg pre s) {f : ℕ} {flight : SingleFlight}
    (h : s.flight.cleanUp f = some flight) : Seen cfg key s { s with flight } (.cleanUp f) := by
  obtain ⟨fill,n,r,hf,hp,rfl⟩ := SingleFlight.cleanUp_eq h
  rw [if_pos ((run_wellFormed hrun).own_id hf hp)]
  have hview : view key { s with flight := { s.flight.setPhase f fill (.done n r) with
      inflight := s.flight.inflight.erase fill.key } } =
      { view key { s with flight := s.flight.setPhase f fill (.done n r) } with
        flight := ((s.flight.inflight.erase fill.key).lookup key).map fun x =>
          (s.flight.setPhase f fill (.done n r)).place key x.2 } := rfl
  refine seen_fill .cleanUp rfl hf ?_ ?_
  · intro hkey
    dsimp only [Token.step]
    rw [hview, view_fill hf hkey, hp, view_setPhase hf hkey, hkey, AList.lookup_erase]
    rfl
  · intro hkey
    rw [hview, view_setPhase_other hf hkey, AList.lookup_erase_ne (Ne.symm hkey)]
    simp only [place_setPhase hf]
    rfl

/-- A `put` which drops no entry of another key. -/
theorem put_seen (hrun : Run cfg pre s) {f : ℕ} (h : s.put f = some t)
    (hkept : ∀ fill ∈ s.flight.fills[f]?, fill.key ≠ key → t.cache.peek key = s.cache.peek key) :
    Seen cfg key s t (.put f) := by
  obtain ⟨fill,n,e,hpend,rfl⟩ := put_eq h
  obtain ⟨hf,hp⟩ := SingleFlight.pending_eq hpend
  have hview : view key { s with
      cache := s.cache.put fill.key ⟨e, n⟩
      flight := s.flight.setPhase f fill (.cleaning n (.ok e)) } =
      { view key { s with flight := s.flight.setPhase f fill (.cleaning n (.ok e)) } with
        cached := ((s.cache.put fill.key ⟨e, n⟩).peek key).map Cached.entry } := rfl
  refine seen_fill .put rfl hf ?_ ?_
  · intro hkey
    dsimp only [Token.step]
    rw [hview, view_fill hf hkey, hp, view_setPhase hf hkey, hkey]
    have hsane := run_cacheSane hrun
    have hcached : ((s.cache.put key ⟨e, n⟩).peek key).map Cached.entry =
        if cfg.capacity = 0 then (view key s).cached else some e := by
      split
      · rename_i hzero
        rw [Lru.put, if_pos (hsane.1.trans hzero)]
        rfl
      · rename_i hcap
        obtain ⟨es,hes⟩ := run_refines hrun
        rw [(hes.put key ⟨e,n⟩).peek, RecencyList.find_store_self key _ es (by rw [hsane.1]; omega)]
        rfl
    rw [hcached]
    rfl
  · intro hkey
    rw [hview, view_setPhase_other hf hkey, hkept fill hf hkey]
    rfl

end NioClient.Session
