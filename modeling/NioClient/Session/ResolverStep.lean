import NioClient.Session.Resolver
import NioClient.Session.SingleFlightInvariant

/-! # What one step of the resolver can do

One lemma for each component of the state: the single flight, the cached
values, the callers. The invariants are derived from these and do not unfold
the step function.
-/
namespace NioClient.Session
open Execution
variable {cfg : ResolverConfig} {s t : State} {a : Act}

/-- One caller's own progress, from state `s` into state `t`. -/
inductive CallerMove (cfg : ResolverConfig) (s t : State) : Caller → Caller → Prop
  | miss (key now wall) (hmiss : ∀ x, (s.cache.get key).1 = some x → judge x.entry now wall = .stale) :
      CallerMove cfg s t ⟨key, .resolve now wall, .started⟩ ⟨key, .resolve now wall, .missed⟩
  | expired (key now wall x) (hx : s.cache.peek key = some x)
      (hexp : judge x.entry now wall = .expired) : CallerMove cfg s t
      ⟨key, .resolve now wall, .started⟩ ⟨key, .resolve now wall, .expired⟩
  | hit (key now wall x) (hx : s.cache.peek key = some x) (hvalid : x.entry.wallValid wall)
      (hfresh : now < x.entry.freshUntil) : CallerMove cfg s t
      ⟨key, .resolve now wall, .started⟩
      ⟨key, .resolve now wall, .answered (.ok x.entry.outcome) (.l1 x.fetch)⟩
  | forcedMiss (key kind) : CallerMove cfg s t ⟨key, kind, .expired⟩ ⟨key, kind, .missed⟩
  | capture (key now wall) : CallerMove cfg s t ⟨key, .resolve now wall, .missed⟩
      ⟨key, .resolve now wall, .flying (s.candidate cfg key now wall)⟩
  | join (key kind stale id f) (hf : t.flight.inflight.lookup key = some (id, f)) :
      CallerMove cfg s t ⟨key, kind, .flying stale⟩ ⟨key, kind, .waiting f stale⟩
  | receive (key kind f stale fill fetch result) (hf : s.flight.fills[f]? = some fill)
      (hp : fill.phase = .done fetch result) : CallerMove cfg s t ⟨key, kind, .waiting f stale⟩
      ⟨key, kind, State.conclude f fetch result stale⟩
  | poisoned (key kind f stale fill fetch) (hf : s.flight.fills[f]? = some fill)
      (hp : fill.phase = .panicked fetch) :
      CallerMove cfg s t ⟨key, kind, .waiting f stale⟩ ⟨key, kind, .panicked⟩
  | cancel (key kind f stale) :
      CallerMove cfg s t ⟨key, kind, .waiting f stale⟩ ⟨key, kind, .cancelled⟩

/-- The callers which a step from `s` can start. -/
inductive Born (s : State) : Caller → Prop
  | resolve (key wall) : Born s ⟨key, .resolve s.now wall, .started⟩
  | refresh (key) : Born s ⟨key, .refresh, .flying none⟩

def CallerStep (cfg : ResolverConfig) (s t : State) (c : ℕ) (y : Caller) : Prop :=
  s.callers[c]? = some y ∨ (∃ x, s.callers[c]? = some x ∧ CallerMove cfg s t x y) ∨
    (c = s.callers.length ∧ Born s y)

theorem getElem?_setCaller {c d : ℕ} {x y : Caller} {phase : CallerPhase}
    (hx : s.callers[c]? = some x) (h : (s.setCaller c x phase).callers[d]? = some y) :
    (d = c ∧ y = { x with phase }) ∨ s.callers[d]? = some y := by
  simp only [State.setCaller, List.getElem?_set] at h
  split at h
  · rename_i hcd
    have hlt : c < s.callers.length := (List.getElem?_eq_some_iff.mp hx).1
    simp only [if_pos hlt, Option.some.injEq] at h
    exact Or.inl ⟨hcd.symm,h.symm⟩
  · exact Or.inr h

theorem getElem?_append_one {xs : List Caller} {d : ℕ} {x y : Caller}
    (h : (xs ++ [x])[d]? = some y) : xs[d]? = some y ∨ (d = xs.length ∧ y = x) := by
  rw [List.getElem?_append] at h
  split at h
  · exact Or.inl h
  · obtain ⟨h0,rfl⟩ := List.getElem?_eq_some_iff.mp h
    simp only [List.length_singleton] at h0
    exact Or.inr ⟨by omega, by simp⟩

/-- A section which moves one caller, and may replace the cache or the flight. -/
structure CallerSection (cfg : ResolverConfig) (s t : State) (cache : Lru TokenHash Cached)
    (flight : SingleFlight) : Prop where
  cache : t.cache = cache
  flight : t.flight = flight
  now : t.now = s.now
  length : s.callers.length ≤ t.callers.length
  callers : ∀ c y, t.callers[c]? = some y → CallerStep cfg s t c y

theorem callerSection_setCaller {c : ℕ} {x : Caller} {phase : CallerPhase}
    {cache : Lru TokenHash Cached} {flight : SingleFlight} (hx : s.callers[c]? = some x)
    (ht : t = { s with cache, flight }.setCaller c x phase)
    (hmove : CallerMove cfg s t x { x with phase }) : CallerSection cfg s t cache flight := by
  subst ht
  refine ⟨rfl,rfl,rfl, by simp [State.setCaller],?_⟩
  intro d y hy
  rcases getElem?_setCaller hx hy with ⟨rfl,rfl⟩ | hy
  · exact Or.inr (Or.inl ⟨x,hx,hmove⟩)
  · exact Or.inl hy

/-- A hit may spawn a refresh after it has answered. -/
theorem CallerSection.spawnRefresh {key : TokenHash} {cache : Lru TokenHash Cached} {flight : SingleFlight}
    (h : CallerSection cfg s t cache flight) (hlen : t.callers.length = s.callers.length)
    (hmove : ∀ x y, CallerMove cfg s t x y → CallerMove cfg s (t.spawnRefresh key) x y) :
    CallerSection cfg s (t.spawnRefresh key) cache flight := by
  refine ⟨h.cache,h.flight,h.now, by simp [State.spawnRefresh, hlen],?_⟩
  intro d y hy
  rcases getElem?_append_one hy with hy | ⟨rfl,rfl⟩
  · rcases h.callers d y hy with hold | ⟨x,hx,hxy⟩ | hborn
    · exact Or.inl hold
    · exact Or.inr (Or.inl ⟨x,hx,hmove x y hxy⟩)
    · exact Or.inr (Or.inr hborn)
  · exact Or.inr (Or.inr ⟨hlen,.refresh key⟩)

/-- What the L1 lookup makes of the entry it gets, and whether it starts a refresh. -/
def found (got : Option Cached) (now : ℕ) (wall : ℤ) : CallerPhase × Bool :=
  match got with
  | none => (.missed,false)
  | some hit =>
    match judge hit.entry now wall with
    | .expired => (.expired,false)
    | .stale => (.missed,false)
    | .hit refresh => (.answered (.ok hit.entry.outcome) (.l1 hit.fetch),refresh)

def State.afterLookup (s : State) (c : ℕ) (key : TokenHash) (now : ℕ) (wall : ℤ) : State :=
  let got := s.cache.get key
  let left := { s with cache := got.2 }.setCaller c ⟨key,.resolve now wall,.started⟩ (found got.1 now wall).1
  if (found got.1 now wall).2 then left.spawnRefresh key else left

theorem lookup_eq {c : ℕ} (h : s.lookup c = some t) : ∃ key now wall,
    s.callers[c]? = some ⟨key, .resolve now wall, .started⟩ ∧ t = s.afterLookup c key now wall := by
  simp only [State.lookup, Option.bind_eq_bind, Option.bind_eq_some_iff] at h
  obtain ⟨⟨key,kind,phase⟩,hx,h⟩ := h
  dsimp only at h
  split at h
  · rename_i now wall
    refine ⟨key,now,wall,hx,?_⟩
    unfold State.afterLookup found
    split at h
    · rename_i hget
      simp only [hget]
      exact (Option.some.inj h).symm
    · rename_i hit hget
      simp only [hget]
      cases hjudge : judge hit.entry now wall <;>
      · rw [hjudge] at h
        exact (Option.some.inj h).symm
  · cases h

theorem forcedMiss_eq {c : ℕ} (h : s.forcedMiss c = some t) : ∃ x, s.callers[c]? = some x ∧
    x.phase = .expired ∧ t = { s with cache := s.cache.remove x.key }.setCaller c x .missed := by
  simp only [State.forcedMiss, Option.bind_eq_bind, Option.bind_eq_some_iff] at h
  obtain ⟨x,hx,h⟩ := h
  split at h
  · rename_i hp
    exact ⟨x,hx,hp,(Option.some.inj h).symm⟩
  · cases h

theorem captureStale_eq {c : ℕ} (h : s.captureStale cfg c = some t) : ∃ x now wall,
    s.callers[c]? = some x ∧ x.kind = .resolve now wall ∧ x.phase = .missed ∧
    t = s.setCaller c x (.flying (s.candidate cfg x.key now wall)) := by
  simp only [State.captureStale, Option.bind_eq_bind, Option.bind_eq_some_iff] at h
  obtain ⟨x,hx,h⟩ := h
  split at h
  · rename_i now wall hkind hp
    exact ⟨x,now,wall,hx,hkind,hp,(Option.some.inj h).symm⟩
  · cases h

theorem run_eq {c : ℕ} (h : s.run c = some t) : ∃ x stale, s.callers[c]? = some x ∧
    x.phase = .flying stale ∧ t = { s with flight := (s.flight.run x.key).1 }.setCaller c x
      (.waiting (s.flight.run x.key).2 stale) := by
  simp only [State.run, Option.bind_eq_bind, Option.bind_eq_some_iff] at h
  obtain ⟨x,hx,h⟩ := h
  split at h
  · rename_i stale hp
    exact ⟨x,stale,hx,hp,(Option.some.inj h).symm⟩
  · cases h

theorem receive_eq {c : ℕ} (h : s.receive c = some t) : ∃ x f stale fill,
    s.callers[c]? = some x ∧ x.phase = .waiting f stale ∧ s.flight.fills[f]? = some fill ∧
    ((∃ n result, fill.phase = .done n result ∧ t = s.setCaller c x (State.conclude f n result stale)) ∨
      ∃ n, fill.phase = .panicked n ∧ t = s.setCaller c x .panicked) := by
  simp only [State.receive, Option.bind_eq_bind, Option.bind_eq_some_iff] at h
  obtain ⟨x,hx,h⟩ := h
  split at h
  · rename_i f stale hp
    obtain ⟨fill,hf,h⟩ := Option.bind_eq_some_iff.mp h
    refine ⟨x,f,stale,fill,hx,hp,hf,?_⟩
    split at h
    · rename_i n result hphase
      exact Or.inl ⟨n,result,hphase,(Option.some.inj h).symm⟩
    · rename_i n hphase
      exact Or.inr ⟨n,hphase,(Option.some.inj h).symm⟩
    · cases h
  · cases h

theorem cancel_eq {c : ℕ} (h : s.cancel c = some t) : ∃ x f stale, s.callers[c]? = some x ∧
    x.phase = .waiting f stale ∧ t = s.setCaller c x .cancelled := by
  simp only [State.cancel, Option.bind_eq_bind, Option.bind_eq_some_iff] at h
  obtain ⟨x,hx,h⟩ := h
  split at h
  · rename_i f stale hp
    exact ⟨x,f,stale,hx,hp,(Option.some.inj h).symm⟩
  · cases h

theorem lookup_move (cfg : ResolverConfig) (s t : State) (key : TokenHash) (now : ℕ) (wall : ℤ) :
    CallerMove cfg s t ⟨key, .resolve now wall, .started⟩
      ⟨key, .resolve now wall, (found (s.cache.get key).1 now wall).1⟩ := by
  unfold found
  split
  · rename_i hget
    exact .miss key now wall fun x hx => by simp [hget] at hx
  · rename_i hit hget
    have hpeek := Lru.get_fst hget
    split
    · rename_i hexp
      exact .expired key now wall hit hpeek hexp
    · rename_i hstale
      refine .miss key now wall fun x hx => ?_
      obtain rfl : hit = x := Option.some.inj (hget.symm.trans hx)
      exact hstale
    · rename_i refresh hjudge
      obtain ⟨hvalid,hfresh⟩ := judge_hit hjudge
      exact .hit key now wall hit hpeek hvalid hfresh

theorem lookup_step (cfg : ResolverConfig) {c : ℕ} (h : s.lookup c = some t) :
    ∃ key, CallerSection cfg s t (s.cache.get key).2 s.flight := by
  obtain ⟨key,now,wall,hx,rfl⟩ := lookup_eq h
  refine ⟨key,?_⟩
  unfold State.afterLookup
  dsimp only
  split
  · refine (callerSection_setCaller hx rfl (lookup_move cfg s _ key now wall)).spawnRefresh
      (by simp [State.setCaller]) ?_
    -- the refresh task changes no flight, so a join seen before it is seen after it
    intro x y hxy
    cases hxy with
    | join key kind stale id f hf => exact .join key kind stale id f hf
    | _ => constructor <;> assumption
  · exact callerSection_setCaller hx rfl (lookup_move cfg s _ key now wall)

theorem forcedMiss_step (cfg : ResolverConfig) {c : ℕ} (h : s.forcedMiss c = some t) :
    ∃ key, CallerSection cfg s t (s.cache.remove key) s.flight := by
  obtain ⟨⟨key,kind,phase⟩,hx,rfl,rfl⟩ := forcedMiss_eq h
  exact ⟨key,callerSection_setCaller hx rfl (.forcedMiss key kind)⟩

theorem captureStale_step {c : ℕ} (h : s.captureStale cfg c = some t) :
    CallerSection cfg s t s.cache s.flight := by
  obtain ⟨⟨key,kind,phase⟩,now,wall,hx,rfl,rfl,rfl⟩ := captureStale_eq h
  exact callerSection_setCaller hx rfl (.capture key now wall)

theorem run_step (cfg : ResolverConfig) {c : ℕ} (h : s.run c = some t) :
    ∃ key, CallerSection cfg s t s.cache (s.flight.run key).1 := by
  obtain ⟨⟨key,kind,phase⟩,stale,hx,rfl,rfl⟩ := run_eq h
  obtain ⟨id,hid⟩ := s.flight.run_joined key
  exact ⟨key,callerSection_setCaller hx rfl (.join key kind stale id _ hid)⟩

theorem receive_step (cfg : ResolverConfig) {c : ℕ} (h : s.receive c = some t) :
    CallerSection cfg s t s.cache s.flight := by
  obtain ⟨⟨key,kind,phase⟩,f,stale,fill,hx,rfl,hf,hcases⟩ := receive_eq h
  rcases hcases with ⟨n,result,hp,rfl⟩ | ⟨n,hp,rfl⟩
  · exact callerSection_setCaller hx rfl (.receive key kind f stale fill n result hf hp)
  · exact callerSection_setCaller hx rfl (.poisoned key kind f stale fill n hf hp)

theorem cancel_step (cfg : ResolverConfig) {c : ℕ} (h : s.cancel c = some t) :
    CallerSection cfg s t s.cache s.flight := by
  obtain ⟨⟨key,kind,phase⟩,f,stale,hx,rfl,rfl⟩ := cancel_eq h
  exact callerSection_setCaller hx rfl (.cancel key kind f stale)

theorem put_eq {f : ℕ} (h : s.put f = some t) : ∃ fill n e, s.flight.pending f = some (fill, n, e) ∧
    t = { s with
      cache := s.cache.put fill.key ⟨e, n⟩
      flight := s.flight.setPhase f fill (.cleaning n (.ok e)) } := by
  simp only [State.put, Option.bind_eq_bind, Option.bind_eq_some_iff] at h
  obtain ⟨⟨fill,n,e⟩,hp,h⟩ := h
  exact ⟨fill,n,e,hp,(Option.some.inj h).symm⟩

theorem step_flight (h : step cfg s a = some t) :
    SingleFlight.Move cfg s.now s.flight a.event t.flight := by
  cases a with
  | tick | resolve | evict => cases h; exact .stay
  | lookup c =>
    obtain ⟨key,hsec⟩ := lookup_step cfg h
    rw [hsec.flight]; exact .stay
  | forcedMiss c =>
    obtain ⟨key,hsec⟩ := forcedMiss_step cfg h
    rw [hsec.flight]; exact .stay
  | captureStale c => rw [(captureStale_step h).flight]; exact .stay
  | run c =>
    obtain ⟨key,hsec⟩ := run_step cfg h
    rw [hsec.flight]; exact SingleFlight.run_move ..
  | receive c => rw [(receive_step cfg h).flight]; exact .stay
  | cancel c => rw [(cancel_step cfg h).flight]; exact .stay
  | callFetch f =>
    obtain ⟨flight,hf,rfl⟩ := Option.map_eq_some_iff.mp h
    exact SingleFlight.callFetch_move cfg hf
  | fetchReturns f returned jitter wall =>
    obtain ⟨flight,hf,rfl⟩ := Option.map_eq_some_iff.mp h
    exact SingleFlight.fetchReturns_move hf
  | fetchTimesOut f =>
    obtain ⟨flight,hf,rfl⟩ := Option.map_eq_some_iff.mp h
    exact SingleFlight.fetchTimesOut_move cfg hf
  | fetchPanics f =>
    obtain ⟨flight,hf,rfl⟩ := Option.map_eq_some_iff.mp h
    exact SingleFlight.fetchPanics_move cfg s.now hf
  | put f =>
    obtain ⟨fill,n,e,hp,rfl⟩ := put_eq h
    exact SingleFlight.pending_move cfg s.now hp
  | cleanUp f =>
    obtain ⟨flight,hf,rfl⟩ := Option.map_eq_some_iff.mp h
    exact SingleFlight.cleanUp_move cfg s.now hf

theorem step_callers (h : step cfg s a = some t) {c : ℕ} {y : Caller}
    (hy : t.callers[c]? = some y) : CallerStep cfg s t c y := by
  cases a with
  | tick | evict => cases h; exact Or.inl hy
  | resolve key wall =>
    cases h
    rcases getElem?_append_one hy with hy | ⟨rfl,rfl⟩
    · exact Or.inl hy
    · exact Or.inr (Or.inr ⟨rfl,.resolve key wall⟩)
  | lookup c' => exact (lookup_step cfg h).elim fun _ hsec => hsec.callers c y hy
  | forcedMiss c' => exact (forcedMiss_step cfg h).elim fun _ hsec => hsec.callers c y hy
  | captureStale c' => exact (captureStale_step h).callers c y hy
  | run c' => exact (run_step cfg h).elim fun _ hsec => hsec.callers c y hy
  | receive c' => exact (receive_step cfg h).callers c y hy
  | cancel c' => exact (cancel_step cfg h).callers c y hy
  | put f =>
    obtain ⟨fill,n,e,hp,rfl⟩ := put_eq h
    exact Or.inl hy
  | callFetch | fetchReturns | fetchTimesOut | fetchPanics | cleanUp =>
    obtain ⟨flight,hf,rfl⟩ := Option.map_eq_some_iff.mp h
    exact Or.inl hy

theorem step_callers_length (h : step cfg s a = some t) : s.callers.length ≤ t.callers.length := by
  cases a with
  | tick | evict => cases h; exact le_rfl
  | resolve key wall => cases h; simp [State.resolve]
  | lookup c => exact (lookup_step cfg h).elim fun _ hsec => hsec.length
  | forcedMiss c => exact (forcedMiss_step cfg h).elim fun _ hsec => hsec.length
  | captureStale c => exact (captureStale_step h).length
  | run c => exact (run_step cfg h).elim fun _ hsec => hsec.length
  | receive c => exact (receive_step cfg h).length
  | cancel c => exact (cancel_step cfg h).length
  | put f =>
    obtain ⟨fill,n,e,hp,rfl⟩ := put_eq h
    exact le_rfl
  | callFetch | fetchReturns | fetchTimesOut | fetchPanics | cleanUp =>
    obtain ⟨flight,hf,rfl⟩ := Option.map_eq_some_iff.mp h
    exact le_rfl

theorem step_caller_later (h : step cfg s a = some t) {c : ℕ} {x : Caller} (hx : s.callers[c]? = some x) :
    ∃ y, t.callers[c]? = some y ∧ y.key = x.key ∧ y.kind = x.kind ∧ (y = x ∨ CallerMove cfg s t x y) := by
  have hlt := (List.getElem?_eq_some_iff.mp hx).1
  obtain ⟨y,hy⟩ : ∃ y, t.callers[c]? = some y :=
    ⟨_,List.getElem?_eq_getElem (hlt.trans_le (step_callers_length h))⟩
  refine ⟨y,hy,?_⟩
  rcases step_callers h hy with hold | ⟨x',hx',hxy⟩ | ⟨rfl,-⟩
  · cases hx.symm.trans hold
    exact ⟨rfl,rfl,Or.inl rfl⟩
  · cases hx.symm.trans hx'
    exact ⟨by cases hxy <;> rfl, by cases hxy <;> rfl,Or.inr hxy⟩
  · exact absurd hlt (Nat.lt_irrefl _)

/-- A caller is started by its own `resolve`, or by a hit on its key which is due for
a refresh. -/
theorem step_born (h : step cfg s a = some t) {y : Caller} (hy : t.callers[s.callers.length]? = some y) :
    (∃ key wall, a = .resolve key wall ∧ y = ⟨key, .resolve s.now wall, .started⟩) ∨
    ∃ (c : ℕ) (x : Caller), a = .lookup c ∧ s.callers[c]? = some x ∧ y = ⟨x.key, .refresh, .flying none⟩ := by
  have hlen := (List.getElem?_eq_some_iff.mp hy).1
  cases a with
  | resolve key wall =>
    cases h
    simp only [State.resolve, List.getElem?_concat_length, Option.some.injEq] at hy
    exact Or.inl ⟨key,wall,rfl,hy.symm⟩
  | lookup c =>
    obtain ⟨key,now,wall,hx,rfl⟩ := lookup_eq h
    refine Or.inr ⟨c,_,rfl,hx,?_⟩
    unfold State.afterLookup at hy hlen
    dsimp only at hy hlen
    split at hy
    · simpa [State.spawnRefresh, State.setCaller, eq_comm, List.getElem?_append] using hy
    · rename_i hno
      simp [hno, State.setCaller] at hlen
  | forcedMiss c => obtain ⟨x,-,-,rfl⟩ := forcedMiss_eq h; simp [State.setCaller] at hlen
  | captureStale c => obtain ⟨x,now,wall,-,-,-,rfl⟩ := captureStale_eq h; simp [State.setCaller] at hlen
  | run c => obtain ⟨x,stale,-,-,rfl⟩ := run_eq h; simp [State.setCaller] at hlen
  | receive c =>
    obtain ⟨x,f,stale,fill,-,-,-,⟨n,result,-,rfl⟩ | ⟨n,-,rfl⟩⟩ := receive_eq h <;>
      simp [State.setCaller] at hlen
  | cancel c => obtain ⟨x,f,stale,-,-,rfl⟩ := cancel_eq h; simp [State.setCaller] at hlen
  | tick | evict => cases h; exact absurd hlen (lt_irrefl _)
  | put f => obtain ⟨fill,n,e,-,rfl⟩ := put_eq h; exact absurd hlen (lt_irrefl _)
  | callFetch | fetchReturns | fetchTimesOut | fetchPanics | cleanUp =>
    obtain ⟨flight,-,rfl⟩ := Option.map_eq_some_iff.mp h
    exact absurd hlen (lt_irrefl _)

/-- A fill is registered by a caller of its key which finds nothing in flight. -/
theorem step_registered (h : step cfg s a = some t) {y : Fill}
    (hy : t.flight.fills[s.flight.fills.length]? = some y) : ∃ (c : ℕ) (x : Caller), a = .run c ∧
      s.callers[c]? = some x ∧ y.key = x.key ∧ s.flight.inflight.lookup x.key = none := by
  have hlen := (List.getElem?_eq_some_iff.mp hy).1
  have hnot : t.flight ≠ s.flight := by
    intro he
    rw [he] at hlen
    exact absurd hlen (lt_irrefl _)
  rcases (step_flight h).origin hy with ⟨fill,hf,-⟩ | ⟨-,-,hev⟩
  · exact absurd (List.getElem?_eq_some_iff.mp hf).1 (lt_irrefl _)
  · cases a with
    | run c =>
      obtain ⟨x,stale,hx,-,rfl⟩ := run_eq h
      refine ⟨c,x,rfl,hx,?_⟩
      simp only [State.setCaller, SingleFlight.run] at hy hlen
      split at hy
      · rename_i id f hlook
        simp [hlook] at hlen
      · rename_i hlook
        simp only [SingleFlight.register, List.getElem?_concat_length, Option.some.injEq] at hy
        exact ⟨hy ▸ rfl,hlook⟩
    | tick | resolve | evict => cases h; exact absurd rfl hnot
    | lookup c => exact (lookup_step cfg h).elim fun _ hsec => absurd hsec.flight hnot
    | forcedMiss c => exact (forcedMiss_step cfg h).elim fun _ hsec => absurd hsec.flight hnot
    | captureStale c => exact absurd (captureStale_step h).flight hnot
    | receive c => exact absurd (receive_step cfg h).flight hnot
    | cancel c => exact absurd (cancel_step cfg h).flight hnot
    | callFetch | fetchReturns | fetchTimesOut | fetchPanics | put | cleanUp => cases hev

inductive CacheMove (s : State) (a : Act) (cache : Lru TokenHash Cached) : Prop
  | stay (h : cache = s.cache)
  | get (key) (h : cache = (s.cache.get key).2)
  | remove (key) (h : cache = s.cache.remove key) (ha : a = .evict key ∨ ∃ (c : ℕ) (x : Caller),
      a = .forcedMiss c ∧ s.callers[c]? = some x ∧ x.phase = .expired ∧ x.key = key)
  | put (f fill n e) (ha : a = .put f) (hf : s.flight.fills[f]? = some fill)
      (hp : fill.phase = .storing n e) (h : cache = s.cache.put fill.key ⟨e, n⟩)

theorem step_cache (h : step cfg s a = some t) : CacheMove s a t.cache := by
  cases a with
  | tick | resolve => cases h; exact .stay rfl
  | evict key => cases h; exact .remove key rfl (Or.inl rfl)
  | lookup c => exact (lookup_step cfg h).elim fun key hsec => .get key hsec.cache
  | forcedMiss c =>
    obtain ⟨x,hx,hphase,rfl⟩ := forcedMiss_eq h
    exact .remove x.key rfl (Or.inr ⟨c,x,rfl,hx,hphase,rfl⟩)
  | captureStale c => exact .stay (captureStale_step h).cache
  | run c => exact (run_step cfg h).elim fun _ hsec => .stay hsec.cache
  | receive c => exact .stay (receive_step cfg h).cache
  | cancel c => exact .stay (cancel_step cfg h).cache
  | put f =>
    obtain ⟨fill,n,e,hp,rfl⟩ := put_eq h
    obtain ⟨hf,hphase⟩ := SingleFlight.pending_eq hp
    exact .put f fill n e rfl hf hphase rfl
  | callFetch | fetchReturns | fetchTimesOut | fetchPanics | cleanUp =>
    obtain ⟨flight,hf,rfl⟩ := Option.map_eq_some_iff.mp h
    exact .stay rfl

def CacheSane (cfg : ResolverConfig) (s : State) : Prop :=
  s.cache.capacity = cfg.capacity ∧ (cfg.capacity = 0 → ∀ key, s.cache.peek key = none)

theorem step_cacheSane (hs : CacheSane cfg s) (h : step cfg s a = some t) : CacheSane cfg t := by
  obtain ⟨hcap,hzero⟩ := hs
  cases step_cache h with
  | stay he => rw [CacheSane, he]; exact ⟨hcap,hzero⟩
  | get key he => rw [CacheSane, he]; simpa using ⟨hcap,hzero⟩
  | remove key he =>
    rw [CacheSane, he]
    refine ⟨by simpa using hcap,fun h0 key' => ?_⟩
    cases hp : (s.cache.remove key).peek key' with
    | none => rfl
    | some x => simpa [hzero h0 key'] using (Lru.peek_remove hp).2
  | put f fill n e ha hf hp he =>
    rw [CacheSane, he]
    refine ⟨by simpa using hcap,fun h0 key' => ?_⟩
    simpa [Lru.put, hcap, h0] using hzero h0 key'

/-- A cached value was cached before the step, or the step is the `put` of it;
a `put` leaves no earlier value under its key. -/
theorem step_peek (hs : CacheSane cfg s) (h : step cfg s a = some t) {key : TokenHash} {x : Cached}
    (hx : t.cache.peek key = some x) :
    (s.cache.peek key = some x ∧
      ∀ f fill, a = .put f → s.flight.fills[f]? = some fill → fill.key ≠ key) ∨
    (∃ f fill n e, a = .put f ∧ s.flight.fills[f]? = some fill ∧ fill.phase = .storing n e ∧
      fill.key = key ∧ x = ⟨e, n⟩) := by
  have hput : (∀ f, a ≠ .put f) →
      ∀ f fill, a = .put f → s.flight.fills[f]? = some fill → fill.key ≠ key :=
    fun hne f fill ha => absurd ha (hne f)
  have hnot : (∀ f, a ≠ .put f) ∨ ∃ f, a = .put f := by
    by_cases hf : ∃ f, a = .put f
    · exact Or.inr hf
    · exact Or.inl fun f ha => hf ⟨f,ha⟩
  rcases hnot with hne | ⟨f,rfl⟩
  · left
    refine ⟨?_,hput hne⟩
    cases step_cache h with
    | stay he => rwa [he] at hx
    | get key' he => rwa [he, Lru.peek_get] at hx
    | remove key' he => rw [he] at hx; exact (Lru.peek_remove hx).2
    | put f fill n e ha hf hp he => exact absurd ha (hne f)
  · obtain ⟨fill,n,e,hp,rfl⟩ := put_eq h
    obtain ⟨hf,hphase⟩ := SingleFlight.pending_eq hp
    have hc : s.cache.capacity ≠ 0 := by
      intro h0
      have hnone := hs.2 (hs.1.symm.trans h0) key
      simp [Lru.put, h0, hnone] at hx
    rcases Lru.peek_put hc hx with ⟨rfl,rfl⟩ | ⟨hne,hold⟩
    · exact Or.inr ⟨f,fill,n,e,rfl,hf,hphase,rfl,rfl⟩
    · left
      refine ⟨hold,fun f' fill' ha hf' => ?_⟩
      cases ha
      cases hf.symm.trans hf'
      exact fun hkey => hne hkey.symm

theorem step_now (h : step cfg s a = some t) : s.now ≤ t.now := by
  cases a with
  | tick d => cases h; exact Nat.le_add_right _ _
  | resolve | evict => cases h; exact le_rfl
  | lookup c => exact (lookup_step cfg h).elim fun _ hsec => hsec.now.ge
  | forcedMiss c => exact (forcedMiss_step cfg h).elim fun _ hsec => hsec.now.ge
  | captureStale c => exact (captureStale_step h).now.ge
  | run c => exact (run_step cfg h).elim fun _ hsec => hsec.now.ge
  | receive c => exact (receive_step cfg h).now.ge
  | cancel c => exact (cancel_step cfg h).now.ge
  | put f =>
    obtain ⟨fill,n,e,hp,rfl⟩ := put_eq h
    exact le_rfl
  | callFetch | fetchReturns | fetchTimesOut | fetchPanics | cleanUp =>
    obtain ⟨flight,hf,rfl⟩ := Option.map_eq_some_iff.mp h
    exact le_rfl

end NioClient.Session
