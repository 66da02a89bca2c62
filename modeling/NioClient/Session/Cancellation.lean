import NioClient.Session.Quiescence

/-! # Dropped callers are not missed

A caller may be dropped while it awaits a fill. The cache, the fills, the fetches and all
other callers go on exactly as if it were still waiting.
-/
namespace NioClient.Session
open Execution
variable {cfg : ResolverConfig} {s s' t : State} {a : Act} {acts : List Act}

def Act.isCancel : Act → Bool
  | .cancel _ => true
  | _ => false

inductive Undropped (x : Caller) : Caller → Prop
  | same : Undropped x x
  | dropped (f stale) (h : x.phase = .cancelled) : Undropped x { x with phase := .waiting f stale }

/-- The second state is the first one, but for callers that were dropped in the first. -/
structure Unheeded (s s' : State) : Prop where
  now : s'.now = s.now
  cache : s'.cache = s.cache
  flight : s'.flight = s.flight
  length : s'.callers.length = s.callers.length
  callers : ∀ (c : ℕ) (x : Caller), s.callers[c]? = some x → ∃ y, s'.callers[c]? = some y ∧ Undropped x y

theorem Unheeded.caller (h : Unheeded s s') {c : ℕ} {x : Caller} (hx : s.callers[c]? = some x)
    (hp : x.phase ≠ .cancelled) : s'.callers[c]? = some x := by
  obtain ⟨y,hy,hxy⟩ := h.callers c x hx
  cases hxy with
  | same => exact hy
  | dropped f stale hdropped => exact absurd hdropped hp

theorem Unheeded.setCaller (h : Unheeded s s') {c : ℕ} {x y : Caller} (hx : s.callers[c]? = some x)
    (p q : CallerPhase) (hxy : Undropped { x with phase := p } { y with phase := q }) :
    Unheeded (s.setCaller c x p) (s'.setCaller c y q) := by
  refine ⟨h.now,h.cache,h.flight, by simp [State.setCaller, h.length],fun d z hz => ?_⟩
  have hlt : c < s'.callers.length := h.length ▸ (List.getElem?_eq_some_iff.mp hx).1
  by_cases hcd : c = d
  · subst hcd
    obtain rfl : { x with phase := p } = z := by
      simpa [State.setCaller, (List.getElem?_eq_some_iff.mp hx).1] using hz
    exact ⟨_, by simp [State.setCaller, hlt], hxy⟩
  · have hold : s.callers[d]? = some z := by simpa [State.setCaller, hcd] using hz
    obtain ⟨w,hw,hzw⟩ := h.callers d z hold
    exact ⟨w, by simpa [State.setCaller, hcd] using hw, hzw⟩

theorem Unheeded.concat (h : Unheeded s s') (x : Caller) :
    Unheeded { s with callers := s.callers ++ [x] } { s' with callers := s'.callers ++ [x] } := by
  refine ⟨h.now,h.cache,h.flight, by simp [h.length],fun c y hy => ?_⟩
  rcases getElem?_append_one hy with hold | ⟨rfl,rfl⟩
  · obtain ⟨z,hz,hyz⟩ := h.callers c y hold
    have hlt := (List.getElem?_eq_some_iff.mp hz).1
    exact ⟨z,(List.getElem?_append_left hlt).trans hz,hyz⟩
  · exact ⟨y, by simp [h.length], .same⟩

theorem lookup_unheeded (h : Unheeded s s') {c : ℕ} (hs : s.lookup c = some t) :
    ∃ t', s'.lookup c = some t' ∧ Unheeded t t' := by
  obtain ⟨key,now,wall,hx,rfl⟩ := lookup_eq hs
  have hx' := h.caller hx (by simp)
  have hdue : Due {} s' (.lookup c) := caller_due hx' rfl rfl
  obtain ⟨t',ht'⟩ := Option.isSome_iff_exists.mp hdue.possible
  obtain ⟨key',now',wall',hx'',rfl⟩ := lookup_eq ht'
  cases hx'.symm.trans hx''
  refine ⟨_,ht',?_⟩
  have hmoved : Unheeded { s with cache := (s.cache.get key).2 } { s' with cache := (s.cache.get key).2 } :=
    ⟨h.now,rfl,h.flight,h.length,h.callers⟩
  unfold State.afterLookup
  rw [h.cache]
  dsimp only
  split
  · exact (hmoved.setCaller hx _ _ .same).concat _
  · exact hmoved.setCaller hx _ _ .same

theorem receive_unheeded (h : Unheeded s s') {c : ℕ} (hs : s.receive c = some t) :
    ∃ t', s'.receive c = some t' ∧ Unheeded t t' := by
  obtain ⟨⟨key,kind,phase⟩,f,stale,fill,hx,rfl,hf,hcases⟩ := receive_eq hs
  have hx' := h.caller hx (by simp)
  rcases hcases with ⟨n,result,hp,rfl⟩ | ⟨n,hp,rfl⟩
  · exact ⟨_, by simp [State.receive, hx', h.flight, hf, hp], h.setCaller hx _ _ .same⟩
  · exact ⟨_, by simp [State.receive, hx', h.flight, hf, hp], h.setCaller hx _ _ .same⟩

theorem Unheeded.fill (h : Unheeded s s') {e : ℕ × SingleFlight.FillEvent} (ha : a.event = some e)
    (hs : step cfg s a = some t) : ∃ t', step cfg s' a = some t' ∧ Unheeded t t' := by
  cases a with
  | put f =>
    obtain ⟨fill,n,e,hp,rfl⟩ := put_eq hs
    refine ⟨_, by simp [step, State.put, h.flight, hp]; rfl, ?_⟩
    exact ⟨h.now, by rw [← h.cache], rfl, h.length, h.callers⟩
  | callFetch | fetchReturns | fetchTimesOut | fetchPanics | cleanUp =>
    obtain ⟨flight,hflight,rfl⟩ := Option.map_eq_some_iff.mp hs
    refine ⟨{ s' with flight },?_,h.now,h.cache,rfl,h.length,h.callers⟩
    simp only [step, h.flight, h.now, hflight, Option.map_some]
  | _ => cases ha

theorem Unheeded.step (h : Unheeded s s') (ha : a.isCancel = false) (hs : Session.step cfg s a = some t) :
    ∃ t', Session.step cfg s' a = some t' ∧ Unheeded t t' := by
  cases a with
  | tick d =>
    cases hs
    exact ⟨_,rfl, by rw [h.now], h.cache,h.flight,h.length,h.callers⟩
  | resolve key wall =>
    cases hs
    have hcaller : (⟨key,.resolve s'.now wall,.started⟩ : Caller) = ⟨key,.resolve s.now wall,.started⟩ := by
      rw [h.now]
    refine ⟨_,rfl,?_⟩
    unfold State.resolve
    rw [hcaller]
    exact h.concat _
  | evict key =>
    cases hs
    exact ⟨_,rfl,h.now, by rw [h.cache], h.flight,h.length,h.callers⟩
  | lookup c => exact lookup_unheeded h hs
  | forcedMiss c =>
    obtain ⟨⟨key,kind,phase⟩,hx,rfl,rfl⟩ := forcedMiss_eq hs
    have hx' := h.caller hx (by simp)
    have hmoved : Unheeded { s with cache := s.cache.remove key } { s' with cache := s.cache.remove key } :=
      ⟨h.now,rfl,h.flight,h.length,h.callers⟩
    exact ⟨_, by simp [Session.step, State.forcedMiss, hx', h.cache], hmoved.setCaller hx _ _ .same⟩
  | captureStale c =>
    obtain ⟨⟨key,kind,phase⟩,now,wall,hx,rfl,rfl,rfl⟩ := captureStale_eq hs
    have hx' := h.caller hx (by simp)
    have hcandidate : s'.candidate cfg key now wall = s.candidate cfg key now wall := by
      rw [State.candidate, State.candidate, h.cache]
    exact ⟨_, by simp [Session.step, State.captureStale, hx', hcandidate], h.setCaller hx _ _ .same⟩
  | run c =>
    obtain ⟨⟨key,kind,phase⟩,stale,hx,rfl,rfl⟩ := run_eq hs
    have hx' := h.caller hx (by simp)
    have hmoved : Unheeded { s with flight := (s.flight.run key).1 } { s' with flight := (s.flight.run key).1 } :=
      ⟨h.now,h.cache,rfl,h.length,h.callers⟩
    exact ⟨_, by simp [Session.step, State.run, hx', h.flight], hmoved.setCaller hx _ _ .same⟩
  | receive c => exact receive_unheeded h hs
  | cancel c => cases ha
  | callFetch | fetchReturns | fetchTimesOut | fetchPanics | put | cleanUp => exact h.fill rfl hs

theorem Unheeded.cancel (h : Unheeded s s') {c : ℕ} (hs : s.cancel c = some t) : Unheeded t s' := by
  obtain ⟨⟨key,kind,phase⟩,f,stale,hx,rfl,rfl⟩ := cancel_eq hs
  have hx' := h.caller hx (by simp)
  refine ⟨h.now,h.cache,h.flight, by simp [State.setCaller, h.length],fun d z hz => ?_⟩
  rcases getElem?_setCaller hx hz with ⟨rfl,rfl⟩ | hold
  · exact ⟨_,hx',.dropped f stale rfl⟩
  · exact h.callers d z hold

/-- Whatever callers are dropped along a run, without that the same run comes to the same
clock, cache, fills and fetches, and each other caller to the same answer; those dropped
are still waiting. -/
theorem run_uncancelled (h : Run cfg acts s) :
    ∃ s', Run cfg (acts.filter fun a => !a.isCancel) s' ∧ Unheeded s s' := by
  refine exec_filter (fun s s' a t hR ha hs => hR.step (by simpa using ha) hs) (fun s s' a t hR ha hs => ?_)
    ⟨rfl,rfl,rfl,rfl,fun c x hx => ⟨x,hx,.same⟩⟩ h
  cases a with
  | cancel c => exact hR.cancel hs
  | _ => cases ha

theorem run_uncancelled_leader :
    let acts := coldResolve 0 0 "k" 0 ++ [.cancel 0,.fetchReturns 0 (.ok none) .one 0,.put 0,.cleanUp 0]
    ∃ s, Run {} acts s ∧ ∃ s', Run {} (acts.filter fun a => !a.isCancel) s' ∧ Unheeded s s' := by
  intro acts
  have hrun : (exec (step {}) (init {}) acts).isSome := by decide +kernel
  obtain ⟨s,h⟩ := Option.isSome_iff_exists.mp hrun
  exact ⟨s,h,run_uncancelled h⟩

end NioClient.Session
