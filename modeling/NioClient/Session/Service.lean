import NioClient.Session.Outage
import NioClient.Session.RefreshAhead

/-! # A token in service

While the fetcher answers for a token with sessions that outlive their TTL, nobody signs the
token out and the cache has room, the token stays in L1: its entry makes way only for that of
a later fetch.
-/
namespace NioClient.Session
open Execution RecencyList
variable {cfg : ResolverConfig} {s t : State} {a : Act} {pre acts : List Act} {key : TokenHash} {horizon : ℤ}
  {x : Cached} {e : Entry}

/-- A step while `key` is in service: its fetches return, in time, sessions which expire no
earlier than the horizon and outlive their TTL. -/
def InService (cfg : ResolverConfig) (key : TokenHash) (horizon : ℤ) (s : State) : Act → Prop
  | .fetchReturns f returned _ wall => ∀ fill ∈ s.flight.fills[f]?, fill.key = key →
      ∃ session, returned = .ok (some session) ∧ horizon ≤ session.expiresAt ∧
        wall + cfg.l1Ttl ≤ session.expiresAt
  | .fetchTimesOut f | .fetchPanics f => ∀ fill ∈ s.flight.fills[f]?, fill.key ≠ key
  | .put f => ∀ fill ∈ s.flight.fills[f]?, (s.cache.peek fill.key).isSome ∨ s.cache.len < cfg.capacity
  | .evict k => k ≠ key
  | .resolve k wall => k = key → wall < horizon
  | _ => True

instance (returned : ResolveResult) (p : ResolvedSession → Prop) [DecidablePred p] :
    Decidable (∃ session, returned = .ok (some session) ∧ p session) :=
  match returned with
  | .ok (some session) => decidable_of_iff (p session) (by simp)
  | .ok none | .error _ => isFalse (by simp)

instance (cfg : ResolverConfig) (key : TokenHash) (horizon : ℤ) (s : State) (a : Act) :
    Decidable (InService cfg key horizon s a) :=
  match a with
  | .fetchReturns f _ _ _ => inferInstanceAs (Decidable (∀ fill ∈ s.flight.fills[f]?, _ → _))
  | .fetchTimesOut f | .fetchPanics f => inferInstanceAs (Decidable (∀ fill ∈ s.flight.fills[f]?, _))
  | .put f => inferInstanceAs (Decidable (∀ fill ∈ s.flight.fills[f]?, _ ∨ _))
  | .evict _ => inferInstanceAs (Decidable (_ ≠ _))
  | .resolve _ _ => inferInstanceAs (Decidable (_ → _))
  | .tick _ | .lookup _ | .forcedMiss _ | .captureStale _ | .run _ | .callFetch _ | .cleanUp _ | .receive _
  | .cancel _ => inferInstanceAs (Decidable True)

structure Entry.Full (cfg : ResolverConfig) (horizon : ℤ) (e : Entry) : Prop where
  session : ∃ session, e.outcome = some session ∧ horizon ≤ session.expiresAt
  fresh : e.freshUntil = e.fetchedAt + e.effectiveTtl
  ttl : 4 * cfg.l1Ttl ≤ 5 * e.effectiveTtl + 2

def Phase.Supplying (cfg : ResolverConfig) (horizon : ℤ) (cached : Option Cached) : Phase → Prop
  | .storing _ e => e.Full cfg horizon
  | .cleaning n (.ok e) => cached = some ⟨e,n⟩
  | .cleaning _ (.error _) | .panicked _ => False
  | .registered | .fetching _ | .done _ _ => True

/-- The token has a full entry in L1, no fill of it is about to fail, and no caller holds its
session for expired. -/
structure Held (cfg : ResolverConfig) (key : TokenHash) (horizon : ℤ) (s : State) : Prop where
  cached : ∃ x, s.cache.peek key = some x ∧ x.entry.Full cfg horizon
  fills : ∀ (f : ℕ) (fill : Fill), s.flight.fills[f]? = some fill → fill.key = key →
    fill.phase.Supplying cfg horizon (s.cache.peek key)
  callers : Unexpired s key horizon

theorem le_effectiveTtl (cfg : ResolverConfig) (jitter : Jitter) :
    4 * cfg.l1Ttl ≤ 5 * effectiveTtl cfg jitter + 2 := by
  have hfloor : (cfg.l1Ttl : ℚ) * jitter.factor + 1 / 2 < effectiveTtl cfg jitter + 1 := Nat.lt_floor_add_one _
  have hfactor : (cfg.l1Ttl : ℚ) * (4 / 5) ≤ cfg.l1Ttl * jitter.factor :=
    mul_le_mul_of_nonneg_left jitter.four_fifths_le (Nat.cast_nonneg _)
  have hlt : (4 * cfg.l1Ttl : ℚ) < 5 * effectiveTtl cfg jitter + 3 := by linarith
  exact Nat.lt_succ_iff.mp (by exact_mod_cast hlt)

theorem fillEntry_full {session : ResolvedSession} {now : ℕ} {wall : ℤ} (jitter : Jitter)
    (hhorizon : horizon ≤ session.expiresAt) (hwall : wall + cfg.l1Ttl ≤ session.expiresAt) :
    (fillEntry cfg now jitter wall (some session)).Full cfg horizon := by
  have hle : effectiveTtl cfg jitter ≤ wallRemaining session wall := by
    have hcap := effectiveTtl_le cfg jitter
    unfold wallRemaining
    omega
  exact ⟨⟨session,rfl,hhorizon⟩, by simp [fillEntry, hle], le_effectiveTtl cfg jitter⟩

theorem Entry.Full.wallValid (h : e.Full cfg horizon) {wall : ℤ} (hwall : wall < horizon) : e.wallValid wall := by
  obtain ⟨session,houtcome,hle⟩ := h.session
  simp [Entry.wallValid, houtcome, hwall.trans_le hle]

theorem Held.cached_step (h : Held cfg key horizon s) (hrun : Run cfg pre s) (hs : step cfg s a = some t)
    (ha : InService cfg key horizon s a) (hx : s.cache.peek key = some x) : t.cache.peek key = some x ∨
      ∃ f fill n e, a = .put f ∧ s.flight.fills[f]? = some fill ∧ fill.key = key ∧ fill.phase = .storing n e ∧
        x.fetch < n ∧ t.cache.peek key = some ⟨e,n⟩ := by
  cases step_cache hs with
  | stay he => exact Or.inl (by rw [he, hx])
  | get k he => exact Or.inl (by rw [he, Lru.peek_get, hx])
  | remove k he hcause =>
    have hne : k ≠ key := by
      rcases hcause with rfl | ⟨c,y,-,hy,hexpired,rfl⟩
      · exact ha
      · exact fun hkey => (h.callers c y hy hkey).1 hexpired
    exact Or.inl (by rw [he, Lru.peek_remove_ne (Ne.symm hne), hx])
  | put f fill n e hput hf hp =>
    subst hput
    by_cases hkept : t.cache.peek key = some x
    · exact Or.inl hkept
    · cases put_departure hrun hs hx hkept with
      | overflow _ fill' n' e' hpend hne hnew hfull =>
        cases hf.symm.trans (SingleFlight.pending_eq hpend).1
        rcases ha fill hf with hcached | hroom
        · simp [hnew] at hcached
        · exact absurd hfull (Nat.not_le.mpr hroom)
      | replaced _ fill' n' e' hpend hkey hlater hstored =>
        obtain ⟨hf',hp'⟩ := SingleFlight.pending_eq hpend
        exact Or.inr ⟨f,fill',n',e',rfl,hf',hkey,hp',hlater,hstored⟩

theorem put_stored (hrun : Run cfg pre s) {f n : ℕ} {fill : Fill} (hs : step cfg s (.put f) = some t)
    (hf : s.flight.fills[f]? = some fill) (hp : fill.phase = .storing n e)
    (hx : s.cache.peek fill.key = some x) : t.cache.peek fill.key = some ⟨e,n⟩ := by
  by_cases hkept : t.cache.peek fill.key = some x
  · -- what is there was fetched before what the fill stores
    rcases step_peek (run_cacheSane hrun) hs hkept with ⟨-,hnot⟩ | ⟨g,fill',m,e',ha,hf',hp',-,rfl⟩
    · exact absurd rfl (hnot f fill rfl hf)
    · cases ha
      cases hf.symm.trans hf'
      cases hp.symm.trans hp'
      exact hkept
  · cases put_departure hrun hs hx hkept with
    | overflow _ fill' n' e' hpend hne =>
      cases hf.symm.trans (SingleFlight.pending_eq hpend).1
      exact absurd rfl hne
    | replaced _ fill' n' e' hpend hkey hlater hstored =>
      obtain ⟨hf',hp'⟩ := SingleFlight.pending_eq hpend
      cases hf.symm.trans hf'
      cases hp.symm.trans hp'
      exact hstored

/-- Only the fill's own put touches what it has supplied. -/
theorem Held.cleaning_step (h : Held cfg key horizon s) (hrun : Run cfg pre s) (hs : step cfg s a = some t)
    (ha : InService cfg key horizon s a) {f n : ℕ} {fill : Fill} (hf : s.flight.fills[f]? = some fill)
    (hkey : fill.key = key) (hp : fill.phase = .cleaning n (.ok e)) : t.cache.peek key = some ⟨e,n⟩ := by
  have hcached : s.cache.peek key = some ⟨e,n⟩ := by
    have hsupplied := h.fills f fill hf hkey
    rwa [hp] at hsupplied
  rcases h.cached_step hrun hs ha hcached with hkept | ⟨g,fill',m,e',-,hg,hkey',hp',-⟩
  · exact hkept
  · have hsame := (run_wellFormed hrun).unique hf hg (by rw [hp]; rfl) (by rw [hp']; rfl) (hkey.trans hkey'.symm)
    subst hsame
    cases hf.symm.trans hg
    cases hp.symm.trans hp'

theorem InService.no_failure (ha : InService cfg key horizon s a) {f : ℕ} {fill : Fill}
    (hev : a.event = some (f,.failed)) (hf : s.flight.fills[f]? = some fill) (hkey : fill.key = key) : False := by
  cases a with
  | fetchReturns g returned jitter wall =>
    cases returned with
    | ok fetched => cases hev
    | error e =>
      cases hev
      obtain ⟨session,hreturned,-⟩ := ha fill hf hkey
      cases hreturned
  | fetchTimesOut g =>
    cases hev
    exact ha fill hf hkey
  | _ => cases hev

theorem Held.fills_step (h : Held cfg key horizon s) (hrun : Run cfg pre s) (hs : step cfg s a = some t)
    (ha : InService cfg key horizon s a) {f : ℕ} {fill : Fill} (hf : t.flight.fills[f]? = some fill)
    (hkey : fill.key = key) : fill.phase.Supplying cfg horizon (t.cache.peek key) := by
  rcases (step_flight hs).origin hf with ⟨y,hy,hykey,-,hevolves⟩ | ⟨-,hreg,-⟩
  · have hsupplying := h.fills f y hy (hykey.trans hkey)
    have hcleaning {n : ℕ} {e : Entry} (hp : y.phase = .cleaning n (.ok e)) : t.cache.peek key = some ⟨e,n⟩ :=
      h.cleaning_step hrun hs ha hy (hykey.trans hkey) hp
    generalize hp : y.phase = p at hevolves hsupplying hcleaning
    generalize hq : fill.phase = q at hevolves
    generalize hevent : a.event = event at hevolves
    generalize t.flight.fetches = log at hevolves
    cases hevolves with
    | rest =>
      cases p with
      | cleaning n r =>
        cases r with
        | ok e => exact hcleaning rfl
        | error e => exact hsupplying
      | _ => exact hsupplying
    | next ev _ _ hnext =>
      cases hnext with
      | call | cleaned => trivial
      | fetched n fetched jitter wall =>
        obtain rfl := Act.event_built.mp hevent
        obtain ⟨session,hreturned,hhorizon,hwall⟩ := ha y hy (hykey.trans hkey)
        cases hreturned
        exact fillEntry_full jitter hhorizon hwall
      | failed | timedOut => exact ha.no_failure hevent hy (hykey.trans hkey)
      | panicked n =>
        obtain rfl := Act.event_panicked.mp hevent
        exact ha y hy (hykey.trans hkey)
      | stored n e =>
        obtain rfl := Act.event_put.mp hevent
        obtain ⟨x,hx,-⟩ := h.cached
        obtain rfl := hykey.trans hkey
        exact put_stored hrun hs hy hp hx
  · rw [hreg]
    trivial

theorem Held.step (h : Held cfg key horizon s) (hrun : Run cfg pre s) (hs : Session.step cfg s a = some t)
    (ha : InService cfg key horizon s a) : Held cfg key horizon t := by
  refine ⟨?_,fun _ _ hf hkey => h.fills_step hrun hs ha hf hkey,?_⟩
  · obtain ⟨x,hx,hfull⟩ := h.cached
    rcases h.cached_step hrun hs ha hx with hkept | ⟨f,fill,n,e,-,hf,hkey,hp,-,hput⟩
    · exact ⟨x,hkept,hfull⟩
    · have hsupplying := h.fills f fill hf hkey
      rw [hp] at hsupplying
      exact ⟨⟨e,n⟩,hput,hsupplying⟩
  · refine h.callers.step hs (fun y hy wall hwall => ?_) fun wall heq => ?_
    · obtain ⟨x,hx,hfull⟩ := h.cached
      cases hx.symm.trans hy
      exact hfull.wallValid hwall
    · subst heq
      exact ha rfl

theorem exec_held (hpre : Run cfg pre s) (h : Held cfg key horizon s)
    (hacts : Along (step cfg) (InService cfg key horizon) s acts) (hrun : exec (step cfg) s acts = some t) :
    Held cfg key horizon t := by
  refine exec_induction_along (motive := fun _ t => Held cfg key horizon t) h ?_ hacts hrun
  intro as m a u hm ha ih hu
  exact ih.step (exec_append_iff.mpr ⟨s,hpre,hm⟩) hu ha

end NioClient.Session
