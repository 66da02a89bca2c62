import NioClient.Session.ResolverStep

/-! # Where cached values, candidates and answers come from

In every run each cached value was stored by a fill of its own key, and every
answer is one of three: a hit on such a value, the result of a joined fill, or
a stale candidate after the joined fill failed in transport.
-/
namespace NioClient.Session
open Execution
variable {cfg : ResolverConfig} {s t : State} {a : Act} {acts : List Act}

theorem run_wellFormed (h : Run cfg acts s) : s.flight.WellFormed :=
  exec_invariant (I := fun s => s.flight.WellFormed) (fun _ _ _ hw hs => hw.move (step_flight hs))
    SingleFlight.wellFormed_default h

theorem run_logged (h : Run cfg acts s) : s.flight.Logged cfg :=
  exec_invariant (I := fun s => s.flight.Logged cfg) (fun _ _ _ hl hs => hl.move (step_flight hs))
    SingleFlight.logged_default h

theorem run_cacheSane (h : Run cfg acts s) : CacheSane cfg s :=
  exec_invariant (I := CacheSane cfg) (fun _ _ _ hc hs => step_cacheSane hc hs)
    ⟨rfl,fun _ _ => rfl⟩ h

/-- A fill of `key` fetched by call `n` and has put the entry `e`. -/
def Stored (flight : SingleFlight) (key : TokenHash) (n : ℕ) (e : Entry) : Prop :=
  ∃ (f : ℕ) (fill : Fill), flight.fills[f]? = some fill ∧ fill.key = key ∧
    fill.phase.fetch? = some n ∧ fill.phase.stored? = some e

protected theorem Stored.step {key : TokenHash} {n : ℕ} {e : Entry} (h : Stored s.flight key n e)
    (hs : step cfg s a = some t) : Stored t.flight key n e := by
  obtain ⟨f,fill,hf,rfl,hn,he⟩ := h
  obtain ⟨fill',hf',hkey,hlater⟩ := (step_flight hs).later hf
  exact ⟨f,fill',hf',hkey,hlater.fetch n hn,hlater.stored e he⟩

theorem Stored.earlier {key : TokenHash} {n : ℕ} {e : Entry} (h : Stored t.flight key n e)
    (hs : step cfg s a = some t) : Stored s.flight key n e ∨ ∃ f fill, a = .put f ∧
      s.flight.fills[f]? = some fill ∧ fill.key = key ∧ fill.phase = .storing n e := by
  obtain ⟨f,fill',hf',rfl,hn,he⟩ := h
  obtain ⟨fill,hf,hkey,hfetch,hold | ⟨hput,m,hp⟩⟩ := (step_flight hs).stored_earlier hf' he
  · exact Or.inl ⟨f,fill,hf,hkey,hfetch.trans hn,hold⟩
  · right
    rw [hn, hp] at hfetch
    cases hfetch
    exact ⟨f,fill,Act.event_put.mp hput,hf,hkey,hp⟩

theorem entry?_of_stored? {p : Phase} {e : Entry} (h : p.stored? = some e) : p.entry? = some e := by
  unfold Phase.stored? at h
  split at h <;> simp_all [Phase.entry?]

theorem Stored.fetched (hl : s.flight.Logged cfg) {key : TokenHash} {n : ℕ} {e : Entry}
    (h : Stored s.flight key n e) : e.Capped cfg ∧
      ∃ x, s.flight.fetches[n]? = some x ∧ x.key = key ∧ x.returned = some (.ok e.outcome) := by
  obtain ⟨f,fill,hf,rfl,hn,he⟩ := h
  obtain ⟨hcap,m,x,hm,hx,hret⟩ := hl.entry f fill e hf (entry?_of_stored? he)
  obtain rfl : n = m := Option.some.inj (hn.symm.trans hm)
  obtain ⟨x',hx',-,hkey⟩ := hl.call f fill n hf hn
  cases hx.symm.trans hx'
  exact ⟨hcap,x,hx,hkey,hret⟩

theorem stored_of_put {f n : ℕ} {fill : Fill} {e : Entry} (hs : step cfg s (.put f) = some t)
    (hf : s.flight.fills[f]? = some fill) (hp : fill.phase = .storing n e) :
    Stored t.flight fill.key n e := by
  obtain ⟨fill',n',e',hpend,rfl⟩ := put_eq hs
  obtain ⟨hf',hp'⟩ := SingleFlight.pending_eq hpend
  cases hf.symm.trans hf'
  cases hp.symm.trans hp'
  exact ⟨f,_,SingleFlight.setPhase_self hf,rfl,rfl,rfl⟩

theorem run_cached (h : Run cfg acts s) {key : TokenHash} {x : Cached}
    (hx : s.cache.peek key = some x) : Stored s.flight key x.fetch x.entry := by
  revert key x
  refine exec_induction (motive := fun _ s => ∀ {key : TokenHash} {x : Cached},
    s.cache.peek key = some x → Stored s.flight key x.fetch x.entry) ?_ ?_ h
  · intro key x hx
    simp [init] at hx
  · intro acts s a t hrun ih hs key x hx
    rcases step_peek (run_cacheSane hrun) hs hx with ⟨hold,-⟩ | ⟨f,fill,n,e,rfl,hf,hp,rfl,rfl⟩
    · exact (ih hold).step hs
    · exact stored_of_put hs hf hp

/-- What a captured candidate vouches for, to a `resolve` that started at `now`
and `wall`. -/
structure Vouched (cfg : ResolverConfig) (s : State) (key : TokenHash) (kind : CallerKind)
    (y : Candidate) (e : Entry) (now : ℕ) (wall : ℤ) : Prop where
  kind : kind = .resolve now wall
  stored : Stored s.flight key y.fetch e
  session : e.outcome = some y.session
  fetchedAt : e.fetchedAt = y.fetchedAt
  window : 0 < cfg.staleIfError
  unexpired : wall < y.session.expiresAt
  fresh : now < e.staleUntil

/-- The three ways to an answer. -/
inductive Traced (cfg : ResolverConfig) (s : State) (key : TokenHash) (kind : CallerKind) :
    ResolveResult → Source → Prop
  | l1 (now wall e n) (hkind : kind = .resolve now wall) (hstored : Stored s.flight key n e)
      (hvalid : e.wallValid wall) (hfresh : now < e.freshUntil) :
      Traced cfg s key kind (.ok e.outcome) (.l1 n)
  | joined (f fill n result) (hf : s.flight.fills[f]? = some fill) (hkey : fill.key = key)
      (hp : fill.phase = .done n result) :
      Traced cfg s key kind (result.map Entry.outcome) (.joined f n)
  | stale (f fill n err y e now wall) (hf : s.flight.fills[f]? = some fill) (hkey : fill.key = key)
      (hp : fill.phase = .done n (.error err)) (herr : err.isTransport)
      (hy : Vouched cfg s key kind y e now wall) :
      Traced cfg s key kind (.ok (some y.session)) (.stale f y.fetch)

def CallerOk (cfg : ResolverConfig) (s : State) (x : Caller) : Prop :=
  match x.phase with
  | .flying stale => ∀ y ∈ stale, ∃ e now wall, Vouched cfg s x.key x.kind y e now wall
  | .waiting f stale => (∃ fill, s.flight.fills[f]? = some fill ∧ fill.key = x.key) ∧
      ∀ y ∈ stale, ∃ e now wall, Vouched cfg s x.key x.kind y e now wall
  | .answered answer source => Traced cfg s x.key x.kind answer source
  | _ => True

protected theorem Vouched.step {key : TokenHash} {kind : CallerKind} {y : Candidate} {e : Entry} {now : ℕ}
    {wall : ℤ} (h : Vouched cfg s key kind y e now wall) (hs : step cfg s a = some t) :
    Vouched cfg t key kind y e now wall := { h with stored := h.stored.step hs }

protected theorem Traced.step {key : TokenHash} {kind : CallerKind} {answer : ResolveResult} {source : Source}
    (h : Traced cfg s key kind answer source) (hs : step cfg s a = some t) :
    Traced cfg t key kind answer source := by
  cases h with
  | l1 now wall e n hkind hstored hvalid hfresh =>
    exact .l1 now wall e n hkind (hstored.step hs) hvalid hfresh
  | joined f fill n result hf hkey hp =>
    obtain ⟨fill',hf',hkey',hlater⟩ := (step_flight hs).later hf
    exact .joined f fill' n result hf' (hkey'.trans hkey) (hlater.done n _ hp)
  | stale f fill n err y e now wall hf hkey hp herr hy =>
    obtain ⟨fill',hf',hkey',hlater⟩ := (step_flight hs).later hf
    exact .stale f fill' n err y e now wall hf' (hkey'.trans hkey) (hlater.done n _ hp) herr
      (hy.step hs)

protected theorem CallerOk.step {x : Caller} (h : CallerOk cfg s x) (hs : step cfg s a = some t) :
    CallerOk cfg t x := by
  obtain ⟨key,kind,phase⟩ := x
  cases phase with
  | flying stale =>
    intro y hy
    obtain ⟨e,now,wall,hv⟩ := h y hy
    exact ⟨e,now,wall,hv.step hs⟩
  | waiting f stale =>
    obtain ⟨⟨fill,hf,hkey⟩,hstale⟩ := h
    obtain ⟨fill',hf',hkey',-⟩ := (step_flight hs).later hf
    refine ⟨⟨fill',hf',hkey'.trans hkey⟩,fun y hy => ?_⟩
    obtain ⟨e,now,wall,hv⟩ := hstale y hy
    exact ⟨e,now,wall,hv.step hs⟩
  | answered answer source => exact Traced.step h hs
  | started | expired | missed | cancelled | panicked => trivial

/-- A candidate is found in the cache, where a fill of its key has stored it. -/
theorem candidate_vouched (h : Run cfg acts s) {key : TokenHash} {now : ℕ} {wall : ℤ} {y : Candidate}
    (hy : s.candidate cfg key now wall = some y) :
    ∃ e, Vouched cfg s key (.resolve now wall) y e now wall := by
  simp only [State.candidate, Option.bind_eq_bind, Option.bind_eq_some_iff] at hy
  obtain ⟨x,hx,⟨session,fetchedAt⟩,hstale,hy⟩ := hy
  cases hy
  obtain ⟨hwindow,e,he,hsession,hat,hexp,hfresh⟩ := staleCandidate_some hstale
  cases he
  exact ⟨x.entry,rfl,run_cached h hx,hsession,hat,hwindow,hexp,hfresh⟩

/-- The end of `resolve` answers with the fill's result or with the candidate. -/
theorem conclude_ok {f n : ℕ} {fill : Fill} {result : Except ResolveError Entry} {key : TokenHash}
    {kind : CallerKind} {stale : Option Candidate} (hf : s.flight.fills[f]? = some fill)
    (hkey : fill.key = key) (hp : fill.phase = .done n result)
    (hstale : ∀ y ∈ stale, ∃ e now wall, Vouched cfg s key kind y e now wall) :
    CallerOk cfg s ⟨key, kind, State.conclude f n result stale⟩ := by
  cases result with
  | ok e => exact .joined f fill n (.ok e) hf hkey hp
  | error err =>
    simp only [State.conclude]
    split
    · rename_i herr
      cases stale with
      | none => exact .joined f fill n (.error err) hf hkey hp
      | some y =>
        obtain ⟨e,now,wall,hv⟩ := hstale y rfl
        exact .stale f fill n err y e now wall hf hkey hp herr hv
    · exact .joined f fill n (.error err) hf hkey hp

theorem callerMove_ok (hrun : Run cfg acts s) (hs : step cfg s a = some t) {x y : Caller}
    (hx : CallerOk cfg s x) (hxy : CallerMove cfg s t x y) : CallerOk cfg t y := by
  cases hxy with
  | miss | expired | forcedMiss | poisoned | cancel => trivial
  | hit key now wall x hpeek hvalid hfresh =>
    exact .l1 now wall x.entry x.fetch rfl ((run_cached hrun hpeek).step hs) hvalid hfresh
  | capture key now wall =>
    intro y hy
    obtain ⟨e,hv⟩ := candidate_vouched hrun hy
    exact ⟨e,now,wall,hv.step hs⟩
  | join key kind stale id f hf =>
    obtain ⟨fill,hfill,hkey,-⟩ := ((run_wellFormed hrun).move (step_flight hs)).owner key id f hf
    refine ⟨⟨fill,hfill,hkey⟩,fun y hy => ?_⟩
    obtain ⟨e,now,wall,hv⟩ := hx y hy
    exact ⟨e,now,wall,hv.step hs⟩
  | receive key kind f stale fill n result hf hp =>
    obtain ⟨⟨fill',hf',hkey⟩,hstale⟩ := hx
    cases hf.symm.trans hf'
    exact CallerOk.step (conclude_ok hf hkey hp hstale) hs

theorem run_callers (h : Run cfg acts s) {c : ℕ} {x : Caller} (hx : s.callers[c]? = some x) :
    CallerOk cfg s x := by
  revert c x
  refine exec_induction (motive := fun _ s => ∀ {c : ℕ} {x : Caller},
    s.callers[c]? = some x → CallerOk cfg s x) ?_ ?_ h
  · intro c x hx
    simp [init] at hx
  · intro acts s a t hrun ih hs c y hy
    rcases step_callers hs hy with hold | ⟨x,hx,hxy⟩ | ⟨-,hborn⟩
    · exact (ih hold).step hs
    · exact callerMove_ok hrun hs (ih hx) hxy
    · cases hborn with
      | resolve key wall => trivial
      | refresh key =>
        intro y hy
        cases hy

theorem answer_fetch (h : Run cfg acts s) {c : ℕ} {key : TokenHash} {kind : CallerKind}
    {v : Option ResolvedSession} {source : Source}
    (hc : s.callers[c]? = some ⟨key,kind,.answered (.ok v) source⟩) :
    ∃ x, s.flight.fetches[source.fetch]? = some x ∧ x.key = key ∧ x.returned = some (.ok v) := by
  have hl := run_logged h
  have htraced : Traced cfg s key kind (.ok v) source := run_callers h hc
  generalize hans : (Except.ok v : ResolveResult) = answer at htraced
  cases htraced with
  | l1 now wall e n hkind hstored =>
    cases hans
    exact (hstored.fetched hl).2
  | joined f fill n result hf hkey hp =>
    cases result with
    | error err => cases hans
    | ok e =>
      cases hans
      have hstored : Stored s.flight key n e :=
        ⟨f,fill,hf,hkey, by simp [hp, Phase.fetch?], by simp [hp, Phase.stored?]⟩
      exact (hstored.fetched hl).2
  | stale f fill n err y e now wall hf hkey hp herr hy =>
    cases hans
    exact hy.session ▸ (hy.stored.fetched hl).2

end NioClient.Session
