import NioClient.Session.Staleness

/-! # Expiry and revocation, as time passes

The L1 lookup and the stale candidate check a session's expiry; the result of a
joined fill is handed out as the fetch returned it. The deadlines of an entry
count from the return of its fetch, not from its beginning.
-/
namespace NioClient.Session
open Execution
variable {cfg : ResolverConfig} {s t : State} {a : Act} {acts : List Act} {key : TokenHash} {r : ℕ}

def AnswersUnexpired (s : State) : Prop :=
  ∀ (c : ℕ) key now wall session source,
    s.callers[c]? = some ⟨key, .resolve now wall, .answered (.ok (some session)) source⟩ →
    wall < session.expiresAt

/-- No resolve awaits a fill whose fetch returns a session which has expired at
the wall time that the resolve has read. -/
def FillsUnexpired (cfg : ResolverConfig) (acts : List Act) (s : State) : Prop :=
  ∀ c key now wall f, JoinedAt cfg acts c key (.resolve now wall) f →
    ∀ x ∈ s.flight.fetches, x.fill = f → ∀ session, x.returned = some (.ok (some session)) →
      wall < session.expiresAt

theorem answers_unexpired (h : Run cfg acts s) (hfills : FillsUnexpired cfg acts s) :
    AnswersUnexpired s := by
  intro c key now wall session source hc
  obtain ⟨e,x,hfrom⟩ := answer_provenance h hc
  cases hfrom.path with
  | joined v n hjoined =>
    exact hfills c key now wall x.fill hjoined x (List.mem_of_getElem? hfrom.fetch) rfl session
      hfrom.returned
  | l1Session y n hfresh hage hexp => exact hexp
  | staleIfError y f n fill m msg hjoined hf hp hwindow hage hexp => exact hexp

theorem answers_unexpired_coldResolve :
    let acts := coldResolve 0 0 "k" 0 ++ settle 0 0 (some ⟨"alice", "acme", secs 3600⟩) 0
    ∃ s, Run {} acts s ∧ AnswersUnexpired s := by
  intro acts
  have hrun : (exec (step {}) (init {}) acts).map (fun s => (s.callers, s.flight.fetches)) =
      some ([⟨"k", .resolve 0 0, .answered (.ok (some ⟨"alice", "acme", secs 3600⟩)) (.joined 0 0)⟩],
        [⟨0, "k", 0, some (.ok (some ⟨"alice", "acme", secs 3600⟩))⟩]) := by decide +kernel
  obtain ⟨s,h,hs⟩ := Option.map_eq_some_iff.mp hrun
  obtain ⟨hcallers,hfetches⟩ := Prod.mk.inj hs
  refine ⟨s,h,answers_unexpired h ?_⟩
  intro c key now wall f hjoined x hx hfill session hret
  obtain ⟨phase,hc,-⟩ := hjoined.receipt h
  rw [hfetches, List.mem_singleton] at hx
  subst hx
  cases hret
  have hmem := List.mem_of_getElem? hc
  rw [hcallers, List.mem_singleton] at hmem
  cases hmem
  decide

/-- The backend returns a session which expired a second ago, and the resolve
hands it out. -/
theorem expiredFetch_answered : let session : ResolvedSession := ⟨"alice", "acme", secs 100⟩
    ∃ s, Run {} (coldResolve 0 0 "k" (secs 101) ++ settle 0 0 (some session) (secs 101)) s ∧
      ¬ AnswersUnexpired s := by
  intro session
  have hrun : (exec (step {}) (init {})
      (coldResolve 0 0 "k" (secs 101) ++ settle 0 0 (some session) (secs 101))).map State.callers =
      some [⟨"k", .resolve 0 (secs 101), .answered (.ok (some session)) (.joined 0 0)⟩] := by
    decide +kernel
  obtain ⟨s,h,hs⟩ := Option.map_eq_some_iff.mp hrun
  refine ⟨s,h,fun hall => ?_⟩
  have hexp := hall 0 "k" 0 (secs 101) session _ (by rw [hs]; rfl)
  exact absurd hexp (by decide)

/-- From the instant `r` on the backend answers every fetch of `key` that begins
with `Ok(None)`. -/
def Revoked (s : State) (key : TokenHash) (r : ℕ) : Prop :=
  ∀ x ∈ s.flight.fetches, x.key = key → r ≤ x.beganAt → ∀ result, x.returned = some result → result = .ok none

/-- No resolve that begins at or after `r + l1_ttl` answers with a session. -/
def RevocationCapped (cfg : ResolverConfig) (s : State) (key : TokenHash) (r : ℕ) : Prop :=
  ∀ (c : ℕ) now wall session source, r + cfg.l1Ttl ≤ now →
    s.callers[c]? ≠ some ⟨key, .resolve now wall, .answered (.ok (some session)) source⟩

/-- A fetch of `key` that began before `r` and returns a session returns it so
early that the TTL it draws ends by `r + l1_ttl`. -/
def ReturnsInTime (cfg : ResolverConfig) (key : TokenHash) (r : ℕ) (s : State) : Act → Prop
  | .fetchReturns f (.ok (some session)) jitter wall =>
    ∀ fill ∈ s.flight.fills[f]?, fill.key = key → ∀ n ∈ fill.phase.fetch?, ∀ x ∈ s.flight.fetches[n]?,
      x.beganAt < r → s.now + min (effectiveTtl cfg jitter) (wallRemaining session wall) ≤ r + cfg.l1Ttl
  | _ => True

instance (s : State) (a : Act) : Decidable (ReturnsInTime cfg key r s a) := by
  unfold ReturnsInTime
  split <;> infer_instance

/-- No resolve that begins at or after `r + l1_ttl` joins a fill whose fetch began
before `r` and returns a session. -/
def NoLateJoin (cfg : ResolverConfig) (acts : List Act) (s : State) (key : TokenHash) (r : ℕ) : Prop :=
  ∀ c now wall f, JoinedAt cfg acts c key (.resolve now wall) f → r + cfg.l1Ttl ≤ now →
    ∀ x ∈ s.flight.fetches, x.fill = f → x.beganAt < r →
      ∀ session, x.returned ≠ some (.ok (some session))

def FreshInTime (cfg : ResolverConfig) (key : TokenHash) (r : ℕ) (s : State) : Prop :=
  ∀ (f : ℕ) (fill : Fill) (e : Entry) (n : ℕ) (x : Fetch), s.flight.fills[f]? = some fill →
    fill.key = key → fill.phase.entry? = some e → fill.phase.fetch? = some n →
    s.flight.fetches[n]? = some x → x.beganAt < r → e.outcome.isSome → e.freshUntil ≤ r + cfg.l1Ttl

theorem FreshInTime.step (h : FreshInTime cfg key r s) (hl : s.flight.Logged cfg)
    (hreturn : ReturnsInTime cfg key r s a) (hs : Session.step cfg s a = some t) :
    FreshInTime cfg key r t := by
  intro f fill' e n x' hf' hkey' he hn hx' hbegan hsome
  obtain ⟨fill,hf,hkey,hfetch,hcases⟩ := (step_flight hs).entry_earlier hf' he
  have hn' : fill.phase.fetch? = some n := hfetch.trans hn
  obtain ⟨x,hx,-⟩ := hl.call f fill n hf hn'
  obtain ⟨x'',hx'',-,-,hbegan'⟩ := (step_flight hs).fetch_later hx
  cases hx'.symm.trans hx''
  rw [hbegan'] at hbegan
  rcases hcases with hold | ⟨fetched,jitter,wall,hevent,rfl⟩
  · exact h f fill e n x hf (hkey.trans hkey') hold hn' hx hbegan hsome
  · cases Act.event_built.mp hevent
    cases fetched with
    | none => simp at hsome
    | some session => exact hreturn fill hf (hkey.trans hkey') n hn' x hx hbegan

theorem run_freshInTime (h : Run cfg acts s)
    (hreturn : Along (step cfg) (ReturnsInTime cfg key r) (init cfg) acts) : FreshInTime cfg key r s := by
  refine exec_induction_along (motive := fun _ s => FreshInTime cfg key r s) ?_ ?_ hreturn h
  · intro f fill e n x hf
    simp [init, SingleFlight.default] at hf
  · intro as m a u hm hG ih hu
    exact ih.step (run_logged hm) hG hu

/-- With stale-if-error off, a run whose fetches return in time, and in which
nobody joins an old fill late, keeps to the cap. -/
theorem revocation_capped (h : Run cfg acts s) (hoff : cfg.staleIfError = 0) (hrevoked : Revoked s key r)
    (hreturn : Along (step cfg) (ReturnsInTime cfg key r) (init cfg) acts)
    (hjoin : NoLateJoin cfg acts s key r) : RevocationCapped cfg s key r := by
  intro c now wall session source hlate hc
  obtain ⟨e,x,hfrom⟩ := answer_provenance h hc
  have hx := List.mem_of_getElem? hfrom.fetch
  -- the fetch returned a session, so it began before the revocation
  have hbegan : x.beganAt < r := by
    by_contra hge
    cases hrevoked x hx hfrom.fetch_key (Nat.le_of_not_lt hge) _ hfrom.returned
  have hpath := hfrom.path
  generalize hv : some session = v at hpath
  cases hpath with
  | joined v n hjoined =>
    subst hv
    exact hjoin c now wall x.fill hjoined hlate x hx rfl hbegan session hfrom.returned
  | l1Session y n hfresh hage hexp =>
    obtain ⟨f,fill,hf,hkey,hn,hstored⟩ := hfrom.stored
    have hcap : e.freshUntil ≤ r + cfg.l1Ttl :=
      run_freshInTime h hreturn f fill e _ x hf hkey (entry?_of_stored? hstored) hn hfrom.fetch hbegan
        (by simp [hfrom.outcome])
    omega
  | l1Tombstone n hage => cases hv
  | staleIfError y f n fill m msg hjoined hf hp hwindow hage hexp => omega

theorem revocation_capped_refetch : let session : ResolvedSession := ⟨"alice", "acme", secs 3600⟩
    let acts := coldResolve 0 0 "k" 0 ++ settle 0 0 (some session) 0 ++
      .tick (secs 31) :: coldResolve 1 1 "k" 0 ++ settle 1 1 none 0
    ∃ s, Run {} acts s ∧ RevocationCapped {} s "k" (secs 1) := by
  intro session acts
  have hrun : (exec (step {}) (init {}) acts).map (fun s => (s.callers, s.flight.fetches)) =
      some ([⟨"k", .resolve 0 0, .answered (.ok (some session)) (.joined 0 0)⟩,
          ⟨"k", .resolve (secs 31) 0, .answered (.ok none) (.joined 1 1)⟩],
        [⟨0, "k", 0, some (.ok (some session))⟩, ⟨1, "k", secs 31, some (.ok none)⟩]) := by
    decide +kernel
  obtain ⟨s,h,hs⟩ := Option.map_eq_some_iff.mp hrun
  obtain ⟨hcallers,hfetches⟩ := Prod.mk.inj hs
  have hreturn : Along (step {}) (ReturnsInTime {} "k" (secs 1)) (init {}) acts := by decide +kernel
  refine ⟨s,h,revocation_capped h rfl ?_ hreturn ?_⟩
  · intro x hx hkey hbegan result hret
    rw [hfetches] at hx
    rcases List.mem_pair.mp hx with rfl | rfl
    · exact absurd hbegan (by decide)
    · exact (Option.some.inj hret).symm
  · intro c now wall f hjoined hlate x hx hfill hbegan y hret
    obtain ⟨phase,hc,hphase⟩ := hjoined.receipt h
    rw [hfetches] at hx
    have hmem := List.mem_of_getElem? hc
    rw [hcallers] at hmem
    rcases List.mem_pair.mp hmem with heq | heq
    · cases heq
      exact absurd hlate (by decide)
    · cases heq
      rcases List.mem_pair.mp hx with rfl | rfl
      · cases hfill
        simpa [CallerPhase.joined?] using hphase.answered
      · cases hret

def slowFetch (session : ResolvedSession) : List Act :=
  coldResolve 0 0 "k" 0 ++ .tick (secs 4) :: settle 0 0 (some session) 0 ++
    [.tick (secs 28), .resolve "k" 0, .lookup 1]

theorem slowFetch_outlives_cap : let session : ResolvedSession := ⟨"alice", "acme", secs 3600⟩
    ∃ s, Run {} (slowFetch session) s ∧ Revoked s "k" (secs 1) ∧ ¬ RevocationCapped {} s "k" (secs 1) := by
  intro session
  have hrun : (exec (step {}) (init {}) (slowFetch session)).map
      (fun s => (s.callers[1]?, s.flight.fetches)) =
      some (some ⟨"k", .resolve (secs 32) 0, .answered (.ok (some session)) (.l1 0)⟩,
        [⟨0, "k", 0, some (.ok (some session))⟩]) := by decide +kernel
  obtain ⟨s,h,hs⟩ := Option.map_eq_some_iff.mp hrun
  obtain ⟨hcaller,hfetches⟩ := Prod.mk.inj hs
  refine ⟨s,h,?_,fun hcap => ?_⟩
  · intro x hx hkey hbegan
    rw [hfetches, List.mem_singleton] at hx
    subst hx
    exact absurd hbegan (by decide)
  · exact hcap 1 (secs 32) 0 session _ (by decide) hcaller

end NioClient.Session
