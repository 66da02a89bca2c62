import NioClient.Session.ResponseTime

/-! # How old an answer can be

If the runtime delays no step by more than `δ`, then an answer is what the backend said
to a fetch that began at most the timeout, three delays and the caching windows before the
resolve.
-/
namespace NioClient.Session
open Execution
variable {cfg : ResolverConfig} {s t : State} {a : Act} {acts : List Act} {δ : ℕ}

def ResolverConfig.window (cfg : ResolverConfig) : Option ResolvedSession → ℕ
  | some _ => cfg.l1Ttl + cfg.staleIfError
  | none => cfg.negTtl

theorem Timely.stamped (h : Timely cfg δ acts s) {f τ : ℕ} {fill : Fill} {e : Entry}
    (hf : s.flight.fills[f]? = some fill) (he : fill.phase.entry? = some e) (hbegan : s.flight.BeganAt f τ) :
    e.fetchedAt ≤ τ + RESOLVE_TIMEOUT + δ := by
  let P (w : State) : Prop :=
    (∃ fill, w.flight.fills[f]? = some fill ∧ fill.phase.entry? = some e) ∧ w.flight.BeganAt f τ
  have hinit : ¬ P (init cfg) := by simp [P, init, SingleFlight.default]
  obtain ⟨u,b,v,hpass,hnot,⟨⟨y,hy,hye⟩,hbv⟩⟩ := h.entered hinit ⟨⟨fill,hf,he⟩,hbegan⟩
  obtain ⟨before,hu,-⟩ := hpass.before
  obtain ⟨x,hx,-,hfetch,hcases⟩ := (step_flight hpass.step).entry_earlier hy hye
  rcases hbv.earlier (run_logged hu.run) hpass.step with hbu | ⟨rfl,-,x',hx',hreg⟩
  · rcases hcases with hold | ⟨fetched,jitter,wall,hevent,rfl⟩
    · exact absurd ⟨⟨x,hx,hold⟩,hbu⟩ hnot
    · obtain rfl := Act.event_built.mp hevent
      obtain ⟨flight,hreturn,-⟩ := Option.map_eq_some_iff.mp hpass.step
      obtain ⟨x',n,hx',hp,-⟩ := SingleFlight.fetchReturns_eq hreturn
      have hbound := hu.fetching hx' hp hbu
      cases fetched <;> exact hbound
  · cases hx.symm.trans hx'
    rcases hcases with hold | ⟨fetched,jitter,wall,hevent,-⟩
    · rw [hreg] at hold
      cases hold
    · cases Act.event_built.mp hevent

/-- The fetch that a caller waits for has not been over for long when it came. -/
theorem Timely.began_ge (h : Timely cfg δ acts s) {c now f τ : ℕ} {fill : Fill} (hc : Waits s c now f)
    (hf : s.flight.fills[f]? = some fill) (hp : ∀ n, fill.phase ≠ .panicked n)
    (hbegan : s.flight.BeganAt f τ) : now ≤ τ + RESOLVE_TIMEOUT + 3 * δ := by
  let P (w : State) : Prop := Waits w c now f ∧ w.flight.BeganAt f τ ∧
    ∃ y, w.flight.fills[f]? = some y ∧ ∀ n, y.phase ≠ .panicked n
  have hinit : ¬ P (init cfg) := by simp [P, Waits, init]
  obtain ⟨u,b,v,hpass,hnot,hv,hbv,y,hy,hyp⟩ := h.entered hinit ⟨hc,hbegan,fill,hf,hp⟩
  obtain ⟨before,hu,hafter⟩ := hpass.before
  have hstarted (w : State) (acts : List Act) (hw : Waits w c now f) (hrun : Run cfg acts w) : now ≤ w.now := by
    obtain ⟨key,wall,stale,hc⟩ := hw
    exact run_startedAt hrun hc rfl
  rcases hv.earlier hpass.step with hold | ⟨key,wall,stale,id,-,hlook⟩
  · rcases hbv.earlier (run_logged hu.run) hpass.step with hbu | ⟨-,rfl,-⟩
    · obtain ⟨x,hx⟩ := hold.fill hu.run
      obtain ⟨y',hy',-,hlater⟩ := (step_flight hpass.step).later hx
      cases hy.symm.trans hy'
      exact absurd ⟨hold,hbu,x,hx,fun n hn => hyp n (hlater.panicked n hn)⟩ hnot
    · have hle := hstarted u before hold hu.run
      omega
  · obtain ⟨y',hy',-,-,hlive⟩ := (run_wellFormed hafter.run).owner key id f hlook
    cases hy.symm.trans hy'
    have hunended : y.phase.ended = false := by
      cases hphase : y.phase with
      | panicked n => exact absurd hphase (hyp n)
      | done n r => simp [hphase, Phase.live] at hlive
      | _ => rfl
    have hbound := hafter.unended_fill hy hunended hbv
    have hle := hstarted v _ hv hafter.run
    omega

theorem Timely.joined (h : Timely cfg δ acts s) {c now f n τ : ℕ} {key : TokenHash} {wall : ℤ}
    {v : Option ResolvedSession} (hc : s.callers[c]? = some ⟨key,.resolve now wall,.answered (.ok v) (.joined f n)⟩)
    (hbegan : s.flight.BeganAt f τ) : now ≤ τ + RESOLVE_TIMEOUT + 3 * δ := by
  let P (w : State) : Prop :=
    w.callers[c]? = some ⟨key,.resolve now wall,.answered (.ok v) (.joined f n)⟩ ∧ w.flight.BeganAt f τ
  have hinit : ¬ P (init cfg) := by simp [P, init]
  obtain ⟨u,b,w,hpass,hnot,hw,hbw⟩ := h.entered hinit ⟨hc,hbegan⟩
  obtain ⟨before,hu,-⟩ := hpass.before
  -- the fill has long called its fetch
  have hdone {x : Fill} {m : ℕ} {r : Except ResolveError Entry} (hx : u.flight.fills[f]? = some x)
      (hp : x.phase = .done m r) : u.flight.BeganAt f τ := by
    rcases hbw.earlier (run_logged hu.run) hpass.step with hbu | ⟨-,-,x',hx',hreg⟩
    · exact hbu
    · cases hx.symm.trans hx'
      cases hp.symm.trans hreg
  rcases step_callers hpass.step hw with hold | ⟨x,hx,hxw⟩ | ⟨-,hborn⟩
  · have htraced : Traced cfg u key (.resolve now wall) (.ok v) (.joined f n) := run_callers hu.run hold
    obtain ⟨fill,r,hf,hp⟩ : ∃ fill r, u.flight.fills[f]? = some fill ∧ fill.phase = .done n r := by
      generalize hans : (Except.ok v : ResolveResult) = answer at htraced
      cases htraced with
      | joined _ fill _ r hf hkey hp => exact ⟨fill,r,hf,hp⟩
    exact absurd ⟨hold,hdone hf hp⟩ hnot
  · generalize hphase : CallerPhase.answered (.ok v) (.joined f n) = phase at hxw
    cases hxw with
    | receive key kind g stale fill m r hg hp =>
      have hjoined := conclude_joined g m r stale
      rw [← hphase] at hjoined
      obtain rfl : f = g := Option.some.inj hjoined
      exact hu.began_ge ⟨key,wall,stale,hx⟩ hg (fun n hn => by cases hp.symm.trans hn) (hdone hg hp)
    | _ => cases hphase
  · cases hborn

theorem answer_began (h : Run cfg acts s) (hpunctual : Punctual cfg δ acts) {c : ℕ} {key : TokenHash}
    {now : ℕ} {wall : ℤ} {v : Option ResolvedSession} {source : Source}
    (hc : s.callers[c]? = some ⟨key,.resolve now wall,.answered (.ok v) source⟩) :
    ∃ x, s.flight.fetches[source.fetch]? = some x ∧ x.key = key ∧ x.returned = some (.ok v) ∧
      now ≤ x.beganAt + RESOLVE_TIMEOUT + cfg.window v + 3 * δ := by
  have htimely := timely_of_punctual h hpunctual
  obtain ⟨e,x,hfrom⟩ := answer_provenance h hc
  refine ⟨x,hfrom.fetch,hfrom.fetch_key,hfrom.returned,?_⟩
  obtain ⟨f,fill,hf,-,hn,he⟩ := hfrom.stored
  have hstamped := htimely.stamped hf (entry?_of_stored? he) ⟨fill,_,x,hf,hn,hfrom.fetch,rfl⟩
  have hfetch := hfrom.fetch
  have hpath := hfrom.path
  cases hpath with
  | joined v n hjoined =>
    obtain ⟨fill',hf',hn'⟩ := (run_logged h).caller n x hfetch
    have hbound := htimely.joined hc ⟨fill',n,x,hf',hn',hfetch,rfl⟩
    omega
  | l1Session y n hfresh hage hexp =>
    simp only [ResolverConfig.window]
    omega
  | l1Tombstone n hage =>
    simp only [ResolverConfig.window]
    omega
  | staleIfError y f n fill m msg hjoined hf hp hwindow hage hexp =>
    simp only [ResolverConfig.window]
    omega

/-- Every `Ok` answer is what one fetch of the token returned, and that fetch began no
longer before the resolve than the timeout, the caching window and three delays. -/
theorem answer_age (h : Run cfg acts s) (hpunctual : Punctual cfg δ acts) {c : ℕ} {key : TokenHash}
    {now : ℕ} {wall : ℤ} {v : Option ResolvedSession} {source : Source}
    (hc : s.callers[c]? = some ⟨key,.resolve now wall,.answered (.ok v) source⟩) :
    ∃ x ∈ s.flight.fetches, x.key = key ∧ x.returned = some (.ok v) ∧
      now ≤ x.beganAt + RESOLVE_TIMEOUT + cfg.window v + 3 * δ := by
  obtain ⟨x,hx,hkey,hret,hage⟩ := answer_began h hpunctual hc
  exact ⟨x,List.mem_of_getElem? hx,hkey,hret,hage⟩

theorem answer_age_slow : let session : ResolvedSession := ⟨"alice","acme",secs 3600⟩
    let acts := coldResolve 0 0 "k" 0 ++ [.tick (secs 3)] ++ settle 0 0 (some session) 0
    ∃ s, Run {} acts s ∧ Punctual {} 0 acts ∧
      s.callers[0]? = some ⟨"k",.resolve 0 0,.answered (.ok (some session)) (.joined 0 0)⟩ ∧
      ∃ x ∈ s.flight.fetches, x.key = "k" ∧ x.returned = some (.ok (some session)) ∧
        0 ≤ x.beganAt + RESOLVE_TIMEOUT + ResolverConfig.window {} (some session) + 3 * 0 := by
  intro session acts
  have hcaller : (exec (step {}) (init {}) acts).map (fun s => s.callers[0]?) =
      some (some ⟨"k",.resolve 0 0,.answered (.ok (some session)) (.joined 0 0)⟩) := by decide +kernel
  obtain ⟨s,h,hs⟩ := Option.map_eq_some_iff.mp hcaller
  have hpunctual : Punctual {} 0 acts := by
    refine punctual_of_prompt (along_concat (along_concat ?_ fun t ht => ?_) fun t _ => ?_)
    · simp [coldResolve, Along, Prompt]
    · exact ⟨fun k hk b => coldResolve_idle ht (hk.trans (by decide)),fun _ _ => trivial⟩
    · simp [settle, Along, Prompt]
  exact ⟨s,h,hpunctual,hs,answer_age h hpunctual hs⟩

end NioClient.Session
