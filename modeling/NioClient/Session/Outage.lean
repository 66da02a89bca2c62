import NioClient.Session.Quiescence
import NioClient.Session.Retention

/-! # Through an outage of the backend

While every fetch fails in transport, a token which is cached with a session goes on being
answered with that session, up to the end of its stale window.
-/
namespace NioClient.Session
open Execution
variable {cfg : ResolverConfig} {s t : State} {a : Act} {pre acts : List Act} {key : TokenHash} {x : Cached}
  {session : ResolvedSession}

/-- A step during an outage, in which nobody signs `key` out and its session does not expire. -/
def InOutage (key : TokenHash) (session : ResolvedSession) : Act → Prop
  | .fetchReturns _ returned _ _ => ∃ msg, returned = .error (.transport msg)
  | .fetchPanics _ => False
  | .evict k => k ≠ key
  | .resolve k wall => k = key → wall < session.expiresAt
  | _ => True

def Phase.failing : Phase → Bool
  | .registered | .fetching _ => true
  | .cleaning _ (.error e) | .done _ (.error e) => e.isTransport
  | _ => false

/-- The session is cached, no fill is about to succeed, and no caller holds it for expired. -/
structure Down (s : State) (key : TokenHash) (x : Cached) (session : ResolvedSession) : Prop where
  cached : s.cache.peek key = some x
  outcome : x.entry.outcome = some session
  fills : ∀ (f : ℕ) (fill : Fill), s.flight.fills[f]? = some fill → fill.phase.live → fill.phase.failing
  callers : ∀ (c : ℕ) (y : Caller), s.callers[c]? = some y → y.key = key →
    y.phase ≠ .expired ∧ ∀ now wall, y.kind = .resolve now wall → wall < session.expiresAt

def Unexpired (s : State) (key : TokenHash) (horizon : ℤ) : Prop :=
  ∀ (c : ℕ) (y : Caller), s.callers[c]? = some y → y.key = key →
    y.phase ≠ .expired ∧ ∀ now wall, y.kind = .resolve now wall → wall < horizon

protected theorem Unexpired.step {horizon : ℤ} (h : Unexpired s key horizon) (hs : step cfg s a = some t)
    (hvalid : ∀ x, s.cache.peek key = some x → ∀ wall < horizon, x.entry.wallValid wall)
    (ha : ∀ wall, a = .resolve key wall → wall < horizon) : Unexpired t key horizon := by
  intro c y hy hkey
  rcases step_callers hs hy with hold | ⟨z,hz,hzy⟩ | ⟨rfl,hborn⟩
  · exact h c y hold hkey
  · have hbefore := h c z hz
    cases hzy with
    | expired k now wall x hx hexp =>
      -- what is cached has not expired for any caller of the token
      obtain rfl := hkey
      have hunexpired := hvalid x hx wall ((hbefore rfl).2 now wall rfl)
      simp [judge_expired hexp] at hunexpired
    | receive k kind f stale fill n result =>
      refine ⟨fun hp => ?_,(hbefore hkey).2⟩
      have hended := conclude_ended f n result stale
      rw [show State.conclude f n result stale = .expired from hp] at hended
      cases hended
    | _ => exact ⟨fun hp => (by cases hp),(hbefore hkey).2⟩
  · rcases step_born hs hy with ⟨k,wall,rfl,rfl⟩ | ⟨c,z,rfl,hz,rfl⟩
    · refine ⟨fun hp => (by cases hp),fun now wall' hkind => ?_⟩
      cases hkind
      exact ha wall (by rw [← hkey])
    · exact ⟨fun hp => (by cases hp),fun now wall hkind => (by cases hkind)⟩

theorem failed_transport {f n : ℕ} {e : ResolveError} {y : Fill} (hs : step cfg s a = some t)
    (ha : InOutage key session a) (hev : a.event = some (f,.failed)) (hy : t.flight.fills[f]? = some y)
    (hp : y.phase = .cleaning n (.error e)) : e.isTransport := by
  cases a with
  | fetchReturns g returned jitter wall =>
    obtain ⟨msg,rfl⟩ := ha
    cases hev
    obtain ⟨flight,hflight,rfl⟩ := Option.map_eq_some_iff.mp hs
    obtain ⟨fill,m,hf,-,rfl⟩ := SingleFlight.fetchReturns_eq hflight
    cases hy.symm.trans (SingleFlight.setPhase_self hf)
    cases hp
    rfl
  | fetchTimesOut g =>
    cases hev
    obtain ⟨flight,hflight,rfl⟩ := Option.map_eq_some_iff.mp hs
    obtain ⟨fill,m,z,hf,-,-,-,rfl⟩ := SingleFlight.fetchTimesOut_eq hflight
    cases hy.symm.trans (SingleFlight.setPhase_self hf)
    cases hp
    rfl
  | _ => cases hev

theorem failing_step {f : ℕ} {y z : Fill} (hs : step cfg s a = some t) (ha : InOutage key session a)
    (hy : s.flight.fills[f]? = some y) (hz : t.flight.fills[f]? = some z) (hfail : y.phase.failing) :
    z.phase.failing := by
  obtain ⟨q,hq,hevolves⟩ := (step_flight hs).evolves hy
  cases hz.symm.trans hq
  dsimp only
  generalize hp : y.phase = p at hevolves hfail
  generalize hevent : a.event = event at hevolves
  generalize t.flight.fetches = log at hevolves
  cases hevolves with
  | rest => exact hfail
  | next ev _ _ hnext =>
    cases hnext with
    | call => rfl
    | fetched n fetched jitter wall =>
      obtain rfl := Act.event_built.mp hevent
      obtain ⟨msg,hmsg⟩ := ha
      cases hmsg
    | failed n e => exact failed_transport hs ha hevent hq rfl
    | timedOut => rfl
    | panicked =>
      obtain rfl := Act.event_panicked.mp hevent
      exact ha.elim
    | stored => cases hfail
    | cleaned n r =>
      cases r with
      | ok e => cases hfail
      | error e => exact hfail

theorem Down.fills_step (h : Down s key x session) (hs : step cfg s a = some t) (ha : InOutage key session a)
    {f : ℕ} {fill : Fill} (hf : t.flight.fills[f]? = some fill) (hlive : fill.phase.live) :
    fill.phase.failing := by
  rcases (step_flight hs).origin hf with ⟨y,hy,-,-,hevolves⟩ | ⟨-,hreg,-⟩
  · refine failing_step hs ha hy hf (h.fills f y hy ?_)
    cases hp : y.phase with
    | done n r =>
      obtain ⟨y',hy',-,hlater⟩ := (step_flight hs).later hy
      cases hf.symm.trans hy'
      rw [hlater.done n r hp] at hlive
      cases hlive
    | _ => rfl
  · rw [hreg]
    rfl

theorem Down.cached_step (h : Down s key x session) (hs : step cfg s a = some t) (ha : InOutage key session a) :
    t.cache.peek key = some x := by
  cases step_cache hs with
  | stay he => rw [he, h.cached]
  | get k he => rw [he, Lru.peek_get, h.cached]
  | remove k he hcause =>
    have hne : k ≠ key := by
      rcases hcause with rfl | ⟨c,y,-,hy,hexpired,rfl⟩
      · exact ha
      · exact fun hkey => (h.callers c y hy hkey).1 hexpired
    rw [he, Lru.peek_remove_ne (Ne.symm hne), h.cached]
  | put f fill n e _ hf hp =>
    have hfail := h.fills f fill hf (by rw [hp]; rfl)
    rw [hp] at hfail
    cases hfail

theorem Down.callers_step (h : Down s key x session) (hs : step cfg s a = some t) (ha : InOutage key session a) :
    Unexpired t key session.expiresAt := by
  refine Unexpired.step h.callers hs (fun y hy wall hwall => ?_) fun wall heq => ?_
  · cases h.cached.symm.trans hy
    simp [Entry.wallValid, h.outcome, hwall]
  · subst heq
    exact ha rfl

theorem Down.step (h : Down s key x session) (hs : Session.step cfg s a = some t)
    (ha : InOutage key session a) : Down t key x session :=
  ⟨h.cached_step hs ha,h.outcome,fun _ _ hf hlive => h.fills_step hs ha hf hlive,
    h.callers_step hs ha⟩

def Holds (session : ResolvedSession) (stale : Option Candidate) : Prop :=
  ∃ y, stale = some y ∧ y.session = session

/-- A caller which has begun in the outage has the session, or holds it for when its fill fails. -/
def Sustained (s : State) (session : ResolvedSession) : CallerPhase → Prop
  | .flying stale => Holds session stale
  | .waiting f stale => Holds session stale ∧
      ∃ fill, s.flight.fills[f]? = some fill ∧ fill.phase.failing
  | .answered answer _ => answer = .ok (some session)
  | .panicked => False
  | _ => True

theorem sustained_step {phase : CallerPhase} (h : Sustained s session phase) (hs : step cfg s a = some t)
    (ha : InOutage key session a) : Sustained t session phase := by
  cases phase with
  | waiting f stale =>
    obtain ⟨hholds,fill,hf,hfail⟩ := h
    obtain ⟨fill',hf',-⟩ := (step_flight hs).later hf
    exact ⟨hholds,fill',hf',failing_step hs ha hf hf' hfail⟩
  | _ => exact h

theorem candidate_holds (h : Down s key x session) (hwindow : 0 < cfg.staleIfError) {now : ℕ} {wall : ℤ}
    (hwall : wall < session.expiresAt) (hnow : now < x.entry.staleUntil) :
    Holds session (s.candidate cfg key now wall) := by
  have hcandidate : staleCandidate cfg (some x.entry) now wall = some (session,x.entry.fetchedAt) := by
    simp [staleCandidate, h.outcome, Nat.ne_of_gt hwindow, hwall, hnow]
  simp [Holds, State.candidate, h.cached, hcandidate]

theorem conclude_sustained {f n : ℕ} {fill : Fill} {r : Except ResolveError Entry} {stale : Option Candidate}
    (hp : fill.phase = .done n r) (hfail : fill.phase.failing) (hholds : Holds session stale) :
    Sustained t session (State.conclude f n r stale) := by
  obtain ⟨y,rfl,rfl⟩ := hholds
  rw [hp] at hfail
  cases r with
  | ok e => cases hfail
  | error e =>
    have htransport : e.isTransport = true := hfail
    simp [State.conclude, htransport, Sustained]

theorem sustained_move (h : Down s key x session) (hwell : t.flight.WellFormed) (hwindow : 0 < cfg.staleIfError)
    (hs : step cfg s a = some t) (ha : InOutage key session a) {y z : Caller} {now : ℕ} {wall : ℤ}
    (hkey : z.key = key) (hkind : z.kind = .resolve now wall) (hnow : now < x.entry.staleUntil)
    (hwall : wall < session.expiresAt) (hy : Sustained s session y.phase) (hyz : CallerMove cfg s t y z) :
    Sustained t session z.phase := by
  cases hyz with
  | miss | expired | forcedMiss | cancel => trivial
  | hit k now' wall' x' hx' =>
    obtain rfl := hkey
    cases h.cached.symm.trans hx'
    exact congrArg Except.ok h.outcome
  | capture k now' wall' =>
    obtain rfl := hkey
    cases hkind
    exact candidate_holds h hwindow hwall hnow
  | join k kind stale id f hf =>
    obtain ⟨fill,hfill,-,-,hlive⟩ := hwell.owner k id f hf
    exact ⟨hy,fill,hfill,h.fills_step hs ha hfill hlive⟩
  | receive k kind f stale fill n r hf hp =>
    obtain ⟨hholds,fill',hf',hfail⟩ := hy
    cases hf.symm.trans hf'
    exact conclude_sustained hp hfail hholds
  | poisoned k kind f stale fill n hf hp =>
    obtain ⟨-,fill',hf',hfail⟩ := hy
    cases hf.symm.trans hf'
    rw [hp] at hfail
    cases hfail

def AllSustained (s : State) (key : TokenHash) (x : Cached) (session : ResolvedSession) (n : ℕ) : Prop :=
  ∀ (c : ℕ) (y : Caller) now wall, n ≤ c → s.callers[c]? = some y → y.key = key →
    y.kind = .resolve now wall → now < x.entry.staleUntil → Sustained s session y.phase

theorem AllSustained.step {n : ℕ} (hall : AllSustained s key x session n) (h : Down s key x session)
    (hwell : t.flight.WellFormed) (hwindow : 0 < cfg.staleIfError) (hs : Session.step cfg s a = some t)
    (ha : InOutage key session a) : AllSustained t key x session n := by
  intro c z now wall hnew hz hkey hkind hnow
  rcases step_callers hs hz with hold | ⟨y,hy,hyz⟩ | ⟨-,hborn⟩
  · exact sustained_step (hall c z now wall hnew hold hkey hkind hnow) hs ha
  · have hwall := ((h.step hs ha).callers c z hz hkey).2 now wall hkind
    have hkey' : y.key = key := by
      rw [← hkey]
      cases hyz <;> rfl
    have hkind' : y.kind = .resolve now wall := by
      rw [← hkind]
      cases hyz <;> rfl
    exact sustained_move h hwell hwindow hs ha hkey hkind hnow hwall
      (hall c y now wall hnew hy hkey' hkind' hnow) hyz
  · cases hborn with
    | resolve => trivial
    | refresh => cases hkind

theorem exec_sustained (hpre : Run cfg pre s) (hwindow : 0 < cfg.staleIfError) (hdown : Down s key x session)
    (hacts : ∀ a ∈ acts, InOutage key session a) (h : exec (step cfg) s acts = some t) :
    Down t key x session ∧ AllSustained t key x session s.callers.length := by
  revert hacts
  refine exec_induction (motive := fun acts t => (∀ a ∈ acts, InOutage key session a) →
    Down t key x session ∧ AllSustained t key x session s.callers.length) (fun _ => ⟨hdown,?_⟩) ?_ h
  · intro c y now wall hnew hy
    exact absurd (List.getElem?_eq_some_iff.mp hy).1 (Nat.not_lt.mpr hnew)
  · intro as m a u hm ih hu hall
    obtain ⟨hmid,hserved⟩ := ih fun b hb => hall b (List.mem_append_left _ hb)
    have ha := hall a (by simp)
    have hrun : Run cfg (pre ++ (as ++ [a])) u :=
      exec_append_iff.mpr ⟨s,hpre,exec_concat_iff.mpr ⟨m,hm,hu⟩⟩
    exact ⟨hmid.step hu ha,hserved.step hmid (run_wellFormed hrun) hwindow hu ha⟩

/-- With stale-if-error, every resolve that begins in the outage, in the stale window of
the cached session, is answered with that session, if it is answered at all; it does not fail. -/
theorem served_through_outage (hpre : Run cfg pre s) (hwindow : 0 < cfg.staleIfError)
    (hdown : Down s key x session) (hacts : ∀ a ∈ acts, InOutage key session a)
    (h : exec (step cfg) s acts = some t) {c : ℕ} {now : ℕ} {wall : ℤ} {phase : CallerPhase}
    (hnew : s.callers.length ≤ c) (hc : t.callers[c]? = some ⟨key,.resolve now wall,phase⟩)
    (hnow : now < x.entry.staleUntil) : phase ≠ .panicked ∧
      ∀ answer source, phase = .answered answer source → answer = .ok (some session) := by
  have hserved := (exec_sustained hpre hwindow hdown hacts h).2 c _ now wall hnew hc rfl rfl hnow
  constructor
  · rintro rfl
    exact hserved
  · rintro answer source rfl
    exact hserved

theorem served_through_outage_twice : let cfg : ResolverConfig := { staleIfError := secs 60 }
    let session : ResolvedSession := ⟨"alice","acme",secs 3600⟩
    let down : List Act := [.resolve "k" 0,.lookup 1,.tick (secs 31)] ++ coldResolve 2 1 "k" 0 ++
      [.fetchReturns 1 (.error (.transport "unavailable")) .one 0,.cleanUp 1,.receive 2]
    ∃ s t x, Run cfg (coldResolve 0 0 "k" 0 ++ settle 0 0 (some session) 0) s ∧ Down s "k" x session ∧
      exec (step cfg) s down = some t ∧ ∃ phase,
        t.callers[2]? = some ⟨"k",.resolve (secs 31) 0,phase⟩ ∧ secs 31 < x.entry.staleUntil ∧
        phase ≠ .panicked ∧ ∀ answer source, phase = .answered answer source → answer = .ok (some session) := by
  intro cfg session down
  let e : Entry := fillEntry cfg 0 .one 0 (some session)
  have hstate : (exec (step cfg) (init cfg) (coldResolve 0 0 "k" 0 ++ settle 0 0 (some session) 0)).map
      (fun s => (s.cache.peek "k",s.flight.fills,s.callers)) =
      some (some ⟨e,0⟩,[⟨0,"k",.done 0 (.ok e)⟩],
        [⟨"k",.resolve 0 0,.answered (.ok (some session)) (.joined 0 0)⟩]) := by decide +kernel
  obtain ⟨s,hs,hs'⟩ := Option.map_eq_some_iff.mp hstate
  obtain ⟨hcached,hrest⟩ := Prod.mk.inj hs'
  obtain ⟨hfills,hcallers⟩ := Prod.mk.inj hrest
  have hdown : Down s "k" ⟨e,0⟩ session := by
    refine ⟨hcached,rfl,fun f fill hf hlive => ?_,fun c y hy _ => ?_⟩
    · have hmem := List.mem_of_getElem? hf
      rw [hfills, List.mem_singleton] at hmem
      subst hmem
      cases hlive
    · have hmem := List.mem_of_getElem? hy
      rw [hcallers, List.mem_singleton] at hmem
      subst hmem
      exact ⟨fun hp => (by cases hp),fun now wall hkind => (by cases hkind; decide)⟩
  have hanswer : (exec (step cfg) (init cfg) (coldResolve 0 0 "k" 0 ++ settle 0 0 (some session) 0 ++ down)).map
      (fun t => t.callers[2]?) =
      some (some ⟨"k",.resolve (secs 31) 0,.answered (.ok (some session)) (.stale 1 0)⟩) := by decide +kernel
  obtain ⟨t,ht,hc⟩ := Option.map_eq_some_iff.mp hanswer
  obtain ⟨s',hs'',hexec⟩ := exec_append_iff.mp ht
  cases hs.symm.trans hs''
  have hnow : secs 31 < e.staleUntil := by decide +kernel
  have hacts : ∀ a ∈ down, InOutage "k" session a := by
    simp [down, coldResolve, InOutage, session, secs]
  refine ⟨s,t,⟨e,0⟩,hs,hdown,hexec,_,hc,hnow,?_⟩
  exact served_through_outage hs (by decide) hdown hacts hexec (by simp [hcallers]) hc hnow

end NioClient.Session
