import NioClient.Session.SingleFlightRuns

/-! # The resolver at rest

The steps of the resolver's tasks wait for nothing but each other and the fetch timeout.
So where none of them is due after the timeout, nothing is left unfinished but what waits
for a fill whose fetch has panicked.
-/
namespace NioClient.Session
open Execution
variable {cfg : ResolverConfig} {s t : State} {a : Act} {acts : List Act}

/-- The steps which the resolver's tasks take by themselves when they are polled. -/
def Act.own : Act → Bool
  | .lookup _ | .forcedMiss _ | .captureStale _ | .run _ | .receive _ | .callFetch _ | .fetchTimesOut _
  | .put _ | .cleanUp _ => true
  | _ => false

def CallerPhase.section? (c : ℕ) : CallerPhase → Option Act
  | .started => some (.lookup c)
  | .expired => some (.forcedMiss c)
  | .missed => some (.captureStale c)
  | .flying _ => some (.run c)
  | _ => none

/-- The caller waits for a fill whose fetch panicked: a poisoned future wakes nobody. -/
def State.Stranded (s : State) (x : Caller) : Prop :=
  ∃ f stale fill n, x.phase = .waiting f stale ∧ s.flight.fills[f]? = some fill ∧ fill.phase = .panicked n

/-- The step is possible, and a task is awake to take it. -/
structure Due (cfg : ResolverConfig) (s : State) (a : Act) : Prop where
  own : a.own
  possible : (step cfg s a).isSome
  awake : ∀ c x, a = .receive c → s.callers[c]? = some x → ¬ s.Stranded x

def CallerPhase.ended : CallerPhase → Bool
  | .answered _ _ | .cancelled | .panicked => true
  | _ => false

def Phase.section? (f : ℕ) : Phase → Option Act
  | .registered => some (.callFetch f)
  | .storing _ _ => some (.put f)
  | .cleaning _ _ => some (.cleanUp f)
  | _ => none

theorem section_own {c : ℕ} {phase : CallerPhase} (h : phase.section? c = some a) : a.own ∧ ∀ d, a ≠ .receive d := by
  cases phase <;> cases h <;> exact ⟨rfl,nofun⟩

theorem fill_section_own {f : ℕ} {phase : Phase} (h : phase.section? f = some a) : a.own ∧ ∀ c, a ≠ .receive c := by
  cases phase <;> cases h <;> exact ⟨rfl,nofun⟩

theorem due_of_possible (ha : a.own ∧ ∀ c, a ≠ .receive c) (h : (step cfg s a).isSome) : Due cfg s a :=
  ⟨ha.1,h,fun c _ hc => absurd hc (ha.2 c)⟩

theorem caller_due {c : ℕ} {x : Caller} {now : ℕ} {wall : ℤ} (hx : s.callers[c]? = some x)
    (hkind : x.kind = .resolve now wall) (ha : x.phase.section? c = some a) : Due cfg s a := by
  refine due_of_possible (section_own ha) ?_
  obtain ⟨key,kind,phase⟩ := x
  dsimp only at hkind ha
  subst hkind
  cases phase with
  | started =>
    cases ha
    simp only [step, State.lookup, hx, Option.bind_eq_bind, Option.bind_some]
    split
    · rfl
    · split <;> rfl
  | expired =>
    cases ha
    simp [step, State.forcedMiss, hx]
  | missed =>
    cases ha
    simp [step, State.captureStale, hx]
  | flying stale =>
    cases ha
    simp [step, State.run, hx]
  | _ => cases ha

theorem refresh_due {c : ℕ} {key : TokenHash} {kind : CallerKind} {stale : Option Candidate}
    (hx : s.callers[c]? = some ⟨key,kind,.flying stale⟩) : Due cfg s (.run c) :=
  due_of_possible ⟨rfl,nofun⟩ (by simp [step, State.run, hx])

theorem fill_due {f : ℕ} {fill : Fill} (hf : s.flight.fills[f]? = some fill)
    (ha : fill.phase.section? f = some a) : Due cfg s a := by
  refine due_of_possible (fill_section_own ha) ?_
  cases hp : fill.phase with
  | registered =>
    rw [hp] at ha
    cases ha
    simp [step, SingleFlight.callFetch, hf, hp]
  | storing n e =>
    rw [hp] at ha
    cases ha
    simp [step, State.put, SingleFlight.pending, hf, hp]
  | cleaning n r =>
    rw [hp] at ha
    cases ha
    simp [step, SingleFlight.cleanUp, hf, hp]
  | _ =>
    rw [hp] at ha
    cases ha

theorem timeout_due {f n : ℕ} {fill : Fill} {x : Fetch} (hf : s.flight.fills[f]? = some fill)
    (hp : fill.phase = .fetching n) (hx : s.flight.fetches[n]? = some x) (hdue : x.beganAt + RESOLVE_TIMEOUT ≤ s.now) :
    Due cfg s (.fetchTimesOut f) := by
  refine due_of_possible ⟨rfl,nofun⟩ ?_
  rw [step, Option.isSome_map]
  exact fetchTimesOut_due hf hp hx hdue

theorem receive_due {c f : ℕ} {key : TokenHash} {kind : CallerKind} {stale : Option Candidate} {fill : Fill}
    (hx : s.callers[c]? = some ⟨key,kind,.waiting f stale⟩) (hf : s.flight.fills[f]? = some fill)
    (hended : fill.phase.ended) (hp : ∀ n, fill.phase ≠ .panicked n) : Due cfg s (.receive c) := by
  refine ⟨rfl,?_,?_⟩
  · cases hphase : fill.phase with
    | done n r => simp [step, State.receive, hx, hf, hphase]
    | panicked n => exact absurd hphase (hp n)
    | _ => simp [hphase, Phase.ended] at hended
  · rintro c' y hc hy ⟨g,stale',fill',n,hwaits,hg,hpanicked⟩
    cases hc
    cases hx.symm.trans hy
    cases hwaits
    cases hf.symm.trans hg
    exact hp n hpanicked

/-- Fill `f` has called its fetch at `τ`. -/
def SingleFlight.BeganAt (flight : SingleFlight) (f τ : ℕ) : Prop :=
  ∃ fill n x, flight.fills[f]? = some fill ∧ fill.phase.fetch? = some n ∧ flight.fetches[n]? = some x ∧
    x.beganAt = τ

theorem SingleFlight.BeganAt.unique {flight : SingleFlight} {f τ τ' : ℕ} (h : flight.BeganAt f τ)
    (h' : flight.BeganAt f τ') : τ = τ' := by
  obtain ⟨fill,n,x,hf,hn,hx,rfl⟩ := h
  obtain ⟨fill',n',x',hf',hn',hx',rfl⟩ := h'
  cases hf.symm.trans hf'
  cases hn.symm.trans hn'
  cases hx.symm.trans hx'
  rfl

theorem SingleFlight.BeganAt.fill {flight : SingleFlight} {f τ : ℕ} (h : flight.BeganAt f τ) :
    ∃ fill, flight.fills[f]? = some fill := by
  obtain ⟨fill,-,-,hf,-⟩ := h
  exact ⟨fill,hf⟩

protected theorem SingleFlight.BeganAt.step {f τ : ℕ} (h : s.flight.BeganAt f τ) (hs : step cfg s a = some t) :
    t.flight.BeganAt f τ := by
  obtain ⟨fill,n,x,hf,hn,hx,rfl⟩ := h
  obtain ⟨fill',hf',-,hlater⟩ := (step_flight hs).later hf
  obtain ⟨x',hx',-,-,hbegan⟩ := (step_flight hs).fetch_later hx
  exact ⟨fill',n,x',hf',hlater.fetch n hn,hx',hbegan⟩

/-- A fetch which has begun began before, or begins in the step. -/
theorem SingleFlight.BeganAt.earlier {f τ : ℕ} (hl : s.flight.Logged cfg) (h : t.flight.BeganAt f τ)
    (hs : step cfg s a = some t) : s.flight.BeganAt f τ ∨
      a = .callFetch f ∧ τ = s.now ∧ ∃ fill, s.flight.fills[f]? = some fill ∧ fill.phase = .registered := by
  obtain ⟨fill',n,x',hf',hn,hx',rfl⟩ := h
  rcases (step_flight hs).origin hf' with ⟨fill,hf,-,-,hevolves⟩ | ⟨-,hreg,-⟩
  · cases hold : fill.phase.fetch? with
    | some m =>
      left
      obtain ⟨x,hx,-⟩ := hl.call f fill m hf hold
      have hbegan := SingleFlight.BeganAt.step ⟨fill,m,x,hf,hold,hx,rfl⟩ hs
      have hsame := hbegan.unique ⟨fill',n,x',hf',hn,hx',rfl⟩
      exact ⟨fill,m,x,hf,hold,hx,hsame⟩
    | none =>
      right
      have hreg : fill.phase = .registered := by
        cases hp : fill.phase with
        | registered => rfl
        | _ => simp [hp, Phase.fetch?] at hold
      rw [hreg] at hevolves
      generalize hevent : a.event = event at hevolves
      generalize hlog : t.flight.fetches = log at hevolves
      generalize fill'.phase = q at hevolves hn
      cases hevolves with
      | rest => cases hn
      | next ev _ _ hnext =>
        cases hnext with
        | call =>
          cases hn
          rw [hlog, List.getElem?_concat_length, Option.some.injEq] at hx'
          exact ⟨Act.event_called.mp hevent, by rw [← hx'],fill,hf,hreg⟩
  · rw [hreg] at hn
    cases hn

theorem run_began (h : Run cfg acts s) {f τ : ℕ} (hbegan : s.flight.BeganAt f τ) : τ ≤ s.now := by
  revert f τ
  refine exec_induction (motive := fun _ s => ∀ {f τ : ℕ}, s.flight.BeganAt f τ → τ ≤ s.now) ?_ ?_ h
  · rintro f τ ⟨fill,n,x,hf,-⟩
    simp [init, SingleFlight.default] at hf
  · intro acts s a t hrun ih hs f τ hbegan
    have hnow := step_now hs
    rcases hbegan.earlier (run_logged hrun) hs with hold | ⟨-,rfl,-⟩
    · exact (ih hold).trans hnow
    · exact hnow

theorem step_returned {n : ℕ} {x : Fetch} {v : Option ResolvedSession} (hs : step cfg s a = some t)
    (hx : t.flight.fetches[n]? = some x) (hret : x.returned = some (.ok v)) :
    s.flight.fetches[n]? = some x ∨ ∃ f jitter wall fill, a = .fetchReturns f (.ok v) jitter wall ∧
      s.flight.fills[f]? = some fill ∧ fill.phase = .fetching n := by
  have hmove := step_flight hs
  generalize hevent : a.event = event at hmove
  generalize t.flight = flight at hmove hx
  cases hmove with
  | stay | register | clean => exact Or.inl hx
  | advance f ev fill phase log hf hn =>
    dsimp only at hx
    generalize hp : fill.phase = p at hn
    cases hn with
    | call =>
      by_cases hlt : n < s.flight.fetches.length
      · rw [List.getElem?_append_left hlt] at hx
        exact Or.inl hx
      · rw [List.getElem?_append_right (Nat.not_lt.mp hlt)] at hx
        have hnew : x = ⟨f,fill.key,s.now,none⟩ := List.mem_singleton.mp (List.mem_of_getElem? hx)
        rw [hnew] at hret
        cases hret
    | fetched m fetched jitter wall =>
      by_cases hm : m = n
      · subst hm
        rw [List.getElem?_modify_eq] at hx
        obtain ⟨y,-,rfl⟩ := Option.map_eq_some_iff.mp hx
        cases hret
        exact Or.inr ⟨f,jitter,wall,fill,Act.event_built.mp hevent,hf,hp⟩
      · rw [List.getElem?_modify_ne _ _ hm] at hx
        exact Or.inl hx
    | failed m e =>
      by_cases hm : m = n
      · subst hm
        rw [List.getElem?_modify_eq] at hx
        obtain ⟨y,-,rfl⟩ := Option.map_eq_some_iff.mp hx
        cases hret
      · rw [List.getElem?_modify_ne _ _ hm] at hx
        exact Or.inl hx
    | timedOut | panicked | stored | cleaned => exact Or.inl hx

theorem run_refresh (h : Run cfg acts s) {c : ℕ} {key : TokenHash} {phase : CallerPhase}
    (hx : s.callers[c]? = some ⟨key,.refresh,phase⟩) :
    phase ≠ .started ∧ phase ≠ .expired ∧ phase ≠ .missed := by
  revert c key phase
  refine exec_induction (motive := fun _ s => ∀ {c : ℕ} {key : TokenHash} {phase : CallerPhase},
    s.callers[c]? = some ⟨key,.refresh,phase⟩ → phase ≠ .started ∧ phase ≠ .expired ∧ phase ≠ .missed) ?_ ?_ h
  · intro c key phase hx
    simp [init] at hx
  · intro acts s a t _ ih hs c key phase hy
    rcases step_callers hs hy with hold | ⟨x,hx,hxy⟩ | ⟨-,hborn⟩
    · exact ih hold
    · cases hxy with
      | forcedMiss => exact absurd rfl (ih hx).2.1
      | join => simp
      | receive key kind f stale fill n result =>
        unfold State.conclude
        split
        · simp
        · split
          · split <;> simp
          · simp
      | poisoned | cancel => simp
    · cases hborn
      simp

theorem cancelled_setCaller {c d : ℕ} {x y : Caller} {phase : CallerPhase} (hx : s.callers[c]? = some x)
    (hy : (s.setCaller c x phase).callers[d]? = some y) (hphase : phase ≠ .cancelled)
    (hcancelled : y.phase = .cancelled) : s.callers[d]? = some y := by
  rcases getElem?_setCaller hx hy with ⟨-,rfl⟩ | hold
  · exact absurd hcancelled hphase
  · exact hold

theorem found_uncancelled (got : Option Cached) (now : ℕ) (wall : ℤ) : (found got now wall).1 ≠ .cancelled := by
  unfold found
  split
  · nofun
  · split <;> nofun

theorem conclude_uncancelled (f n : ℕ) (result : Except ResolveError Entry) (stale : Option Candidate) :
    State.conclude f n result stale ≠ .cancelled := by
  unfold State.conclude
  split
  · nofun
  · split
    · cases stale <;> nofun
    · nofun

theorem step_cancelled (h : step cfg s a = some t) {c : ℕ} {y : Caller} (hy : t.callers[c]? = some y)
    (hcancelled : y.phase = .cancelled) (ha : a ≠ .cancel c) : s.callers[c]? = some y := by
  cases a with
  | tick | evict =>
    cases h
    exact hy
  | resolve key wall =>
    cases h
    rcases getElem?_append_one hy with hold | ⟨-,rfl⟩
    · exact hold
    · cases hcancelled
  | lookup d =>
    obtain ⟨key,now,wall,hx,rfl⟩ := lookup_eq h
    have hfound := found_uncancelled (s.cache.get key).1 now wall
    unfold State.afterLookup at hy
    dsimp only at hy
    split at hy
    · rcases getElem?_append_one hy with hleft | ⟨-,rfl⟩
      · exact cancelled_setCaller hx hleft hfound hcancelled
      · cases hcancelled
    · exact cancelled_setCaller hx hy hfound hcancelled
  | forcedMiss d =>
    obtain ⟨x,hx,-,rfl⟩ := forcedMiss_eq h
    exact cancelled_setCaller hx hy (by nofun) hcancelled
  | captureStale d =>
    obtain ⟨x,now,wall,hx,-,-,rfl⟩ := captureStale_eq h
    exact cancelled_setCaller hx hy (by nofun) hcancelled
  | run d =>
    obtain ⟨x,stale,hx,-,rfl⟩ := run_eq h
    exact cancelled_setCaller hx hy (by nofun) hcancelled
  | receive d =>
    obtain ⟨x,f,stale,fill,hx,-,-,⟨n,result,-,rfl⟩ | ⟨n,-,rfl⟩⟩ := receive_eq h
    · exact cancelled_setCaller hx hy (conclude_uncancelled f n result stale) hcancelled
    · exact cancelled_setCaller hx hy (by nofun) hcancelled
  | cancel d =>
    obtain ⟨x,f,stale,hx,-,rfl⟩ := cancel_eq h
    rcases getElem?_setCaller hx hy with ⟨rfl,-⟩ | hold
    · exact absurd rfl ha
    · exact hold
  | put f =>
    obtain ⟨fill,n,e,-,rfl⟩ := put_eq h
    exact hy
  | callFetch | fetchReturns | fetchTimesOut | fetchPanics | cleanUp =>
    obtain ⟨flight,-,rfl⟩ := Option.map_eq_some_iff.mp h
    exact hy

def State.later (s : State) (d : ℕ) : State := { s with now := s.now + d }

/-- All callers have their answer, or were dropped or poisoned, or wait for a fill that panicked;
all fills have ended; and only fills that panicked are in flight. -/
structure Settled (s : State) : Prop where
  callers : ∀ x ∈ s.callers, x.phase.ended ∨ s.Stranded x
  fills : ∀ fill ∈ s.flight.fills, fill.phase.ended
  inflight : ∀ key id f, s.flight.inflight.lookup key = some (id,f) →
    ∃ (fill : Fill) (n : ℕ), s.flight.fills[f]? = some fill ∧ fill.phase = .panicked n

def State.resting (s : State) : Bool :=
  s.callers.all (·.phase.ended) && s.flight.fills.all (·.phase.ended) && s.flight.inflight.entries.isEmpty

theorem settled_of_resting (h : s.resting) : Settled s := by
  simp only [State.resting, Bool.and_eq_true, List.all_eq_true, List.isEmpty_iff] at h
  obtain ⟨⟨hcallers,hfills⟩,hinflight⟩ := h
  refine ⟨fun x hx => Or.inl (hcallers x hx),hfills,fun key id f hlook => ?_⟩
  have hmem := AList.mem_lookup_iff.mp (Option.mem_def.mpr hlook)
  rw [hinflight] at hmem
  cases hmem

theorem conclude_ended (f n : ℕ) (result : Except ResolveError Entry) (stale : Option Candidate) :
    (State.conclude f n result stale).ended := by
  unfold State.conclude
  split
  · rfl
  · split
    · cases stale <;> rfl
    · rfl

theorem Settled.ended (hs : Settled s) {c : ℕ} {x : Caller} (hx : s.callers[c]? = some x)
    (hp : ∀ f stale, x.phase ≠ .waiting f stale) : x.phase.ended :=
  (hs.callers x (List.mem_of_getElem? hx)).resolve_right fun ⟨f,stale,_,_,hwaits,_⟩ => hp f stale hwaits

theorem Settled.not_due (hs : Settled s) (d : ℕ) : ¬ Due cfg (s.later d) a := by
  rintro ⟨ha,hpossible,hawake⟩
  obtain ⟨t,hstep⟩ := Option.isSome_iff_exists.mp hpossible
  cases a with
  | lookup c =>
    obtain ⟨key,now,wall,hx,-⟩ := lookup_eq hstep
    cases hs.ended hx (by nofun)
  | forcedMiss c =>
    obtain ⟨x,hx,hp,-⟩ := forcedMiss_eq hstep
    have hended := hs.ended hx (by simp [hp])
    simp [hp, CallerPhase.ended] at hended
  | captureStale c =>
    obtain ⟨x,now,wall,hx,-,hp,-⟩ := captureStale_eq hstep
    have hended := hs.ended hx (by simp [hp])
    simp [hp, CallerPhase.ended] at hended
  | run c =>
    obtain ⟨x,stale,hx,hp,-⟩ := run_eq hstep
    have hended := hs.ended hx (by simp [hp])
    simp [hp, CallerPhase.ended] at hended
  | receive c =>
    obtain ⟨x,f,stale,fill,hx,hp,-⟩ := receive_eq hstep
    have hended := (hs.callers x (List.mem_of_getElem? hx)).resolve_right (hawake c x rfl hx)
    simp [hp, CallerPhase.ended] at hended
  | callFetch f | fetchTimesOut f | put f | cleanUp f =>
    have hmove := step_flight hstep
    obtain ⟨fill,hf,hnot⟩ := hmove.not_ended
    have hended := hs.fills fill (List.mem_of_getElem? hf)
    simp [hnot] at hended
  | _ => cases ha

theorem settled_of_quiet (h : Run cfg acts s) (hquiet : ∀ a, ¬ Due cfg (s.later RESOLVE_TIMEOUT) a) : Settled s := by
  have hfills (f : ℕ) (fill : Fill) (hf : s.flight.fills[f]? = some fill) : fill.phase.ended := by
    cases hp : fill.phase with
    | fetching n =>
      obtain ⟨x,hx,-⟩ := (run_logged h).call f fill n hf (by simp [hp, Phase.fetch?])
      have hbegan : x.beganAt ≤ s.now := run_began h ⟨fill,n,x,hf, by simp [hp, Phase.fetch?],hx,rfl⟩
      exact absurd (timeout_due (s := s.later _) hf hp hx (Nat.add_le_add_right hbegan _)) (hquiet _)
    | registered =>
      exact absurd (fill_due (s := s.later _) hf (by rw [hp]; rfl)) (hquiet (.callFetch f))
    | storing n e =>
      exact absurd (fill_due (s := s.later _) hf (by rw [hp]; rfl)) (hquiet (.put f))
    | cleaning n r =>
      exact absurd (fill_due (s := s.later _) hf (by rw [hp]; rfl)) (hquiet (.cleanUp f))
    | done | panicked => rfl
  refine ⟨fun x hx => ?_,fun fill hf => ?_,fun key id f hlook => ?_⟩
  · obtain ⟨c,hx⟩ := List.getElem?_of_mem hx
    obtain ⟨key,kind,phase⟩ := x
    cases phase with
    | flying stale => exact absurd (refresh_due (s := s.later _) hx) (hquiet (.run c))
    | waiting f stale =>
      obtain ⟨fill,hf,-⟩ := (run_callers h hx).1
      by_cases hp : ∃ n, fill.phase = .panicked n
      · obtain ⟨n,hp⟩ := hp
        exact Or.inr ⟨f,stale,fill,n,rfl,hf,hp⟩
      · have hready : Due cfg (s.later RESOLVE_TIMEOUT) (.receive c) :=
          receive_due hx hf (hfills f fill hf) fun n hn => hp ⟨n,hn⟩
        exact absurd hready (hquiet _)
    | started | expired | missed =>
      cases kind with
      | refresh => simpa using run_refresh h hx
      | resolve now wall => exact absurd (caller_due (s := s.later _) hx rfl rfl) (hquiet _)
    | answered | cancelled | panicked => exact Or.inl rfl
  · obtain ⟨f,hf⟩ := List.getElem?_of_mem hf
    exact hfills f fill hf
  · obtain ⟨fill,hf,-,-,hlive⟩ := (run_wellFormed h).owner key id f hlook
    have hended := hfills f fill hf
    cases hp : fill.phase with
    | panicked n => exact ⟨fill,n,hf,hp⟩
    | _ => simp [hp, Phase.live, Phase.ended] at hlive hended

/-- Where no fetch has panicked, nothing is left unfinished at rest. -/
theorem Settled.resting (hs : Settled s) (h : Run cfg acts s) (hpanic : ∀ f, .fetchPanics f ∉ acts) : s.resting := by
  have hawake {f n : ℕ} {fill : Fill} (hf : s.flight.fills[f]? = some fill) : fill.phase ≠ .panicked n :=
    fun hp => hpanic f (run_panicked h hf hp)
  simp only [State.resting, Bool.and_eq_true, List.all_eq_true, List.isEmpty_iff]
  refine ⟨⟨fun x hx => ?_,hs.fills⟩,?_⟩
  · refine (hs.callers x hx).resolve_right ?_
    rintro ⟨f,stale,fill,n,-,hf,hp⟩
    exact hawake hf hp
  · refine List.eq_nil_iff_forall_not_mem.mpr fun entry hmem => ?_
    obtain ⟨fill,n,hf,hp⟩ := hs.inflight entry.1 entry.2.1 entry.2.2 (AList.mem_lookup_iff.mpr hmem)
    exact hawake hf hp

/-- The resolver cannot get stuck: it is at rest exactly where no step of its tasks is due even
after the fetch timeout, and unless a fetch has panicked nothing is then left unfinished. -/
theorem settled_iff (h : Run cfg acts s) :
    (Settled s ↔ ∀ a, ¬ Due cfg (s.later RESOLVE_TIMEOUT) a) ∧
    ((∀ f, .fetchPanics f ∉ acts) → (Settled s ↔ s.resting)) :=
  ⟨⟨fun hs _ => hs.not_due _,settled_of_quiet h⟩,fun hpanic => ⟨fun hs => hs.resting h hpanic,settled_of_resting⟩⟩

/-- The fetch panics while a second caller waits for it, and nothing more happens. -/
theorem settled_iff_stranded :
    let acts := coldResolve 0 0 "k" 0 ++ [.resolve "k" 0,.lookup 1,.captureStale 1,.run 1,.fetchPanics 0,.receive 0]
    ∃ s, Run {} acts s ∧ s.callers[1]? = some ⟨"k",.resolve 0 0,.waiting 0 none⟩ ∧
      (Settled s ↔ ∀ a, ¬ Due {} (s.later RESOLVE_TIMEOUT) a) := by
  intro acts
  have hrun : (exec (step {}) (init {}) acts).map (fun s => s.callers[1]?) =
      some (some ⟨"k",.resolve 0 0,.waiting 0 none⟩) := by decide +kernel
  obtain ⟨s,h,hs⟩ := Option.map_eq_some_iff.mp hrun
  exact ⟨s,h,hs,(settled_iff h).1⟩

end NioClient.Session
